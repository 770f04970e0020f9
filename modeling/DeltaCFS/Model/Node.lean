import DeltaCFS.ToMathlib.Bytes

/-! # The client's data model

Operation codes, buffered write records, sync nodes, relation nodes and hash entries, as declared in
`client/deltacfs_client_gearman.h`. C strings are octet lists without their terminator. A heap
pointer that the code only tests for `NULL` and reads through is an `Option`; a `buf_node` is the
list of its `buf_info` records, since its other fields are never read.
-/

namespace DeltaCFS

/-- A file name as the FUSE layer passes it. -/
abbrev Path := Bytes

/-- `QUEUE_SIZE`, the capacity of both rings. -/
def queueSize : ℕ := 65536

/-- `FLAG_TRUNCATE`, the offset that marks a truncate record. -/
def flagTruncate : ℕ := 0xFFFFFFFF

/-- `INF`, the initial value of `origin_file_size`. -/
def inf : ℕ := 0x7FFFFFFF

/-- `CLIENTID`, the mask applied to the version counter. -/
def clientId : UInt64 := 0x00000001ffffffff

/-- `TMP_DIR`, `"/tmp/cloudsynctmp/"`. -/
def tmpDir : Path := [47, 116, 109, 112, 47, 99, 108, 111, 117, 100, 115, 121, 110, 99, 116, 109, 112, 47]

/-- `TMP_SIG`, `"/tmp/cloudsynctmp/sig_"`. -/
def tmpSig : Path := tmpDir ++ [115, 105, 103, 95]

/-- `TMP_DELTA`, `"/tmp/cloudsynctmp/delta_"`. -/
def tmpDelta : Path := tmpDir ++ [100, 101, 108, 116, 97, 95]

/-- The operation of a sync node. -/
inductive Op where
  | mknod | mkdir | symlink | rmdir | link | chmod | chown | truncate | utimens
  | rename | unlink | newfile | write | delta
deriving DecidableEq, Repr, Inhabited

/-- One buffered write (`buf_info`). A truncate record has neither buffer; its offset is the flag. -/
structure BufInfo where
  offset : ℕ
  size : ℕ
  buf : Option Bytes
  newbuf : Option Bytes
  isAppend : Bool
deriving DecidableEq, Repr, Inhabited

/-- `sync_node`. -/
structure SyncNode where
  op : Op
  src : Path
  dst : Path
  para : Fin 5 → UInt64
  bn : Option (List BufInfo)
  fileBuf : Option Bytes
  isPacked : Bool
  isNewfile : Bool
  isDelete : Bool
  isEmpty : Bool
  time : UInt64
  baseVer : UInt64
deriving Inhabited

/-- `sync_hash`: the slot of the unpacked node of a path. -/
structure SyncHash where
  path : Path
  loc : ℕ
deriving DecidableEq, Repr, Inhabited

/-- `rel_node`: `src` was moved to `dst` when `dst` got version `time`. -/
structure RelNode where
  src : Path
  dst : Path
  isDelete : Bool
  isEmpty : Bool
  time : UInt64
deriving DecidableEq, Repr, Inhabited

/-- `rel_hash`: the slot of the live relation of a source path. -/
structure RelHash where
  src : Path
  loc : ℕ
deriving DecidableEq, Repr, Inhabited

/-- Why a client operation does not return: the queue is full and the enqueue waits, an `assert`
fails (the timestamp lookup, `compute_delta` for want of a file or of memory, the size check of `sync_send`,
or the occupancy check of the consumers), or the recursion of `sync_pack_write` does not end. -/
inductive Stop where
  | blocked | timestamp | delta | memory | send | unoccupied | diverges
deriving DecidableEq, Repr, Inhabited

/-- `para[0] = (int)size`: the length is cut to 32 bits and sign-extended into the `uint64_t`. -/
def intPara (size : ℕ) : UInt64 := ⟨(BitVec.ofNat 32 size).signExtend 64⟩

/-- The slot contents that `initial` leaves: only `isEmpty` is defined, `garbage` stands for the
rest of the `malloc`ed node. -/
def SyncNode.fresh (garbage : SyncNode) : SyncNode := { garbage with isEmpty := true }

/-- The slot contents that `initial` leaves in the relation ring. -/
def RelNode.fresh (garbage : RelNode) : RelNode := { garbage with isEmpty := true }

end DeltaCFS
