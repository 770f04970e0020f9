import DeltaCFS.Model.FileSystem
import DeltaCFS.Model.SyncQueue
import DeltaCFS.Model.Relation
import DeltaCFS.Model.Librsync.Patch

/-! # The client: versions, deltas and packing

The state the FUSE handlers and `sync_execute` share, with `synctimestamp.c`, `syncdelta.c`, the
temporary names of `syncutil.c`, and the packing half of `syncqueue.c`. A client function that does
not return gives a `Stop`; otherwise it passes the state on.
-/

namespace DeltaCFS

open Bytes

/-- What one call finds outside the client's state. The results of `rand`, the uninitialised buffers of
librsync and the order `qsort` leaves are indexed by the number of deltas computed before. -/
structure Env where
  /-- `open(2)` of an existing file fails. -/
  openFails : Bool
  /-- The system call the handler was called for fails, with this `errno`. -/
  callFails : Option Errno
  rand : ℕ → ℕ
  /-- The octets `malloc` leaves in a write buffer. -/
  heap : ℕ → UInt8
  /-- What follows a single `uint64_t` on the stack. -/
  stack : Fin 5 → UInt64
  sigStack : ℕ → Stack
  searchStack : ℕ → Stack
  qsort : ℕ → Qsort

structure Client where
  fs : FileSystem
  db : Path → Option UInt64
  queue : SyncQueue
  rel : RelTable
  recfsCnt : UInt64
  /-- How often `compute_delta` has called `rand` for a name. -/
  deltas : ℕ

/-! ## Versions -/

/-- `INCREASE_RECFS_CNT`: the new version, and the counter. -/
def increaseRecfsCnt (client : Client) : UInt64 × Client :=
  let cnt := client.recfsCnt + 1
  (cnt &&& clientId, { client with recfsCnt := cnt })

def recfsUpdateTimestamp (path : Path) (cnt : UInt64) (client : Client) : Client :=
  { client with db := Function.update client.db path (some cnt) }

/-- A result without which the client stops. -/
def require {α : Type} (stop : Stop) : Option α → Except Stop α
  | some value => .ok value
  | none => .error stop

/-- `recfs_get_timestamp` asserts that the key exists. -/
def recfsGetTimestamp (path : Path) (client : Client) : Except Stop UInt64 :=
  require .timestamp (client.db path)

def recfsDelTimestamp (path : Path) (client : Client) : Client :=
  { client with db := Function.update client.db path none }

/-! ## Temporary files -/

/-- `find_filename`: the last token of the path. -/
def findFilename (path : Path) : Path :=
  ((path.reverse.dropWhile (· = 47)).takeWhile (· ≠ 47)).reverse

/-- The name `create_tmp` and `rename_tmp` give to a file. -/
def tmpPath (path : Path) : Path := tmpDir ++ findFilename path

def sigPath (basefile : Path) : Path := tmpSig ++ findFilename basefile

/-- The delta file of the `count`-th delta, with its three random letters. -/
def deltaPath (env : Env) (count : ℕ) (basefile : Path) : Path :=
  tmpDelta ++ findFilename basefile ++
    (List.range 3).map fun i => UInt8.ofNat (env.rand (3 * count + i) % 26 + 97)

/-- `copyfile`: the destination is created before the source is read. -/
def copyfile (source target : Path) (fs : FileSystem) : Option FileSystem := do
  let fs ← fs.store target []
  fs.store target ((fs.read source).getD [])

/-- The delta pipeline with what the `count`-th delta finds. -/
def Env.pipeline (env : Env) (count : ℕ) (old new : Bytes) : Except Abort (Option Bytes) :=
  deltaPipeline (env.qsort count) (env.sigStack count) (env.searchStack count) (pipelineFuel old new) old new

/-- What `rs_sig_file` leaves in the signature file of the `count`-th delta. -/
def Env.signature (env : Env) (count : ℕ) (old : Bytes) : Option Bytes :=
  match rsSigFile (env.sigStack count) (pipelineFuel old []) old defaultBlockLen defaultStrongLen with
  | .ok (.done, sig) => some sig
  | _ => none

/-- `compute_delta` and the `assert(res == 0)` behind every call of it; the path of the delta file. The
signature is written to a file that is opened before the origin file is read and removed before the delta is
computed, and the delta file exists before the new file is opened; the name of the result file is not used. -/
def computeDelta (env : Env) (originfile newfile basefile : Path) (client : Client) :
    Except Stop (Path × Client) := do
  let _ ← require .delta (client.fs.read originfile)
  let fs ← require .delta (client.fs.store (sigPath basefile) [])
  let old ← require .delta (fs.read originfile)
  let sig ← require .memory (env.signature client.deltas old)
  let fs ← require .delta (fs.store (sigPath basefile) sig)
  let fs := fs.remove (sigPath basefile)
  let path := deltaPath env client.deltas basefile
  let fs ← require .delta (fs.store path [])
  let new ← require .delta (fs.read newfile)
  match env.pipeline client.deltas old new with
  | .ok (some delta) =>
    let fs ← require .delta (fs.store path delta)
    return (path, { client with fs := fs, deltas := client.deltas + 1 })
  -- the signature has more blocks than an `int` can count
  | _ => .error .memory

/-! ## Packing -/

def Client.node (client : Client) (slot : ℕ) : SyncNode := client.queue.sq.node slot

def Client.modifyNode (client : Client) (slot : ℕ) (change : SyncNode → SyncNode) : Client :=
  { client with queue := client.queue.modifyNode slot change }

/-- A NEWFILE that is uploaded whole. -/
def SyncNode.packedFile (sn : SyncNode) (content : Bytes) : SyncNode :=
  { sn with
    fileBuf := some content
    para := fun i => if i.val = 0 then UInt64.ofNat content.length else sn.para i
    isPacked := true }

/-- A node that is uploaded as a delta: the file it was for becomes `dst`. -/
def SyncNode.packedDelta (sn : SyncNode) (deltaFile : Path) (baseVer formerVer : UInt64) : SyncNode :=
  { sn with
    op := .delta
    src := deltaFile
    dst := sn.src
    baseVer := baseVer
    para := fun i => if i.val = 0 then formerVer else sn.para i
    isPacked := true }

/-- The part of `sync_pack_write` that reads the new file; a file that cannot be opened leaves the
node as it is. -/
def packNewfile (slot : ℕ) (client : Client) : Client :=
  match client.fs.read (client.node slot).src with
  | none => client
  | some content => client.modifyNode slot fun sn => sn.packedFile content

/-- The buffered writes of a node without the truncate records. -/
def writeRecords (records : List BufInfo) : List BufInfo := records.filter fun bi => bi.offset ≠ flagTruncate

/-- `write_size`, an `int`. -/
def packedWriteSize (records : List BufInfo) : ℤ :=
  (BitVec.ofNat 32 ((writeRecords records).map BufInfo.size).sum).toInt

/-- `origin_file_size`: the least offset of an append. -/
def originFileSize (records : List BufInfo) : ℕ :=
  ((writeRecords records).filter BufInfo.isAppend).foldl (fun least bi => min least bi.offset) inf

/-- `append_ratio > WRITE_RATIO || 1.0*write_size < WRITE_RATIO*file_size`. -/
def sendsWrite (records : List BufInfo) (fileSize : ℤ) : Bool :=
  ((writeRecords records).length < 2 * ((writeRecords records).filter BufInfo.isAppend).length) ||
    (2 * packedWriteSize records < fileSize)

/-- The temporary file: the saved buffers are written back in the order of the writes. -/
def undoWrites (records : List BufInfo) (content : Bytes) : Bytes :=
  let restored := (writeRecords records).foldl (fun file bi => pwrite file bi.offset (bi.buf.getD [])) content
  if originFileSize records ≠ inf then resize (originFileSize records) restored else restored

/-- The WRITE branch of `sync_pack_write`. -/
def packWrite (env : Env) (slot : ℕ) (client : Client) : Except Stop Client := do
  let sn := client.node slot
  let records := sn.bn.getD []
  if sendsWrite records (client.fs.getFileSize sn.src) then
    return client.modifyNode slot fun sn => { sn with op := .write, isPacked := true }
  else
    let tmp := tmpPath sn.src
    let fs ← require .delta (copyfile sn.src tmp client.fs)
    let fs ← require .delta (fs.store tmp (undoWrites records ((fs.read tmp).getD [])))
    let (deltaFile, client) ← computeDelta env tmp sn.src sn.src { client with fs := fs }
    let client := client.modifyNode slot fun sn => sn.packedDelta deltaFile sn.baseVer sn.baseVer
    return { client with fs := client.fs.remove tmp }

/-- Pack the node a lookup found, and then remove its entry. -/
def packFound (pack : ℕ → Client → Except Stop Client) : Option SyncHash → Client → Except Stop Client
  | some sh, client => do
    let client ← pack sh.loc client
    return { client with queue := hashDel sh client.queue }
  | none, client => .ok client

/-- `sync_pack_write(&sq->node[slot])`. The recursion follows relations to pending nodes; without
fuel it does not end. -/
def syncPackWrite (env : Env) : ℕ → ℕ → Client → Except Stop Client
  | 0, _, _ => .error .diverges
  | fuel + 1, slot, client =>
    match (client.node slot).op with
    | .newfile =>
      match relFind (client.node slot).src client.rel with
      | none => .ok (packNewfile slot client)
      | some rh => do
        let rn := client.rel.rq.node rh.loc
        let found := syncFind rn.dst client.queue
        let client ← packFound (syncPackWrite env fuel) found.1 { client with queue := found.2 }
        let (deltaFile, client) ← computeDelta env rn.dst (client.node slot).src rn.dst client
        let check ← recfsGetTimestamp rn.dst client
        if check = rn.time then
          return client.modifyNode slot fun sn => sn.packedDelta deltaFile check 0
        else return packNewfile slot client
    | .write => packWrite env slot client
    | _ => .ok client

/-- More than every chain of distinct pending nodes. -/
def packFuel : ℕ := queueSize + 1

/-- `HASH_DEL(shs, sh)` in `sync_pack_write_path`: the cache is reset only if it is for the path. -/
def hashDelPath (path : Path) (sh : SyncHash) (queue : SyncQueue) : SyncQueue :=
  { queue with
    shs := queue.shs.erase sh
    hashCacheResult := if queue.hashCachePath = path then none else queue.hashCacheResult }

/-- `sync_pack_write_path`. -/
def syncPackWritePath (env : Env) (path : Path) (client : Client) : Except Stop Client :=
  match syncFind path client.queue with
  | (some sh, queue) => syncPackWrite env packFuel sh.loc { client with queue := hashDelPath path sh queue }
  | (none, queue) => .ok { client with queue := queue }

end DeltaCFS
