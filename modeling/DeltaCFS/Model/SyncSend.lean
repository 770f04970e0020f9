import DeltaCFS.Model.Node

/-! # The messages of the client

`sync_send` of `client/syncsend.c`. Integers are copied with `memcpy` on a little-endian machine.
A message is the gearman function that receives it and its workload. An `assert` of the source, or
a copy that would read past the buffer it copies from, stops the client.
-/

namespace DeltaCFS

open Bytes

/-- The worker functions the server registers for the client's messages. -/
inductive Handler where
  | rename | unlink | truncate | newfile | write | delta
deriving DecidableEq, Repr

structure Message where
  fn : Handler
  workload : Bytes
deriving DecidableEq, Repr

/-- `BLOBSIZE`. -/
def blobSize : ℕ := 1024

/-- `strlen`: the octets before the first NUL. -/
def strlen (string : Bytes) : ℕ := (string.takeWhile (· ≠ 0)).length

/-- `tmpint16 = strlen(name) + 1`. -/
def nameLen (name : Path) : ℕ := (strlen name + 1) % 2 ^ 16

def word32 (value : ℕ) : Bytes := ofNatLE 4 value
def word64 (value : UInt64) : Bytes := ofNatLE 8 value.toNat

/-- The name length and that many octets of the NUL-terminated array. -/
def nameField (name : Path) : Bytes :=
  ofNatLE 2 (nameLen name) ++ (name ++ [0]).take (nameLen name)

/-- Messages built in the static `blob_buf`. -/
def sendBlob (fn : Handler) (blob : Bytes) : Except Stop (Option Message) :=
  if blob.length < blobSize then .ok (some ⟨fn, blob⟩) else .error .send

/-- Messages built in an allocation of the precomputed size, which `assert` compares with the
octets written. -/
def sendSized (fn : Handler) (memSize : ℕ) (written : Bytes) : Except Stop (Option Message) :=
  if memSize = written.length then .ok (some ⟨fn, written⟩) else .error .send

def sendRename (sn : SyncNode) : Bytes :=
  word64 sn.baseVer ++ (word64 sn.time ++ (nameField sn.src ++ nameField sn.dst))

def sendUnlink (sn : SyncNode) : Bytes :=
  word64 sn.time ++ nameField sn.src

def sendTruncate (sn : SyncNode) : Bytes :=
  word64 sn.baseVer ++ (word64 sn.time ++ (nameField sn.src ++ word32 (sn.para 0).toNat))

def sendNewfile (sn : SyncNode) (payload : Bytes) : Bytes :=
  word64 sn.time ++ (nameField sn.src ++ (word32 (sn.para 0).toNat ++ payload))

/-- The size `sync_send` computes for a NEWFILE message, in `uint32_t`. -/
def newfileSize (sn : SyncNode) : ℕ :=
  (8 + 2 + nameLen sn.src + 4 + (sn.para 0).toNat) % 2 ^ 32

/-- The octets of one record: the payload is left out exactly when the offset is the flag. -/
def sendRecord (bi : BufInfo) : Bytes :=
  word32 bi.offset ++ (word32 bi.size ++
    if bi.offset ≠ flagTruncate then (bi.newbuf.getD []).take (bi.size % 2 ^ 32) else [])

/-- The contribution of one record to the computed size. -/
def recordSize (bi : BufInfo) : ℕ :=
  if bi.offset ≠ flagTruncate then bi.size + 8 else 8

def sendWrite (sn : SyncNode) (records : List BufInfo) : Bytes :=
  word64 sn.baseVer ++ (word64 sn.time ++ (nameField sn.src ++ records.flatMap sendRecord))

/-- The size `sync_send` computes for a WRITE message, in `uint32_t`. -/
def writeSize (sn : SyncNode) (records : List BufInfo) : ℕ :=
  (16 + 2 + nameLen sn.src + (records.map recordSize).sum) % 2 ^ 32

def sendDelta (sn : SyncNode) (content : Bytes) : Bytes :=
  word64 sn.baseVer ++ (word64 (sn.para 0) ++ (word64 sn.time ++
    (nameField sn.dst ++ (word32 content.length ++ content))))

/-- The size `sync_send` computes for a DELTA message, in `uint32_t`. -/
def deltaSize (sn : SyncNode) (content : Bytes) : ℕ :=
  (24 + 2 + nameLen sn.dst + 4 + content.length) % 2 ^ 32

/-- `sync_send`, with `readFile` the regular files of the client machine (a DELTA node's payload is
read from the file `src`). `none` is an operation that is not transmitted; MKNOD ends in the
`default` branch, which only prints. -/
def syncSend (readFile : Path → Option Bytes) (sn : SyncNode) : Except Stop (Option Message) :=
  match sn.op with
  | .rename => sendBlob .rename (sendRename sn)
  | .unlink => sendBlob .unlink (sendUnlink sn)
  | .truncate => sendBlob .truncate (sendTruncate sn)
  | .newfile =>
    -- `memcpy(write_bptr, sn->file_buf, sn->para[0])`
    if (sn.fileBuf.getD []).length < (sn.para 0).toNat then .error .send
    else sendSized .newfile (newfileSize sn)
      (sendNewfile sn ((sn.fileBuf.getD []).take (sn.para 0).toNat))
  | .write =>
    match sn.bn with
    | none => .error .send
    | some records => sendSized .write (writeSize sn records) (sendWrite sn records)
  | .delta =>
    -- an absent file makes `get_file_size` return -1 and the size assertion fail
    match readFile sn.src with
    | none => .error .send
    | some content => sendSized .delta (deltaSize sn content) (sendDelta sn content)
  | .mknod | .mkdir | .symlink | .rmdir | .link | .chmod | .chown | .utimens => .ok none

end DeltaCFS
