import DeltaCFS.Model.Node
import DeltaCFS.ToMathlib.RingBuffer

/-! # The sync queue

`client/syncqueue.c` without the packing of nodes: the ring of sync nodes, the hash from a path to
the slot of its unpacked node, and the one-entry cache in front of the hash. The hash is the list of
its entries, the latest first.
-/

namespace DeltaCFS

/-- `sq` and `shs`. -/
structure SyncQueue where
  sq : RingBuffer SyncNode
  hashCachePath : Path
  hashCacheResult : Option SyncHash
  shs : List SyncHash

/-- The sync part of `initial`. -/
def SyncQueue.initial (garbage : ℕ → SyncNode) (hashCachePath : Path) : SyncQueue :=
  ⟨⟨0, 0, fun slot => (garbage slot).fresh⟩, hashCachePath, none, []⟩

/-- `MKNOD_MODE` and `MKNOD_DEV`. -/
def mknodMode : UInt64 := 33204
def mknodDev : UInt64 := 0

/-- The operations whose nodes are packed later. -/
def Op.isBuffered (op : Op) : Bool := op = .newfile || op = .write

/-- The node `sync_enqueue` leaves in a slot that held `old`. -/
def SyncNode.enqueued (old : SyncNode) (op : Op) (src dst : Path) (para : Option (Fin 5 → UInt64))
    (bn : Option (List BufInfo)) (fileBuf : Option Bytes) (localtime baseVersion : UInt64) : SyncNode where
  op := op
  src := src
  dst := dst
  para := para.getD old.para
  bn := bn
  fileBuf := fileBuf
  isPacked := !op.isBuffered
  isNewfile := op = .newfile
  isDelete := false
  isEmpty := false
  time := localtime
  baseVer := baseVersion

/-- `sync_enqueue`. A full ring makes it wait for the consumer. -/
def syncEnqueue (op : Op) (src dst : Path) (para : Option (Fin 5 → UInt64)) (bn : Option (List BufInfo))
    (fileBuf : Option Bytes) (localtime baseVersion : UInt64) (queue : SyncQueue) : Except Stop SyncQueue :=
  let p := queue.sq.tail
  if (queue.sq.node p).isEmpty then
    let shs := if op.isBuffered then ⟨src, p⟩ :: queue.shs else queue.shs
    let node := (queue.sq.node p).enqueued op src dst para bn fileBuf localtime baseVersion
    .ok { queue with sq := queue.sq.push queueSize node, shs := shs }
  else .error .blocked

/-- `sync_dequeue`: the node's buffers are freed and its slot is marked free. -/
def syncDequeue (queue : SyncQueue) : SyncQueue :=
  let q := queue.sq.head
  if (queue.sq.node q).isEmpty then queue
  else
    let node := { queue.sq.node q with
      isPacked := false, isDelete := true, isEmpty := true, bn := (queue.sq.node q).bn.map fun _ => [] }
    { queue with sq := queue.sq.pop queueSize node }

/-- `sync_find`: the cache answers for its own path while it holds a result; a hit in the hash is
cached. -/
def syncFind (path : Path) (queue : SyncQueue) : Option SyncHash × SyncQueue :=
  if queue.hashCacheResult.isSome && decide (queue.hashCachePath = path) then
    (queue.hashCacheResult, queue)
  else
    match queue.shs.find? fun sh => decide (sh.path = path) with
    | some sh => (some sh, { queue with hashCachePath := path, hashCacheResult := some sh })
    | none => (none, queue)

/-- `HASH_DEL(shs, sh)` and the reset of the cache. -/
def hashDel (sh : SyncHash) (queue : SyncQueue) : SyncQueue :=
  { queue with shs := queue.shs.erase sh, hashCacheResult := none }

/-- Rewrite the node of a slot. -/
def SyncQueue.modifyNode (queue : SyncQueue) (slot : ℕ) (change : SyncNode → SyncNode) : SyncQueue :=
  { queue with sq := queue.sq.modify slot change }

/-- `sync_delete`. -/
def syncDelete (path : Path) (queue : SyncQueue) : SyncQueue :=
  match syncFind path queue with
  | (some sh, queue) => (hashDel sh queue).modifyNode sh.loc fun sn => { sn with isDelete := true }
  | (none, queue) => queue

/-- What `sync_delete_write` makes of a node: a NEWFILE becomes a packed MKNOD. -/
def SyncNode.deleteWrite (sn : SyncNode) : SyncNode :=
  if sn.op = .newfile then
    { sn with
      op := .mknod
      para := fun i => if i.val = 0 then mknodMode else if i.val = 1 then mknodDev else sn.para i
      isPacked := true }
  else { sn with isDelete := true }

/-- `sync_delete_write`. -/
def syncDeleteWrite (path : Path) (queue : SyncQueue) : SyncQueue :=
  match syncFind path queue with
  | (some sh, queue) => (hashDel sh queue).modifyNode sh.loc SyncNode.deleteWrite
  | (none, queue) => queue

/-- What `sync_execute` does with the node of a slot before `sync_dequeue`: packing rewrites nodes
and hash entries, but neither moves the ring nor frees or fills a slot. -/
structure NodeWork where
  run : ℕ → SyncQueue → SyncQueue
  head : ∀ slot queue, (run slot queue).sq.head = queue.sq.head
  tail : ∀ slot queue, (run slot queue).sq.tail = queue.sq.tail
  flags : ∀ slot queue other, ((run slot queue).sq.node other).isEmpty = (queue.sq.node other).isEmpty

/-- The loop of one round of `sync_execute`: `recordTail` was computed before the sleep. -/
def syncPass (work : NodeWork) (recordTail : ℕ) (queue : SyncQueue) : Except Stop (List ℕ × SyncQueue) :=
  RingBuffer.pass SyncQueue.sq queueSize SyncNode.isEmpty .unoccupied
    (fun slot queue => .ok (syncDequeue (work.run slot queue)))
    (recordTail - queue.sq.head) queue.sq.head queue

end DeltaCFS
