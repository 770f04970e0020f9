import DeltaCFS.Model.Node
import DeltaCFS.ToMathlib.RingBuffer

/-! # The relation table

`client/syncrelation.c`: a ring of relations `src → dst` with a hash from `src` to the slot of its
live relation. Deleting is lazy in the ring and immediate in the hash. The hash is the list of its
entries, the latest first; iteration goes through it in insertion order.
-/

namespace DeltaCFS

/-- `rq` and `rhs`. -/
structure RelTable where
  rq : RingBuffer RelNode
  rhs : List RelHash

/-- `rel_find`. -/
def relFind (src : Path) (rel : RelTable) : Option RelHash :=
  rel.rhs.find? fun rh => decide (rh.src = src)

/-- `rel_delete` of an entry of the hash. -/
def relDelete (rh : RelHash) (rel : RelTable) : RelTable where
  rq := rel.rq.modify rh.loc fun rn => { rn with isDelete := true }
  rhs := rel.rhs.erase rh

/-- `rel_delete(rel_find(src))`, with `rel_delete(NULL)` doing nothing; also `rel_delete_src`. -/
def relDeleteSrc (src : Path) (rel : RelTable) : RelTable :=
  match relFind src rel with
  | some rh => relDelete rh rel
  | none => rel

/-- `rel_delete_dst`: one round of its loop for every entry. -/
def relDeleteDst (dst : Path) (rel : RelTable) : RelTable :=
  rel.rhs.reverse.foldl
    (fun rel rh => if (rel.rq.node rh.loc).dst = dst then relDelete rh rel else rel) rel

/-- `rel_enqueue`. A full ring makes it wait for the consumer. -/
def relEnqueue (src dst : Path) (localtime : UInt64) (rel : RelTable) : Except Stop RelTable :=
  let p := rel.rq.tail
  if (rel.rq.node p).isEmpty then
    let rel := { rel with rq := { rel.rq with tail := (p + 1) % queueSize } }
    let rel := relDeleteSrc src rel
    let rel := { rel with rhs := ⟨src, p⟩ :: rel.rhs }
    .ok { rel with rq := rel.rq.modify p fun _ => ⟨src, dst, false, false, localtime⟩ }
  else .error .blocked

/-- `rel_dequeue`: the hash entry goes only if the node was not deleted before. -/
def relDequeue (rel : RelTable) : RelTable :=
  let q := rel.rq.head
  if (rel.rq.node q).isEmpty then rel
  else
    let rel := if (rel.rq.node q).isDelete then rel else relDeleteSrc (rel.rq.node q).src rel
    { rel with rq := rel.rq.pop queueSize { rel.rq.node q with isEmpty := true } }

/-- The relation part of `initial`. -/
def RelTable.initial (garbage : ℕ → RelNode) : RelTable := ⟨⟨0, 0, fun slot => (garbage slot).fresh⟩, []⟩

/-- The loop of one round of `rel_execute`: `recordTail` was computed before the sleep. -/
def relPass (recordTail : ℕ) (rel : RelTable) : Except Stop (List ℕ × RelTable) :=
  RingBuffer.pass RelTable.rq queueSize RelNode.isEmpty .unoccupied (fun _ rel => .ok (relDequeue rel))
    (recordTail - rel.rq.head) rel.rq.head rel

end DeltaCFS
