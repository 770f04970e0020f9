import DeltaCFS.Proofs.QueueFifo
import DeltaCFS.Proofs.RelationTable

/-! # One pass of a consumer

`sync_execute` and `rel_execute` record the tail, sleep, and then run over the slots up to the
recorded tail. The recorded tail tells how many nodes there were as long as the ring is not full;
with a full ring it equals the head, and the pass does nothing.
-/

namespace DeltaCFS

variable {queue queue' : SyncQueue} {rel rel' : RelTable} {fifo later : List ℕ}

/-- The states of the sync ring that enqueues and dequeues lead to, with the occupied slots in
enqueue order. -/
inductive SyncReached : SyncQueue → List ℕ → Prop
  | initial (garbage : ℕ → SyncNode) (hashCachePath : Path) :
      SyncReached (SyncQueue.initial garbage hashCachePath) []
  | enqueue (op : Op) (src dst : Path) (para : Option (Fin 5 → UInt64)) (bn : Option (List BufInfo))
      (fileBuf : Option Bytes) (localtime baseVersion : UInt64) {queue queue' : SyncQueue} {fifo : List ℕ}
      (before : SyncReached queue fifo)
      (entered : syncEnqueue op src dst para bn fileBuf localtime baseVersion queue = .ok queue') :
      SyncReached queue' (fifo ++ [queue.sq.tail])
  | dequeue {queue : SyncQueue} {fifo : List ℕ} (before : SyncReached queue fifo) :
      SyncReached (syncDequeue queue) fifo.tail

/-- The sync ring before and after the enqueues of one sleep, with the slots they filled. -/
inductive SyncSlept (start : SyncQueue) : SyncQueue → List ℕ → Prop
  | nothing : SyncSlept start start []
  | enqueue (op : Op) (src dst : Path) (para : Option (Fin 5 → UInt64)) (bn : Option (List BufInfo))
      (fileBuf : Option Bytes) (localtime baseVersion : UInt64) {queue queue' : SyncQueue} {later : List ℕ}
      (before : SyncSlept start queue later)
      (entered : syncEnqueue op src dst para bn fileBuf localtime baseVersion queue = .ok queue') :
      SyncSlept start queue' (later ++ [queue.sq.tail])

/-- The states of the relation ring that enqueues and dequeues lead to. -/
inductive RelReached : RelTable → List ℕ → Prop
  | initial (garbage : ℕ → RelNode) : RelReached (RelTable.initial garbage) []
  | enqueue (src dst : Path) (localtime : UInt64) {rel rel' : RelTable} {fifo : List ℕ}
      (before : RelReached rel fifo) (entered : relEnqueue src dst localtime rel = .ok rel') :
      RelReached rel' (fifo ++ [rel.rq.tail])
  | dequeue {rel : RelTable} {fifo : List ℕ} (before : RelReached rel fifo) :
      RelReached (relDequeue rel) fifo.tail

/-- The relation ring before and after the enqueues of one sleep. -/
inductive RelSlept (start : RelTable) : RelTable → List ℕ → Prop
  | nothing : RelSlept start start []
  | enqueue (src dst : Path) (localtime : UInt64) {rel rel' : RelTable} {later : List ℕ}
      (before : RelSlept start rel later) (entered : relEnqueue src dst localtime rel = .ok rel') :
      RelSlept start rel' (later ++ [rel.rq.tail])

/-- The pass visits and dequeues the snapshot, in order, and leaves what came later. -/
def SyncDrains (work : NodeWork) (queue queue' : SyncQueue) (fifo later : List ℕ) : Prop :=
  ∃ final, syncPass work (queue.sq.recordTail queueSize) queue' = .ok (fifo, final) ∧
    final.sq.Queued queueSize SyncNode.isEmpty later

def RelDrains (rel rel' : RelTable) (fifo later : List ℕ) : Prop :=
  ∃ final, relPass (rel.rq.recordTail queueSize) rel' = .ok (fifo, final) ∧
    final.rq.Queued queueSize RelNode.isEmpty later

/-! ## The rings stand for their queues -/

theorem syncEnqueue_queued {op : Op} {src dst : Path} {para : Option (Fin 5 → UInt64)}
    {bn : Option (List BufInfo)} {fileBuf : Option Bytes} {localtime baseVersion : UInt64}
    (queued : queue.sq.Queued queueSize SyncNode.isEmpty fifo)
    (entered : syncEnqueue op src dst para bn fileBuf localtime baseVersion queue = .ok queue') :
    queue'.sq.Queued queueSize SyncNode.isEmpty (fifo ++ [queue.sq.tail]) ∧ queue'.sq.head = queue.sq.head := by
  rw [syncEnqueue] at entered
  split at entered
  · next empty =>
    cases entered
    exact ⟨queued.push (queued.isEmpty_tail.mp empty) rfl, rfl⟩
  · cases entered

theorem syncDequeue_queued (queued : queue.sq.Queued queueSize SyncNode.isEmpty fifo) :
    (syncDequeue queue).sq.Queued queueSize SyncNode.isEmpty fifo.tail := by
  rw [syncDequeue]
  split
  · next empty =>
    obtain rfl := queued.isEmpty_head.mp empty
    exact queued
  · next occupied =>
    obtain ⟨slot, rest, rfl⟩ := List.exists_cons_of_ne_nil fun nil => occupied (queued.isEmpty_head.mpr nil)
    exact queued.pop rfl

theorem SyncReached.queued (reached : SyncReached queue fifo) :
    queue.sq.Queued queueSize SyncNode.isEmpty fifo := by
  induction reached with
  | initial garbage hashCachePath => exact RingBuffer.queued_nil (by decide) _ fun _ => rfl
  | enqueue op src dst para bn fileBuf localtime baseVersion before entered ih =>
    exact (syncEnqueue_queued ih entered).1
  | dequeue before ih => exact syncDequeue_queued ih

theorem SyncSlept.queued (slept : SyncSlept queue queue' later)
    (queued : queue.sq.Queued queueSize SyncNode.isEmpty fifo) :
    queue'.sq.Queued queueSize SyncNode.isEmpty (fifo ++ later) ∧ queue'.sq.head = queue.sq.head := by
  induction slept with
  | nothing => exact ⟨(List.append_nil fifo).symm ▸ queued, rfl⟩
  | enqueue op src dst para bn fileBuf localtime baseVersion before entered ih =>
    obtain ⟨queued', head⟩ := syncEnqueue_queued ih.1 entered
    exact ⟨List.append_assoc _ _ _ ▸ queued', head.trans ih.2⟩

theorem RelReached.consistent (reached : RelReached rel fifo) : rel.Consistent fifo := by
  induction reached with
  | initial garbage => exact RelTable.Consistent.initial garbage
  | enqueue src dst localtime before entered ih => exact (ih.of_relEnqueue entered).2.1
  | @dequeue rel fifo before ih =>
    cases fifo with
    | nil => simpa [ih.relDequeue_nil] using ih
    | cons slot fifo => exact ih.relDequeue_cons.1

theorem RelSlept.consistent (slept : RelSlept rel rel' later) (consistent : rel.Consistent fifo) :
    rel'.Consistent (fifo ++ later) ∧ rel'.rq.head = rel.rq.head := by
  induction slept with
  | nothing => exact ⟨(List.append_nil fifo).symm ▸ consistent, rfl⟩
  | enqueue src dst localtime before entered ih =>
    obtain ⟨-, consistent', head⟩ := ih.1.of_relEnqueue entered
    exact ⟨List.append_assoc _ _ _ ▸ consistent', head.trans ih.2⟩

/-! ## The pass -/

theorem syncBody_pops (work : NodeWork) (slot : ℕ)
    (queued : queue.sq.Queued queueSize SyncNode.isEmpty (slot :: fifo)) :
    (syncDequeue (work.run slot queue)).sq.Queued queueSize SyncNode.isEmpty fifo ∧
      (syncDequeue (work.run slot queue)).sq.head = (slot + 1) % queueSize := by
  have worked := queued.of_same_flags (work.head slot queue) (work.tail slot queue)
    fun other _ => work.flags slot queue other
  refine ⟨syncDequeue_queued worked, ?_⟩
  have occupied : ((work.run slot queue).sq.node (work.run slot queue).sq.head).isEmpty = false := by
    rw [← Bool.not_eq_true, worked.isEmpty_head]
    exact List.cons_ne_nil _ _
  simp only [syncDequeue, occupied, Bool.false_eq_true, ↓reduceIte, RingBuffer.pop]
  rw [worked.head_eq]

theorem relBody_pops {slot : ℕ} (consistent : rel.Consistent (slot :: fifo)) :
    (relDequeue rel).Consistent fifo ∧ (relDequeue rel).rq.head = (slot + 1) % queueSize := by
  refine ⟨consistent.relDequeue_cons.1, ?_⟩
  have occupied : (rel.rq.node rel.rq.head).isEmpty = false := by
    rw [← Bool.not_eq_true, consistent.queued.isEmpty_head]
    exact List.cons_ne_nil _ _
  simp only [relDequeue, occupied, Bool.false_eq_true, ↓reduceIte, RingBuffer.pop]
  split
  · rw [consistent.queued.head_eq]
  · rw [relDeleteSrc]
    split <;> simp [relDelete, consistent.queued.head_eq]

theorem syncDrains_iff (work : NodeWork) (reached : SyncReached queue fifo)
    (slept : SyncSlept queue queue' later) :
    SyncDrains work queue queue' fifo later ↔ fifo.length < queueSize := by
  have queued := reached.queued
  obtain ⟨queued', head⟩ := slept.queued queued
  rw [SyncDrains, syncPass, head, queued.recordTail_sub_head]
  split
  · next notFull =>
    refine ⟨fun _ => notFull, fun _ => ?_⟩
    rw [← head]
    exact RingBuffer.pass_completes SyncQueue.sq id (syncBody_pops work _) fifo later queue' queued'
  · next full =>
    refine ⟨?_, fun notFull => absurd notFull full⟩
    rintro ⟨final, passed, -⟩
    have none : [] = fifo := congrArg Prod.fst (Except.ok.inj passed)
    subst none
    exact absurd (by decide) full

theorem relDrains_iff (reached : RelReached rel fifo) (slept : RelSlept rel rel' later) :
    RelDrains rel rel' fifo later ↔ fifo.length < queueSize := by
  have consistent := reached.consistent
  obtain ⟨consistent', head⟩ := slept.consistent consistent
  rw [RelDrains, relPass, head, consistent.queued.recordTail_sub_head]
  split
  · next notFull =>
    refine ⟨fun _ => notFull, fun _ => ?_⟩
    rw [← head]
    obtain ⟨final, passed, left⟩ := RingBuffer.pass_completes RelTable.rq RelTable.Consistent.queued
      relBody_pops fifo later rel' consistent'
    exact ⟨final, passed, left.queued⟩
  · next full =>
    refine ⟨?_, fun notFull => absurd notFull full⟩
    rintro ⟨final, passed, -⟩
    have none : [] = fifo := congrArg Prod.fst (Except.ok.inj passed)
    subst none
    exact absurd (by decide) full

/-- For every reachable ring and every sleep, the pass that follows visits and dequeues exactly the
nodes of the snapshot, in enqueue order and without its assertion failing, if and only if the
ring was not full at the snapshot. -/
theorem consumer_pass_drains_iff_not_full (work : NodeWork) {queue queue' : SyncQueue} {rel rel' : RelTable}
    {syncFifo syncLater relFifo relLater : List ℕ}
    (syncReached : SyncReached queue syncFifo) (syncSlept : SyncSlept queue queue' syncLater)
    (relReached : RelReached rel relFifo) (relSlept : RelSlept rel rel' relLater) :
    (SyncDrains work queue queue' syncFifo syncLater ↔ syncFifo.length < queueSize) ∧
      (RelDrains rel rel' relFifo relLater ↔ relFifo.length < queueSize) :=
  ⟨syncDrains_iff work syncReached syncSlept, relDrains_iff relReached relSlept⟩

/-- The packing of `sync_execute`, where it returns. -/
def NodeWork.packing (env : Env) (client : Client) : NodeWork where
  run _ queue :=
    match packHead env { client with queue := queue } with
    | .ok packed => packed.queue
    | .error _ => queue
  head _ queue := by
    split
    · next packed => exact (InPlace.packHead packed).choose_spec.head
    · rfl
  tail _ queue := by
    split
    · next packed => exact (InPlace.packHead packed).choose_spec.tail
    · rfl
  flags _ queue other := by
    split
    · next packed => exact (InPlace.packHead packed).choose_spec.isEmpty_eq other
    · rfl

/-- A pass over two nodes, a third one being entered during the sleep, and one over two relations. -/
theorem consumer_pass_drains_two_nodes :
    ∃ (queue queue' : SyncQueue) (rel : RelTable), SyncReached queue [0, 1] ∧ SyncSlept queue queue' [2] ∧
      RelReached rel [0, 1] ∧ (∀ work, SyncDrains work queue queue' [0, 1] [2] ∧ RelDrains rel rel [0, 1] []) ∧
      ∀ env client, SyncDrains (.packing env client) queue queue' [0, 1] [2] := by
  have one := SyncReached.enqueue .mkdir [47, 97] [] none none none 2 0 (.initial default []) rfl
  have two := SyncReached.enqueue .mkdir [47, 97] [] none none none 2 0 one rfl
  have relOne := RelReached.enqueue [47, 97] [47, 98] 2 (.initial default) rfl
  have relTwo := RelReached.enqueue [47, 99] [47, 97] 3 relOne rfl
  refine ⟨_, _, _, two, .enqueue .mkdir [47, 97] [] none none none 2 0 .nothing rfl, relTwo, fun work => ?_,
    fun env client => ?_⟩
  · have both := consumer_pass_drains_iff_not_full work two
      (.enqueue .mkdir [47, 97] [] none none none 2 0 .nothing rfl) relTwo .nothing
    exact ⟨both.1.mpr (by decide), both.2.mpr (by decide)⟩
  · have packs := consumer_pass_drains_iff_not_full (.packing env client) two
      (.enqueue .mkdir [47, 97] [] none none none 2 0 .nothing rfl) relTwo .nothing
    exact packs.1.mpr (by decide)

/-- Any number of nodes up to the capacity can be outstanding. -/
theorem SyncReached.exists_of_le {count : ℕ} (bound : count ≤ queueSize) :
    ∃ queue fifo, SyncReached queue fifo ∧ fifo.length = count := by
  induction count with
  | zero => exact ⟨_, [], .initial default [], rfl⟩
  | succ count ih =>
    obtain ⟨queue, fifo, reached, length⟩ := ih (by omega)
    have empty : (queue.sq.node queue.sq.tail).isEmpty = true :=
      reached.queued.isEmpty_tail.mpr (by omega)
    have entered : ∃ queue', syncEnqueue .mkdir [47, 97] [] none none none 2 0 queue = .ok queue' := by
      simp [syncEnqueue, empty]
    obtain ⟨queue', entered⟩ := entered
    exact ⟨queue', _, .enqueue .mkdir [47, 97] [] none none none 2 0 reached entered, by simp [length]⟩

/-- A full ring yields a pass that dequeues nothing, whatever its body does. -/
theorem full_ring_pass_dequeues_nothing :
    ∃ queue fifo, SyncReached queue fifo ∧ fifo ≠ [] ∧ SyncSlept queue queue [] ∧
      ∀ work, syncPass work (queue.sq.recordTail queueSize) queue = .ok ([], queue) ∧
        ¬ SyncDrains work queue queue fifo [] := by
  obtain ⟨queue, fifo, reached, full⟩ := SyncReached.exists_of_le le_rfl
  refine ⟨queue, fifo, reached, ?_, .nothing, fun work => ⟨?_, ?_⟩⟩
  · rintro rfl
    exact absurd full (by decide)
  · rw [syncPass, reached.queued.recordTail_sub_head, if_neg (by omega)]
    rfl
  · rw [syncDrains_iff work reached .nothing]
    omega

end DeltaCFS
