import DeltaCFS.Model.Relation
import DeltaCFS.ToMathlib.ExpiringMap

/-! # The relation table refines an expiring map

The ring is read as a queue of bindings, dead ones included. The hash holds exactly one entry for
every binding that is not deleted, so lookups by `src` agree with the map, and the lookup by `src`
in `rel_dequeue` hits the node that expires and no newer one.
-/

namespace DeltaCFS

/-- A relation node as a binding from `src` to `dst` and its version. -/
def RelNode.binding (rn : RelNode) : Binding Path (Path × UInt64) := ⟨rn.src, (rn.dst, rn.time), !rn.isDelete⟩

/-- The bindings of the queued slots. -/
def RelTable.bindings (rel : RelTable) (fifo : List ℕ) : ExpiringMap Path (Path × UInt64) :=
  fifo.map fun slot => (rel.rq.node slot).binding

/-- The table is consistent and its queue is `fifo`: the hash lists the undeleted nodes once each. -/
structure RelTable.Consistent (rel : RelTable) (fifo : List ℕ) : Prop where
  queued : rel.rq.Queued queueSize RelNode.isEmpty fifo
  keys : (rel.rhs.map RelHash.src).Nodup
  entries : ∀ rh, rh ∈ rel.rhs ↔
    rh.loc ∈ fifo ∧ (rel.rq.node rh.loc).isDelete = false ∧ (rel.rq.node rh.loc).src = rh.src

variable {rel : RelTable} {fifo : List ℕ}

namespace RelTable.Consistent

theorem relFind_eq_some (consistent : rel.Consistent fifo) {src : Path} {rh : RelHash} :
    relFind src rel = some rh ↔ rh ∈ rel.rhs ∧ rh.src = src := by
  constructor
  · intro found
    exact ⟨List.mem_of_find?_eq_some found, by simpa using List.find?_some found⟩
  · rintro ⟨member, rfl⟩
    cases found : relFind rh.src rel with
    | none =>
      have absent := List.find?_eq_none.mp found rh member
      simp at absent
    | some other =>
      have same : other.src = rh.src := by simpa using List.find?_some found
      rw [List.inj_on_of_nodup_map consistent.keys (List.mem_of_find?_eq_some found) member same]

theorem relFind_eq_none (consistent : rel.Consistent fifo) {src : Path} (absent : relFind src rel = none)
    {slot : ℕ} (member : slot ∈ fifo) (same : (rel.rq.node slot).src = src) :
    (rel.rq.node slot).isDelete = true := by
  by_contra alive
  rw [Bool.not_eq_true] at alive
  have entry := (consistent.entries ⟨src, slot⟩).mpr ⟨member, alive, same⟩
  simpa using List.find?_eq_none.mp absent _ entry

/-- Undeleted nodes of one `src` share a slot. -/
theorem slot_unique (consistent : rel.Consistent fifo) {first second : ℕ} (inFifo : first ∈ fifo)
    (inFifo' : second ∈ fifo) (alive : (rel.rq.node first).isDelete = false)
    (alive' : (rel.rq.node second).isDelete = false)
    (same : (rel.rq.node first).src = (rel.rq.node second).src) : first = second := by
  have entry := (consistent.entries ⟨(rel.rq.node first).src, first⟩).mpr ⟨inFifo, alive, rfl⟩
  have entry' := (consistent.entries ⟨(rel.rq.node second).src, second⟩).mpr ⟨inFifo', alive', rfl⟩
  exact congrArg RelHash.loc (List.inj_on_of_nodup_map consistent.keys entry entry' same)

/-! ## Deleting -/

theorem relDelete (consistent : rel.Consistent fifo) {rh : RelHash} (member : rh ∈ rel.rhs) :
    (relDelete rh rel).Consistent fifo where
  queued := consistent.queued.modify rh.loc (fun rn => { rn with isDelete := true }) rfl
  keys := consistent.keys.sublist ((List.erase_sublist).map _)
  entries := by
    have unique : rel.rhs.Nodup := consistent.keys.of_map _
    intro other
    simp only [DeltaCFS.relDelete, unique.mem_erase_iff, consistent.entries, RingBuffer.modify_node]
    constructor
    · rintro ⟨different, inFifo, alive, source⟩
      have apart : other.loc ≠ rh.loc := by
        intro sameSlot
        obtain ⟨-, -, source'⟩ := (consistent.entries rh).mp member
        apply different
        cases other
        cases rh
        simp_all
      simp [apart, inFifo, alive, source]
    · rintro ⟨inFifo, alive, source⟩
      split at alive
      · simp at alive
      · next apart =>
        rw [if_neg apart] at source
        exact ⟨fun same => apart (same ▸ rfl), inFifo, alive, source⟩

theorem relDelete_bindings (consistent : rel.Consistent fifo) {rh : RelHash} (member : rh ∈ rel.rhs) :
    (DeltaCFS.relDelete rh rel).bindings fifo = (rel.bindings fifo).remove rh.src := by
  obtain ⟨inFifo, alive, source⟩ := (consistent.entries rh).mp member
  simp only [bindings, ExpiringMap.remove, ExpiringMap.kill, List.map_map]
  apply List.map_congr_left
  intro slot member
  simp only [DeltaCFS.relDelete, RingBuffer.modify_node, Function.comp_apply]
  split
  · next same => simp [same, RelNode.binding, source]
  · next apart =>
    by_cases sameSource : (rel.rq.node slot).src = rh.src
    · have dead : (rel.rq.node slot).isDelete = true := by
        by_contra other
        rw [Bool.not_eq_true] at other
        exact apart (consistent.slot_unique member inFifo other alive (sameSource.trans source.symm))
      simp [RelNode.binding, dead]
    · simp [RelNode.binding, sameSource]

theorem relDeleteSrc (consistent : rel.Consistent fifo) (src : Path) :
    (relDeleteSrc src rel).Consistent fifo := by
  rw [DeltaCFS.relDeleteSrc]
  split
  · next rh found => exact consistent.relDelete (consistent.relFind_eq_some.mp found).1
  · exact consistent

theorem relDeleteSrc_bindings (consistent : rel.Consistent fifo) (src : Path) :
    (DeltaCFS.relDeleteSrc src rel).bindings fifo = (rel.bindings fifo).remove src := by
  rw [DeltaCFS.relDeleteSrc]
  split
  · next rh found =>
    obtain ⟨member, rfl⟩ := consistent.relFind_eq_some.mp found
    exact consistent.relDelete_bindings member
  · next absent =>
    simp only [bindings, ExpiringMap.remove, ExpiringMap.kill, List.map_map]
    apply List.map_congr_left
    intro slot member
    by_cases same : (rel.rq.node slot).src = src
    · simp [RelNode.binding, consistent.relFind_eq_none absent member same]
    · simp [RelNode.binding, same]

/-- A round of the loop of `rel_delete_dst`. -/
private theorem round_bindings (consistent : rel.Consistent fifo) {rh : RelHash} (member : rh ∈ rel.rhs)
    (dst : Path) :
    ((if (rel.rq.node rh.loc).dst = dst then DeltaCFS.relDelete rh rel else rel).Consistent fifo) ∧
      (if (rel.rq.node rh.loc).dst = dst then DeltaCFS.relDelete rh rel else rel).bindings fifo =
        (rel.bindings fifo).kill fun src value => decide (rh.src = src) && decide (value.1 = dst) := by
  obtain ⟨inFifo, alive, source⟩ := (consistent.entries rh).mp member
  have kills : ∀ slot ∈ fifo, (rel.rq.node slot).src = rh.src → slot ≠ rh.loc →
      (rel.rq.node slot).isDelete = true := by
    intro slot queued same apart
    by_contra other
    rw [Bool.not_eq_true] at other
    exact apart (consistent.slot_unique queued inFifo other alive (same.trans source.symm))
  split
  · next hit =>
    refine ⟨consistent.relDelete member, ?_⟩
    rw [consistent.relDelete_bindings member]
    simp only [bindings, ExpiringMap.remove, ExpiringMap.kill, List.map_map]
    apply List.map_congr_left
    intro slot queued
    simp only [Function.comp_apply, RelNode.binding]
    by_cases same : (rel.rq.node slot).src = rh.src
    · by_cases here : slot = rh.loc
      · simp [here, hit, source]
      · simp [kills slot queued same here]
    · simp [same, Ne.symm same]
  · next miss =>
    refine ⟨consistent, ?_⟩
    simp only [bindings, ExpiringMap.kill, List.map_map]
    apply List.map_congr_left
    intro slot queued
    simp only [Function.comp_apply, RelNode.binding]
    by_cases same : (rel.rq.node slot).src = rh.src
    · by_cases here : slot = rh.loc
      · simp [here, miss]
      · simp [kills slot queued same here]
    · simp [Ne.symm same]

/-- The loop of `rel_delete_dst` over any part of the hash. -/
private theorem rounds_bindings (dst : Path) (entries : List RelHash) (unique : entries.Nodup)
    (consistent : rel.Consistent fifo) (inside : ∀ rh ∈ entries, rh ∈ rel.rhs) :
    (entries.foldl (fun rel rh => if (rel.rq.node rh.loc).dst = dst then DeltaCFS.relDelete rh rel else rel)
      rel).Consistent fifo ∧
    (entries.foldl (fun rel rh => if (rel.rq.node rh.loc).dst = dst then DeltaCFS.relDelete rh rel else rel)
      rel).bindings fifo =
      (rel.bindings fifo).kill fun src value =>
        entries.any (fun rh => decide (rh.src = src)) && decide (value.1 = dst) := by
  induction entries generalizing rel with
  | nil => simpa [bindings, ExpiringMap.kill] using consistent
  | cons rh entries ih =>
    obtain ⟨notAgain, unique⟩ := List.nodup_cons.mp unique
    obtain ⟨consistent', killed⟩ := consistent.round_bindings (inside rh List.mem_cons_self) dst
    have inside' : ∀ other ∈ entries,
        other ∈ (if (rel.rq.node rh.loc).dst = dst then DeltaCFS.relDelete rh rel else rel).rhs := by
      intro other member
      have kept := inside other (List.mem_cons_of_mem _ member)
      have apart : other ≠ rh := fun same => notAgain (same ▸ member)
      split
      · exact (List.mem_erase_of_ne apart).mpr kept
      · exact kept
    obtain ⟨final, rest⟩ := ih unique consistent' inside'
    refine ⟨final, ?_⟩
    rw [List.foldl_cons, rest, killed, ExpiringMap.kill_kill]
    congr 1
    funext src value
    rw [List.any_cons, Bool.and_or_distrib_right]

theorem relDeleteDst (consistent : rel.Consistent fifo) (dst : Path) :
    (relDeleteDst dst rel).Consistent fifo ∧
      (DeltaCFS.relDeleteDst dst rel).bindings fifo =
        (rel.bindings fifo).kill fun _ value => decide (value.1 = dst) := by
  have unique : rel.rhs.reverse.Nodup := List.nodup_reverse.mpr (consistent.keys.of_map _)
  obtain ⟨final, killed⟩ := rounds_bindings dst rel.rhs.reverse unique consistent (by simp)
  refine ⟨final, killed.trans ?_⟩
  simp only [bindings, ExpiringMap.kill, List.map_map]
  apply List.map_congr_left
  intro slot member
  simp only [Function.comp_apply, RelNode.binding]
  cases alive : (rel.rq.node slot).isDelete with
  | true => simp
  | false =>
    have entry := (consistent.entries ⟨(rel.rq.node slot).src, slot⟩).mpr ⟨member, alive, rfl⟩
    have listed : rel.rhs.reverse.any (fun rh => decide (rh.src = (rel.rq.node slot).src)) = true :=
      List.any_eq_true.mpr ⟨_, List.mem_reverse.mpr entry, decide_eq_true rfl⟩
    simp [listed]

/-! ## The queue -/

theorem initial (garbage : ℕ → RelNode) : (RelTable.initial garbage).Consistent [] where
  queued := RingBuffer.queued_nil (by decide) _ (fun _ => rfl)
  keys := List.nodup_nil
  entries := by simp [RelTable.initial]

theorem relDequeue_nil (consistent : rel.Consistent []) : relDequeue rel = rel := by
  have empty : (rel.rq.node rel.rq.head).isEmpty = true := consistent.queued.isEmpty_head.mpr rfl
  simp only [DeltaCFS.relDequeue, empty, ↓reduceIte]

/-- The oldest node leaves the ring, and with it its own hash entry only. -/
theorem relDequeue_cons {slot : ℕ} (consistent : rel.Consistent (slot :: fifo)) :
    (relDequeue rel).Consistent fifo ∧
      ∀ other ∈ fifo, (DeltaCFS.relDequeue rel).rq.node other = rel.rq.node other := by
  obtain rfl := consistent.queued.head_eq
  have occupied : (rel.rq.node rel.rq.head).isEmpty = false :=
    (consistent.queued.flags _ consistent.queued.head_lt).mpr List.mem_cons_self
  have notAgain := (List.nodup_cons.mp consistent.queued.nodup).1
  -- the table after the hash entry of an undeleted head is gone
  obtain ⟨rel', equation, consistent', dead, same⟩ : ∃ rel',
      (if (rel.rq.node rel.rq.head).isDelete then rel
        else DeltaCFS.relDeleteSrc (rel.rq.node rel.rq.head).src rel) = rel' ∧
      rel'.Consistent (rel.rq.head :: fifo) ∧ (rel'.rq.node rel.rq.head).isDelete = true ∧
      rel'.rq.head = rel.rq.head ∧ ∀ other ≠ rel.rq.head, rel'.rq.node other = rel.rq.node other := by
    cases alive : (rel.rq.node rel.rq.head).isDelete with
    | true => exact ⟨rel, by simp, consistent, alive, rfl, fun _ _ => rfl⟩
    | false =>
      have entry := (consistent.entries ⟨(rel.rq.node rel.rq.head).src, rel.rq.head⟩).mpr
        ⟨List.mem_cons_self, alive, rfl⟩
      have found : relFind (rel.rq.node rel.rq.head).src rel = some ⟨_, rel.rq.head⟩ :=
        consistent.relFind_eq_some.mpr ⟨entry, rfl⟩
      refine ⟨_, by simp [DeltaCFS.relDeleteSrc, found], consistent.relDelete entry, ?_, rfl, ?_⟩
      · simp [DeltaCFS.relDelete, RingBuffer.modify_node]
      · intro other apart
        simp [DeltaCFS.relDelete, RingBuffer.modify_node, apart]
  obtain ⟨head, others⟩ := same
  have kept : ∀ other ≠ rel.rq.head,
      (rel'.rq.pop queueSize { rel'.rq.node rel.rq.head with isEmpty := true }).node other =
        rel.rq.node other := by
    intro other apart
    simp [RingBuffer.pop, head, apart, others other apart]
  simp only [DeltaCFS.relDequeue, occupied, Bool.false_eq_true, ↓reduceIte, equation]
  refine ⟨⟨consistent'.queued.pop rfl, consistent'.keys, ?_⟩, ?_⟩
  · intro rh
    rw [consistent'.entries]
    constructor
    · rintro ⟨inFifo, alive, source⟩
      rcases List.mem_cons.mp inFifo with here | inFifo
      · rw [here, dead] at alive
        cases alive
      · have apart : rh.loc ≠ rel.rq.head := fun same => notAgain (same ▸ inFifo)
        rw [others _ apart] at alive source
        exact ⟨inFifo, by rw [kept _ apart, alive], by rw [kept _ apart, source]⟩
    · rintro ⟨inFifo, alive, source⟩
      have apart : rh.loc ≠ rel.rq.head := fun same => notAgain (same ▸ inFifo)
      rw [kept _ apart] at alive source
      exact ⟨List.mem_cons_of_mem _ inFifo, by rw [others _ apart, alive], by rw [others _ apart, source]⟩
  · intro other member
    exact kept other fun same => notAgain (same ▸ member)

theorem relDequeue_bindings {slot : ℕ} (consistent : rel.Consistent (slot :: fifo)) :
    (DeltaCFS.relDequeue rel).bindings fifo = (rel.bindings (slot :: fifo)).expire :=
  List.map_congr_left fun other member =>
    congrArg RelNode.binding (consistent.relDequeue_cons.2 other member)

/-- Expiry takes away the entry that names the expiring slot and no other. -/
theorem relFind_relDequeue (consistent : rel.Consistent fifo) (src : Path) (rh : RelHash) :
    relFind src (DeltaCFS.relDequeue rel) = some rh ↔ relFind src rel = some rh ∧ rh.loc ≠ rel.rq.head := by
  cases fifo with
  | nil =>
    rw [consistent.relDequeue_nil, consistent.relFind_eq_some, consistent.entries]
    simp
  | cons slot fifo =>
    obtain ⟨consistent', kept⟩ := consistent.relDequeue_cons
    have notAgain := (List.nodup_cons.mp consistent.queued.nodup).1
    rw [consistent.relFind_eq_some, consistent'.relFind_eq_some, consistent.entries, consistent'.entries,
      consistent.queued.head_eq, List.mem_cons]
    constructor
    · rintro ⟨⟨inFifo, node⟩, source⟩
      rw [kept _ inFifo] at node
      exact ⟨⟨⟨.inr inFifo, node⟩, source⟩, fun same => notAgain (same ▸ inFifo)⟩
    · rintro ⟨⟨⟨inFifo, node⟩, source⟩, apart⟩
      have inFifo := inFifo.resolve_left apart
      rw [← kept _ inFifo] at node
      exact ⟨⟨inFifo, node⟩, source⟩

/-- `rel_delete_dst` takes away the entries of relations with that target and no other. -/
theorem relFind_relDeleteDst (consistent : rel.Consistent fifo) (dst src : Path) (rh : RelHash) :
    relFind src (DeltaCFS.relDeleteDst dst rel) = some rh ↔
      relFind src rel = some rh ∧ (rel.rq.node rh.loc).dst ≠ dst := by
  obtain ⟨consistent', killed⟩ := consistent.relDeleteDst dst
  simp only [bindings, ExpiringMap.kill, List.map_map, List.map_inj_left, Function.comp_apply,
    RelNode.binding, Binding.mk.injEq] at killed
  rw [consistent.relFind_eq_some, consistent'.relFind_eq_some, consistent.entries, consistent'.entries]
  constructor
  · rintro ⟨⟨inFifo, alive, same⟩, source⟩
    obtain ⟨key, -, live⟩ := killed rh.loc inFifo
    rw [alive] at live
    have : (rel.rq.node rh.loc).isDelete = false ∧ (rel.rq.node rh.loc).dst ≠ dst := by simpa using live
    exact ⟨⟨⟨inFifo, this.1, key ▸ same⟩, source⟩, this.2⟩
  · rintro ⟨⟨⟨inFifo, alive, same⟩, source⟩, apart⟩
    obtain ⟨key, -, live⟩ := killed rh.loc inFifo
    refine ⟨⟨inFifo, ?_, key ▸ same⟩, source⟩
    simpa [alive, apart] using live

/-- After `rel_delete_src` no entry of `src` is left. -/
theorem relDeleteSrc_absent (consistent : rel.Consistent fifo) (src : Path) {rh : RelHash}
    (member : rh ∈ (DeltaCFS.relDeleteSrc src rel).rhs) : rh.src ≠ src := by
  obtain ⟨inFifo, alive, source⟩ := ((consistent.relDeleteSrc src).entries rh).mp member
  intro same
  have removed := consistent.relDeleteSrc_bindings src
  simp only [bindings, ExpiringMap.remove, ExpiringMap.kill, List.map_map, List.map_inj_left] at removed
  have here := removed rh.loc inFifo
  simp only [RelNode.binding, Function.comp_apply, Binding.mk.injEq] at here
  rw [alive, ← here.1, source] at here
  simp [same] at here

/-- The steps of `rel_enqueue`: its deletion does not touch the advanced tail. -/
private theorem relEnqueue_eq (src dst : Path) (localtime : UInt64)
    (empty : (rel.rq.node rel.rq.tail).isEmpty = true) :
    DeltaCFS.relEnqueue src dst localtime rel =
      .ok ⟨(DeltaCFS.relDeleteSrc src rel).rq.push queueSize ⟨src, dst, false, false, localtime⟩,
        ⟨src, rel.rq.tail⟩ :: (DeltaCFS.relDeleteSrc src rel).rhs⟩ := by
  simp only [DeltaCFS.relEnqueue, empty, ↓reduceIte, DeltaCFS.relDeleteSrc]
  cases found : relFind src rel with
  | none =>
    have found' : relFind src ⟨{ rel.rq with tail := (rel.rq.tail + 1) % queueSize }, rel.rhs⟩ = none := found
    rw [found']
    rfl
  | some rh =>
    have found' : relFind src ⟨{ rel.rq with tail := (rel.rq.tail + 1) % queueSize }, rel.rhs⟩ = some rh :=
      found
    rw [found']
    rfl

theorem relDeleteSrc_tail (src : Path) (rel : RelTable) :
    (DeltaCFS.relDeleteSrc src rel).rq.tail = rel.rq.tail := by
  rw [DeltaCFS.relDeleteSrc]
  split <;> rfl

/-- With room in the ring a relation is entered and replaces the one of its `src`. -/
theorem relEnqueue (consistent : rel.Consistent fifo) (room : fifo.length < queueSize) (src dst : Path)
    (localtime : UInt64) :
    ∃ rel', relEnqueue src dst localtime rel = .ok rel' ∧ rel'.Consistent (fifo ++ [rel.rq.tail]) ∧
      rel'.bindings (fifo ++ [rel.rq.tail]) = (rel.bindings fifo).bind src (dst, localtime) := by
  have empty : (rel.rq.node rel.rq.tail).isEmpty = true := consistent.queued.isEmpty_tail.mpr room
  have outside : rel.rq.tail ∉ fifo := by
    rw [consistent.queued.tail_mem_iff]
    omega
  have consistent' := consistent.relDeleteSrc src
  have tail := relDeleteSrc_tail src rel
  have kept : ∀ slot ∈ fifo, ((DeltaCFS.relDeleteSrc src rel).rq.push queueSize
      ⟨src, dst, false, false, localtime⟩).node slot = (DeltaCFS.relDeleteSrc src rel).rq.node slot := by
    intro slot member
    have apart : slot ≠ rel.rq.tail := fun same => outside (same ▸ member)
    simp [RingBuffer.push, tail, apart]
  have fresh : ((DeltaCFS.relDeleteSrc src rel).rq.push queueSize
      ⟨src, dst, false, false, localtime⟩).node rel.rq.tail = ⟨src, dst, false, false, localtime⟩ := by
    simp [RingBuffer.push, tail]
  refine ⟨_, relEnqueue_eq src dst localtime empty, ⟨?_, ?_, ?_⟩, ?_⟩
  · exact tail ▸ consistent'.queued.push room rfl
  · rw [List.map_cons, List.nodup_cons]
    refine ⟨?_, consistent'.keys⟩
    intro member
    obtain ⟨rh, entry, same⟩ := List.mem_map.mp member
    exact consistent.relDeleteSrc_absent src entry same
  · intro rh
    simp only [List.mem_cons, List.mem_append, List.not_mem_nil, or_false]
    constructor
    · rintro (rfl | entry)
      · exact ⟨.inr rfl, by rw [fresh], by rw [fresh]⟩
      · obtain ⟨inFifo, alive, source⟩ := (consistent'.entries rh).mp entry
        exact ⟨.inl inFifo, by rw [kept _ inFifo, alive], by rw [kept _ inFifo, source]⟩
    · rintro ⟨inFifo | here, alive, source⟩
      · rw [kept _ inFifo] at alive source
        exact .inr ((consistent'.entries rh).mpr ⟨inFifo, alive, source⟩)
      · rw [here, fresh] at source
        left
        cases rh
        simp_all
  · have old := consistent.relDeleteSrc_bindings src
    simp only [bindings, List.map_append, List.map_singleton, fresh, ExpiringMap.bind] at old ⊢
    rw [← old]
    congr 1
    exact List.map_congr_left fun slot member => congrArg RelNode.binding (kept slot member)

/-- A completed `rel_enqueue` found room. -/
theorem of_relEnqueue {rel' : RelTable} {src dst : Path} {localtime : UInt64} (consistent : rel.Consistent fifo)
    (entered : DeltaCFS.relEnqueue src dst localtime rel = .ok rel') :
    fifo.length < queueSize ∧ rel'.Consistent (fifo ++ [rel.rq.tail]) ∧ rel'.rq.head = rel.rq.head := by
  have empty : (rel.rq.node rel.rq.tail).isEmpty = true := by
    by_contra occupied
    simp [DeltaCFS.relEnqueue, occupied] at entered
  have room := consistent.queued.isEmpty_tail.mp empty
  obtain ⟨rel'', entered', consistent', -⟩ := consistent.relEnqueue room src dst localtime
  obtain rfl : rel'' = rel' := Except.ok.inj (entered'.symm.trans entered)
  refine ⟨room, consistent', ?_⟩
  rw [relEnqueue_eq src dst localtime empty] at entered
  cases entered
  rw [DeltaCFS.relDeleteSrc]
  split <;> rfl

/-- `rel_find` returns an entry exactly for the bound keys, and its slot holds the bound value. -/
theorem relFind_iff (consistent : rel.Consistent fifo) (src dst : Path) (time : UInt64) :
    (rel.bindings fifo).find src = some (dst, time) ↔
      ∃ loc, relFind src rel = some ⟨src, loc⟩ ∧ rel.rq.node loc = ⟨src, dst, false, false, time⟩ := by
  have occupied : ∀ slot ∈ fifo, (rel.rq.node slot).isEmpty = false := fun slot member =>
    (consistent.queued.flags slot (consistent.queued.slot_lt member)).mpr member
  simp only [ExpiringMap.find, bindings, List.find?_map, Option.map_map, Option.map_eq_some_iff]
  constructor
  · rintro ⟨slot, found, value⟩
    have member := List.mem_of_find?_eq_some found
    have live := List.find?_some found
    simp only [RelNode.binding, Function.comp_apply, Bool.and_eq_true, Bool.not_eq_true', decide_eq_true_eq,
      Prod.mk.injEq] at live value
    refine ⟨slot, consistent.relFind_eq_some.mpr
      ⟨(consistent.entries ⟨src, slot⟩).mpr ⟨member, live⟩, rfl⟩, ?_⟩
    have flag := occupied slot member
    cases node : rel.rq.node slot
    simp_all
  · rintro ⟨loc, found, node⟩
    obtain ⟨entry, -⟩ := consistent.relFind_eq_some.mp found
    obtain ⟨inFifo, alive, source⟩ := (consistent.entries _).mp entry
    have hit : ((fun binding : Binding Path (Path × UInt64) => binding.live && decide (binding.key = src)) ∘
        fun slot => (rel.rq.node slot).binding) loc = true := by
      simp [RelNode.binding, node]
    cases first : List.find? ((fun binding : Binding Path (Path × UInt64) =>
        binding.live && decide (binding.key = src)) ∘ fun slot => (rel.rq.node slot).binding) fifo with
    | none => exact absurd hit (List.find?_eq_none.mp first loc inFifo)
    | some slot =>
      have live := List.find?_some first
      simp only [RelNode.binding, Function.comp_apply, Bool.and_eq_true, Bool.not_eq_true',
        decide_eq_true_eq] at live
      obtain rfl : slot = loc := consistent.slot_unique (List.mem_of_find?_eq_some first) inFifo live.1 alive
        (live.2.trans source.symm)
      exact ⟨slot, rfl, by simp [RelNode.binding, node]⟩

end RelTable.Consistent

/-! ## Runs -/

/-- The calls the client makes on its relation table. -/
inductive RelCall where
  | enqueue (src dst : Path) (localtime : UInt64)
  | dequeue
  | deleteSrc (src : Path)
  | deleteDst (dst : Path)
  | deleteFound (src : Path)
deriving DecidableEq

def RelCall.run (call : RelCall) (rel : RelTable) : Except Stop RelTable :=
  match call with
  | .enqueue src dst localtime => relEnqueue src dst localtime rel
  | .dequeue => .ok (relDequeue rel)
  | .deleteSrc src => .ok (relDeleteSrc src rel)
  | .deleteDst dst => .ok (relDeleteDst dst rel)
  | .deleteFound src => .ok (relDeleteSrc src rel)

/-- What a call means for the expiring map. -/
def RelCall.spec (map : ExpiringMap Path (Path × UInt64)) : RelCall → ExpiringMap Path (Path × UInt64)
  | .enqueue src dst localtime => map.bind src (dst, localtime)
  | .dequeue => map.expire
  | .deleteSrc src => map.remove src
  | .deleteDst dst => map.kill fun _ value => decide (value.1 = dst)
  | .deleteFound src => map.remove src

/-- The map after a sequence of calls on an empty table. -/
def specAfter (calls : List RelCall) : ExpiringMap Path (Path × UInt64) := calls.foldl RelCall.spec []

/-- No call of the sequence enters a relation into a full ring. -/
def RoomThroughout (calls : List RelCall) : Prop :=
  ∀ before call after, calls = before ++ call :: after → (specAfter (before ++ [call])).length ≤ queueSize

theorem specAfter_length_le (calls : List RelCall) : (specAfter calls).length ≤ calls.length := by
  induction calls using List.reverseRecOn with
  | nil => rfl
  | append_singleton calls call ih =>
    rw [specAfter, List.foldl_append, ← specAfter, List.foldl_cons, List.foldl_nil, List.length_append,
      List.length_singleton]
    cases call <;>
      simp [RelCall.spec, ExpiringMap.bind, ExpiringMap.remove, ExpiringMap.expire] <;> omega

/-- A short run cannot fill the ring. -/
theorem roomThroughout_of_length_le {calls : List RelCall} (short : calls.length ≤ queueSize) :
    RoomThroughout calls := by
  rintro before call after rfl
  have := specAfter_length_le (before ++ [call])
  simp only [List.length_append, List.length_cons, List.length_nil] at this short ⊢
  omega

theorem RelCall.run_refines {rel : RelTable} {fifo : List ℕ} (consistent : rel.Consistent fifo)
    (call : RelCall) (room : (call.spec (rel.bindings fifo)).length ≤ queueSize) :
    ∃ rel' fifo', call.run rel = .ok rel' ∧ rel'.Consistent fifo' ∧
      rel'.bindings fifo' = call.spec (rel.bindings fifo) := by
  cases call with
  | enqueue src dst localtime =>
    have : fifo.length < queueSize := by
      simpa [RelCall.spec, ExpiringMap.bind, ExpiringMap.remove, RelTable.bindings, Nat.succ_le_iff] using room
    obtain ⟨rel', ran, consistent', spec⟩ := consistent.relEnqueue this src dst localtime
    exact ⟨rel', _, ran, consistent', spec⟩
  | dequeue =>
    cases fifo with
    | nil => exact ⟨rel, [], by rw [RelCall.run, consistent.relDequeue_nil], consistent, rfl⟩
    | cons slot fifo =>
      exact ⟨_, fifo, rfl, consistent.relDequeue_cons.1, consistent.relDequeue_bindings⟩
  | deleteSrc src => exact ⟨_, fifo, rfl, consistent.relDeleteSrc src, consistent.relDeleteSrc_bindings src⟩
  | deleteDst dst => exact ⟨_, fifo, rfl, consistent.relDeleteDst dst⟩
  | deleteFound src => exact ⟨_, fifo, rfl, consistent.relDeleteSrc src, consistent.relDeleteSrc_bindings src⟩

/-- Every run within the capacity completes and leaves a consistent table for the map. -/
theorem run_refines (garbage : ℕ → RelNode) (calls : List RelCall) (room : RoomThroughout calls) :
    ∃ rel fifo, calls.foldlM (fun rel call => RelCall.run call rel) (RelTable.initial garbage) = .ok rel ∧
      rel.Consistent fifo ∧ rel.bindings fifo = specAfter calls := by
  induction calls using List.reverseRecOn with
  | nil => exact ⟨_, [], rfl, RelTable.Consistent.initial garbage, rfl⟩
  | append_singleton calls call ih =>
    have room' : RoomThroughout calls := by
      intro before other after split
      exact room before other (after ++ [call]) (by simp [split])
    obtain ⟨rel, fifo, ran, consistent, spec⟩ := ih room'
    have fits := room calls call [] rfl
    rw [specAfter, List.foldl_append, List.foldl_cons, List.foldl_nil, ← specAfter, ← spec] at fits
    obtain ⟨rel', fifo', ran', consistent', spec'⟩ := call.run_refines consistent fits
    refine ⟨rel', fifo', ?_, consistent', ?_⟩
    · rw [List.foldlM_append, ran]
      simp [ran', bind, Except.bind, pure, Except.pure]
    · rw [spec', spec, specAfter, specAfter, List.foldl_append, List.foldl_cons, List.foldl_nil]

/-- The ring and hash of relations refine an expiring map: lookups find exactly the live bindings and
a slot holding their data, expiry of a node removes no other entry, and deletion by target removes
exactly the relations with that target. -/
theorem relation_table_refines_expiring_map (garbage : ℕ → RelNode) (calls : List RelCall)
    (room : RoomThroughout calls) :
    ∃ rel, calls.foldlM (fun rel call => RelCall.run call rel) (RelTable.initial garbage) = .ok rel ∧
      (∀ src dst time, (specAfter calls).find src = some (dst, time) ↔
        ∃ loc, relFind src rel = some ⟨src, loc⟩ ∧ rel.rq.node loc = ⟨src, dst, false, false, time⟩) ∧
      (∀ src, (specAfter calls).find src = none ↔ relFind src rel = none) ∧
      (∀ src rh, relFind src (relDequeue rel) = some rh ↔ relFind src rel = some rh ∧ rh.loc ≠ rel.rq.head) ∧
      (∀ dst src rh, relFind src (relDeleteDst dst rel) = some rh ↔
        relFind src rel = some rh ∧ (rel.rq.node rh.loc).dst ≠ dst) := by
  obtain ⟨rel, fifo, ran, consistent, spec⟩ := run_refines garbage calls room
  have found := consistent.relFind_iff
  rw [spec] at found
  refine ⟨rel, ran, found, ?_, consistent.relFind_relDequeue, consistent.relFind_relDeleteDst⟩
  intro src
  constructor
  · intro unbound
    cases lookup : relFind src rel with
    | none => rfl
    | some rh =>
      obtain ⟨entry, rfl⟩ := consistent.relFind_eq_some.mp lookup
      obtain ⟨inFifo, alive, source⟩ := (consistent.entries rh).mp entry
      have occupied := (consistent.queued.flags _ (consistent.queued.slot_lt inFifo)).mpr inFifo
      have bound := (found rh.src (rel.rq.node rh.loc).dst (rel.rq.node rh.loc).time).mpr
        ⟨rh.loc, lookup, by cases node : rel.rq.node rh.loc; simp_all⟩
      rw [unbound] at bound
      cases bound
  · intro absent
    cases bound : (specAfter calls).find src with
    | none => rfl
    | some value =>
      obtain ⟨loc, lookup, -⟩ := (found src value.1 value.2).mp bound
      rw [absent] at lookup
      cases lookup

/-- The second relation of a path survives the expiry of the first. -/
theorem relation_table_refines_expiring_map_replaced :
    ∃ rel loc, [RelCall.enqueue [97] [98] 2, .enqueue [97] [99] 3, .dequeue].foldlM
        (fun rel call => RelCall.run call rel) (RelTable.initial default) = .ok rel ∧
      relFind [97] rel = some ⟨[97], loc⟩ ∧ rel.rq.node loc = ⟨[97], [99], false, false, 3⟩ := by
  obtain ⟨rel, ran, found, -⟩ := relation_table_refines_expiring_map default
    [.enqueue [97] [98] 2, .enqueue [97] [99] 3, .dequeue]
    (roomThroughout_of_length_le (by simp [queueSize]))
  obtain ⟨loc, lookup, node⟩ := (found [97] [99] 3).mp (by decide)
  exact ⟨rel, loc, ran, lookup, node⟩

end DeltaCFS
