import DeltaCFS.Proofs.RelationTable

/-! # The relations of a consistent table

Which relations there are after each operation on the table: an operation takes relations away, and
entering one replaces the relation of its source.
-/

namespace DeltaCFS

variable {rel rel' : RelTable} {src dst : Path} {time : UInt64}

/-- A lookup of `src` finds `dst` and its version. -/
def RelTable.Related (rel : RelTable) (src dst : Path) (time : UInt64) : Prop :=
  ∃ rh, relFind src rel = some rh ∧ (rel.rq.node rh.loc).dst = dst ∧ (rel.rq.node rh.loc).time = time

/-- The ring is a queue and the hash lists its live nodes. -/
def RelTable.Sane (rel : RelTable) : Prop := ∃ fifo, rel.Consistent fifo

theorem RelTable.related_of_relFind {rh : RelHash} (found : relFind src rel = some rh) :
    rel.Related src (rel.rq.node rh.loc).dst (rel.rq.node rh.loc).time := ⟨rh, found, rfl, rfl⟩

theorem RelTable.Related.unique {dst' : Path} {time' : UInt64} (first : rel.Related src dst time)
    (second : rel.Related src dst' time') : dst = dst' ∧ time = time' := by
  obtain ⟨rh, found, rfl, rfl⟩ := first
  obtain ⟨rh', found', rfl, rfl⟩ := second
  obtain rfl := Option.some.inj (found.symm.trans found')
  exact ⟨rfl, rfl⟩

namespace RelTable.Sane

theorem initial (garbage : ℕ → RelNode) : (RelTable.initial garbage).Sane := ⟨[], .initial garbage⟩

theorem not_related_initial (garbage : ℕ → RelNode) : ¬ (RelTable.initial garbage).Related src dst time := by
  rintro ⟨rh, found, -⟩
  simp [RelTable.initial, relFind] at found

theorem relDelete (sane : rel.Sane) {rh : RelHash} (member : rh ∈ rel.rhs) : (relDelete rh rel).Sane ∧
    ∀ {src dst time}, (DeltaCFS.relDelete rh rel).Related src dst time → rel.Related src dst time ∧ src ≠ rh.src := by
  obtain ⟨fifo, consistent⟩ := sane
  have deleted := consistent.relDelete member
  refine ⟨⟨fifo, deleted⟩, ?_⟩
  rintro src dst time ⟨other, found, rfl, rfl⟩
  obtain ⟨inside, named⟩ := deleted.relFind_eq_some.mp found
  have unique : rel.rhs.Nodup := consistent.keys.of_map _
  obtain ⟨different, kept⟩ := unique.mem_erase_iff.mp inside
  have apart : other.loc ≠ rh.loc := by
    intro same
    have alive := ((deleted.entries other).mp inside).2.1
    simp [same, DeltaCFS.relDelete, RingBuffer.modify_node] at alive
  have node : (DeltaCFS.relDelete rh rel).rq.node other.loc = rel.rq.node other.loc := by
    simp [DeltaCFS.relDelete, RingBuffer.modify_node, apart]
  rw [node]
  refine ⟨⟨other, consistent.relFind_eq_some.mpr ⟨kept, named⟩, rfl, rfl⟩, fun same => different ?_⟩
  exact List.inj_on_of_nodup_map consistent.keys kept member (named.trans same)

theorem relDeleteSrc (sane : rel.Sane) (removed : Path) : (relDeleteSrc removed rel).Sane ∧
    ∀ {src dst time}, (DeltaCFS.relDeleteSrc removed rel).Related src dst time →
      rel.Related src dst time ∧ src ≠ removed := by
  rw [DeltaCFS.relDeleteSrc]
  split
  · next rh found =>
    obtain ⟨fifo, consistent⟩ := sane
    obtain ⟨member, rfl⟩ := consistent.relFind_eq_some.mp found
    exact relDelete ⟨fifo, consistent⟩ member
  · next absent =>
    refine ⟨sane, fun {src dst time} related => ⟨related, ?_⟩⟩
    rintro rfl
    obtain ⟨rh, found, -⟩ := related
    exact absurd (absent.symm.trans found) (by simp)

/-- `xmp_rename` deletes the relation of the target, if there is one. -/
theorem replaced (sane : rel.Sane) (target : Path) (same : rel' = rel) :
    RelTable.Sane (match relFind target rel with
      | some rh => DeltaCFS.relDelete rh rel'
      | none => rel') ∧
    ∀ {src dst time}, RelTable.Related (match relFind target rel with
      | some rh => DeltaCFS.relDelete rh rel'
      | none => rel') src dst time → rel.Related src dst time ∧ src ≠ target := by
  subst same
  exact relDeleteSrc sane target

theorem relDeleteDst (sane : rel.Sane) (removed : Path) : (relDeleteDst removed rel).Sane ∧
    ∀ {src dst time}, (DeltaCFS.relDeleteDst removed rel).Related src dst time →
      rel.Related src dst time ∧ dst ≠ removed := by
  obtain ⟨fifo, consistent⟩ := sane
  obtain ⟨deleted, killed⟩ := consistent.relDeleteDst removed
  refine ⟨⟨fifo, deleted⟩, ?_⟩
  rintro src dst time ⟨rh, found, rfl, rfl⟩
  obtain ⟨found', apart⟩ := (consistent.relFind_relDeleteDst removed src rh).mp found
  have inFifo := ((deleted.entries rh).mp (deleted.relFind_eq_some.mp found).1).1
  simp only [RelTable.bindings, ExpiringMap.kill, List.map_map, List.map_inj_left, Function.comp_apply,
    RelNode.binding, Binding.mk.injEq, Prod.mk.injEq] at killed
  obtain ⟨-, ⟨target, version⟩, -⟩ := killed rh.loc inFifo
  rw [target, version]
  exact ⟨⟨rh, found', rfl, rfl⟩, apart⟩

theorem relDequeue (sane : rel.Sane) : (relDequeue rel).Sane ∧
    ∀ {src dst time}, (DeltaCFS.relDequeue rel).Related src dst time → rel.Related src dst time := by
  obtain ⟨fifo, consistent⟩ := sane
  cases fifo with
  | nil =>
    rw [consistent.relDequeue_nil]
    exact ⟨⟨[], consistent⟩, id⟩
  | cons slot fifo =>
    obtain ⟨dequeued, kept⟩ := consistent.relDequeue_cons
    refine ⟨⟨fifo, dequeued⟩, ?_⟩
    rintro src dst time ⟨rh, found, rfl, rfl⟩
    have inFifo := ((dequeued.entries rh).mp (dequeued.relFind_eq_some.mp found).1).1
    rw [kept rh.loc inFifo]
    exact ⟨rh, ((consistent.relFind_relDequeue src rh).mp found).1, rfl, rfl⟩

/-- A new relation replaces the one of its source. -/
theorem relEnqueue {source target : Path} {localtime : UInt64} (sane : rel.Sane)
    (entered : relEnqueue source target localtime rel = .ok rel') : rel'.Sane ∧
      ∀ {src dst time}, rel'.Related src dst time →
        (src = source ∧ dst = target ∧ time = localtime) ∨ src ≠ source ∧ rel.Related src dst time := by
  obtain ⟨fifo, consistent⟩ := sane
  obtain ⟨room, consistent', -⟩ := consistent.of_relEnqueue entered
  obtain ⟨rel'', entered', -, bound⟩ := consistent.relEnqueue room source target localtime
  obtain rfl := Except.ok.inj (entered'.symm.trans entered)
  refine ⟨⟨_, consistent'⟩, ?_⟩
  rintro src dst time ⟨rh, found, rfl, rfl⟩
  obtain ⟨member, rfl⟩ := consistent'.relFind_eq_some.mp found
  obtain ⟨inFifo, alive, named⟩ := (consistent'.entries rh).mp member
  have occupied := (consistent'.queued.flags rh.loc (consistent'.queued.slot_lt inFifo)).mpr inFifo
  have node : rel''.rq.node rh.loc =
      ⟨rh.src, (rel''.rq.node rh.loc).dst, false, false, (rel''.rq.node rh.loc).time⟩ := by
    cases here : rel''.rq.node rh.loc
    simp_all
  have value := (consistent'.relFind_iff rh.src (rel''.rq.node rh.loc).dst (rel''.rq.node rh.loc).time).mpr
    ⟨rh.loc, found, node⟩
  rw [bound, ExpiringMap.find_bind] at value
  split at value
  · next same =>
    obtain ⟨target', version⟩ := Prod.mk.inj (Option.some.inj value)
    exact .inl ⟨same, target'.symm, version.symm⟩
  · next different =>
    obtain ⟨loc, found', node'⟩ := (consistent.relFind_iff ..).mp value
    exact .inr ⟨different, ⟨rh.src, loc⟩, found', by rw [node'], by rw [node']⟩

end RelTable.Sane

end DeltaCFS
