import DeltaCFS.Model.SyncQueue

/-! # The hash of pending writes

The entries of the hash and the cache in front of it, as long as every entry refers to the pending
node of its path. Then a lookup is a lookup in the hash alone, and it finds the one entry there is.
-/

namespace DeltaCFS

/-! ## Lookups -/

section Lookup

variable {queue : SyncQueue} {path : Path} {sh : SyncHash}

/-- A lookup that finds something puts it into the cache. -/
theorem syncFind_cached (hit : (syncFind path queue).1 = some sh) :
    (syncFind path queue).2.hashCacheResult = some sh ∧ (syncFind path queue).2.hashCachePath = path := by
  simp only [syncFind] at hit ⊢
  split
  · next cached =>
    rw [if_pos cached] at hit
    simp only [Bool.and_eq_true, decide_eq_true_eq] at cached
    exact ⟨hit, cached.2⟩
  · next miss =>
    rw [if_neg miss] at hit
    split
    · next other found =>
      rw [found] at hit
      exact ⟨hit, rfl⟩
    · next absent =>
      rw [absent] at hit
      exact absurd hit (by simp)

theorem syncFind_of_cached (result : queue.hashCacheResult = some sh)
    (named : queue.hashCachePath = path) : (syncFind path queue).1 = some sh := by
  simp [syncFind, result, named]

/-- A lookup does not touch the nodes. -/
theorem syncFind_sq (path : Path) (queue : SyncQueue) : (syncFind path queue).2.sq = queue.sq := by
  simp only [syncFind]
  split
  · rfl
  · split <;> rfl

/-- A lookup that finds nothing leaves the queue as it is. -/
theorem syncFind_eq_self (absent : (syncFind path queue).1 = none) :
    (syncFind path queue).2 = queue := by
  simp only [syncFind] at absent ⊢
  split
  · rfl
  · next miss =>
    rw [if_neg miss] at absent
    split
    · next sh found => simp [found] at absent
    · rfl

end Lookup

/-! ## Entries -/

/-- An unpacked, undeleted NEWFILE or WRITE. -/
def SyncNode.Pending (sn : SyncNode) : Prop := sn.op.isBuffered = true ∧ sn.isPacked = false ∧ sn.isDelete = false

instance (sn : SyncNode) : Decidable sn.Pending := inferInstanceAs (Decidable (_ ∧ _ ∧ _))

theorem SyncNode.Pending.op_cases {sn : SyncNode} (pending : sn.Pending) : sn.op = .newfile ∨ sn.op = .write := by
  simpa [Op.isBuffered] using pending.1

theorem SyncNode.not_pending_of_packed {sn : SyncNode} (packed : sn.isPacked = true) : ¬ sn.Pending :=
  fun pending => by simp [pending.2.1] at packed

theorem SyncNode.not_pending_of_deleted {sn : SyncNode} (deleted : sn.isDelete = true) : ¬ sn.Pending :=
  fun pending => by simp [pending.2.2] at deleted

/-- The entry refers to the pending node of its path. -/
structure Refers (queue : SyncQueue) (sh : SyncHash) : Prop where
  bound : sh.loc < queueSize
  occupied : (queue.sq.node sh.loc).isEmpty = false
  pending : (queue.sq.node sh.loc).Pending
  src_eq : (queue.sq.node sh.loc).src = sh.path

/-- The hash has one entry for a path, every entry refers to the pending node of its path, and a
cached result is the entry of the cached path. -/
structure Tidy (queue : SyncQueue) : Prop where
  nodup : (queue.shs.map SyncHash.path).Nodup
  refers : ∀ sh ∈ queue.shs, Refers queue sh
  cached : ∀ sh, queue.hashCacheResult = some sh → sh ∈ queue.shs ∧ sh.path = queue.hashCachePath

namespace Tidy

variable {queue : SyncQueue} {path : Path} {sh other : SyncHash}

theorem initial (garbage : ℕ → SyncNode) (hashCachePath : Path) : Tidy (SyncQueue.initial garbage hashCachePath) :=
  ⟨by simp [SyncQueue.initial], by simp [SyncQueue.initial], by simp [SyncQueue.initial]⟩

theorem eq_of_path (tidy : Tidy queue) (first : sh ∈ queue.shs) (second : other ∈ queue.shs)
    (same : sh.path = other.path) : sh = other :=
  List.inj_on_of_nodup_map tidy.nodup first second same

theorem eq_of_loc (tidy : Tidy queue) (first : sh ∈ queue.shs) (second : other ∈ queue.shs)
    (same : sh.loc = other.loc) : sh = other := by
  refine tidy.eq_of_path first second ?_
  rw [← (tidy.refers sh first).src_eq, ← (tidy.refers other second).src_eq, same]

theorem nodup_shs (tidy : Tidy queue) : queue.shs.Nodup := tidy.nodup.of_map _

/-- The cache does not matter. -/
theorem congr_cache {queue' : SyncQueue} (tidy : Tidy queue) (ring : queue'.sq = queue.sq)
    (entries : queue'.shs = queue.shs)
    (cached : ∀ sh, queue'.hashCacheResult = some sh → sh ∈ queue.shs ∧ sh.path = queue'.hashCachePath) :
    Tidy queue' where
  nodup := entries ▸ tidy.nodup
  refers := by
    intro sh member
    obtain ⟨bound, occupied, pending, src⟩ := tidy.refers sh (entries ▸ member)
    exact ⟨bound, ring ▸ occupied, ring ▸ pending, ring ▸ src⟩
  cached := by simpa only [entries] using cached

/-- What a lookup does: it finds the entry of the path, if there is one, and changes the cache
alone. -/
theorem syncFind (tidy : Tidy queue) (path : Path) :
    (syncFind path queue).2.sq = queue.sq ∧ (DeltaCFS.syncFind path queue).2.shs = queue.shs ∧
      Tidy (DeltaCFS.syncFind path queue).2 ∧
      match (DeltaCFS.syncFind path queue).1 with
      | some sh => sh ∈ queue.shs ∧ sh.path = path
      | none => ∀ sh ∈ queue.shs, sh.path ≠ path := by
  simp only [DeltaCFS.syncFind]
  split
  · next hit =>
    simp only [Bool.and_eq_true, decide_eq_true_eq] at hit
    obtain ⟨sh, result⟩ := Option.isSome_iff_exists.mp hit.1
    obtain ⟨member, named⟩ := tidy.cached sh result
    rw [result]
    exact ⟨rfl, rfl, tidy, member, named.trans hit.2⟩
  · split
    · next sh found =>
      have member := List.mem_of_find?_eq_some found
      have named : sh.path = path := by simpa using List.find?_some found
      refine ⟨rfl, rfl, tidy.congr_cache rfl rfl ?_, member, named⟩
      intro other result
      obtain rfl := Option.some.inj result
      exact ⟨member, named⟩
    · next found =>
      refine ⟨rfl, rfl, tidy, fun sh member named => ?_⟩
      simpa [named] using List.find?_eq_none.mp found sh member

theorem found (tidy : Tidy queue) (hit : (DeltaCFS.syncFind path queue).1 = some sh) :
    sh ∈ queue.shs ∧ sh.path = path := by
  have spec := (tidy.syncFind path).2.2.2
  rwa [hit] at spec

theorem not_found (tidy : Tidy queue) (miss : (DeltaCFS.syncFind path queue).1 = none) :
    ∀ sh ∈ queue.shs, sh.path ≠ path := by
  have spec := (tidy.syncFind path).2.2.2
  rwa [miss] at spec

/-- Two tidy queues with the same entries give the same answers. -/
theorem syncFind_congr {queue' : SyncQueue} (tidy : Tidy queue) (tidy' : Tidy queue')
    (entries : queue'.shs = queue.shs) (path : Path) :
    (DeltaCFS.syncFind path queue').1 = (DeltaCFS.syncFind path queue).1 := by
  cases here : (DeltaCFS.syncFind path queue).1 with
  | none =>
    cases there : (DeltaCFS.syncFind path queue').1 with
    | none => rfl
    | some other =>
      obtain ⟨member, named⟩ := tidy'.found there
      exact absurd named (tidy.not_found here other (entries ▸ member))
  | some sh =>
    obtain ⟨member, named⟩ := tidy.found here
    cases there : (DeltaCFS.syncFind path queue').1 with
    | none => exact absurd named (tidy'.not_found there sh (entries ▸ member))
    | some other =>
      obtain ⟨member', named'⟩ := tidy'.found there
      rw [tidy.eq_of_path (entries ▸ member') member (named'.trans named.symm)]

theorem mem_erase_iff (tidy : Tidy queue) : other ∈ queue.shs.erase sh ↔ other ∈ queue.shs ∧ other ≠ sh := by
  rw [tidy.nodup_shs.mem_erase_iff, and_comm]

/-- After an entry is removed its node may change. -/
theorem hashDel (tidy : Tidy queue) (member : sh ∈ queue.shs) {queue' : SyncQueue}
    (entries : queue'.shs = queue.shs) (nodes : ∀ slot, slot ≠ sh.loc → queue'.sq.node slot = queue.sq.node slot) :
    Tidy (hashDel sh queue') where
  nodup := by
    simp only [DeltaCFS.hashDel, entries]
    exact tidy.nodup.sublist (List.erase_sublist.map _)
  refers := by
    intro other kept
    simp only [DeltaCFS.hashDel, entries, tidy.mem_erase_iff] at kept
    obtain ⟨bound, occupied, pending, src⟩ := tidy.refers other kept.1
    have elsewhere := nodes other.loc fun same => kept.2 (tidy.eq_of_loc kept.1 member same)
    refine ⟨bound, ?_, ?_, ?_⟩ <;> simpa only [DeltaCFS.hashDel, elsewhere]
  cached := by simp [DeltaCFS.hashDel]

/-- A node without an entry may change. -/
theorem modifyNode {slot : ℕ} (tidy : Tidy queue) (free : ∀ sh ∈ queue.shs, sh.loc ≠ slot)
    (change : SyncNode → SyncNode) : Tidy (queue.modifyNode slot change) := by
  refine ⟨tidy.nodup, fun sh member => ?_, tidy.cached⟩
  obtain ⟨bound, occupied, pending, src⟩ := tidy.refers sh member
  have elsewhere : (queue.modifyNode slot change).sq.node sh.loc = queue.sq.node sh.loc := by
    simp [SyncQueue.modifyNode, RingBuffer.modify_node, free sh member]
  exact ⟨bound, elsewhere ▸ occupied, elsewhere ▸ pending, elsewhere ▸ src⟩

/-- The head leaves the queue once no entry refers to it. -/
theorem syncDequeue (tidy : Tidy queue) (free : ∀ sh ∈ queue.shs, sh.loc ≠ queue.sq.head) :
    Tidy (syncDequeue queue) := by
  simp only [DeltaCFS.syncDequeue]
  split
  · exact tidy
  · refine ⟨tidy.nodup, fun sh member => ?_, tidy.cached⟩
    obtain ⟨bound, occupied, pending, named⟩ := tidy.refers sh member
    have same (node : SyncNode) : (queue.sq.pop queueSize node).node sh.loc = queue.sq.node sh.loc := by
      simp [RingBuffer.pop, free sh member]
    exact ⟨bound, by simp only [same, occupied], by simp only [same, pending], by simp only [same, named]⟩

end Tidy

end DeltaCFS
