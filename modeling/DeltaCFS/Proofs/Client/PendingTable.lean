import DeltaCFS.Proofs.Client.Packing

/-! # The table of pending writes

Every pending node of the queue has its entry in the hash and every entry its pending node. Each
operation on the queue keeps this; while a node is being packed its entry is already gone, so the
invariant carries the slots that are exempt.
-/

namespace DeltaCFS

variable {env : Env} {client after : Client} {queue queue' : SyncQueue} {exempt : Set ℕ} {slot : ℕ}

/-- The hash is tidy, the ring is a queue, and every pending node outside `exempt` has its entry. -/
structure Indexed (exempt : Set ℕ) (queue : SyncQueue) : Prop where
  tidy : Tidy queue
  queued : ∃ fifo, queue.sq.Queued queueSize SyncNode.isEmpty fifo
  complete : ∀ slot < queueSize, slot ∉ exempt → (queue.sq.node slot).isEmpty = false →
    (queue.sq.node slot).Pending → ⟨(queue.sq.node slot).src, slot⟩ ∈ queue.shs

/-- At most one entry for a path, every entry refers to the pending node of its path, and every
pending node has its entry. -/
def PendingTable (queue : SyncQueue) : Prop := Indexed ∅ queue

namespace Indexed

theorem syncFind (indexed : Indexed exempt queue) (path : Path) : Indexed exempt (syncFind path queue).2 := by
  obtain ⟨ring, entries, tidy, -⟩ := indexed.tidy.syncFind path
  refine ⟨tidy, ring ▸ indexed.queued, ?_⟩
  rw [ring, entries]
  exact indexed.complete

/-- An entry that is removed leaves its slot exempt. -/
theorem hashDel {sh : SyncHash} (indexed : Indexed exempt queue) (member : sh ∈ queue.shs) :
    Indexed (insert sh.loc exempt) (hashDel sh queue) where
  tidy := indexed.tidy.hashDel member rfl fun _ _ => rfl
  queued := indexed.queued
  complete := by
    intro slot bound outside occupied pending
    rw [Set.mem_insert_iff, not_or] at outside
    have entry := indexed.complete slot bound outside.2 occupied pending
    exact (indexed.tidy.mem_erase_iff).mpr ⟨entry, fun same => outside.1 (same ▸ rfl)⟩

/-- An exempt node without an entry that is settled is exempt no longer. -/
theorem modifyNode (slot : ℕ) (indexed : Indexed (insert slot exempt) queue) (change : SyncNode → SyncNode)
    (free : ∀ sh ∈ queue.shs, sh.loc ≠ slot)
    (flag : (change (queue.sq.node slot)).isEmpty = (queue.sq.node slot).isEmpty)
    (settled : ¬ (change (queue.sq.node slot)).Pending) :
    Indexed exempt (queue.modifyNode slot change) where
  tidy := indexed.tidy.modifyNode free change
  queued := ⟨_, indexed.queued.choose_spec.modify slot change flag⟩
  complete := by
    intro other bound outside occupied pending
    simp only [SyncQueue.modifyNode, RingBuffer.modify_node] at occupied pending ⊢
    split at pending
    · exact absurd pending settled
    · next different =>
      rw [if_neg different] at occupied ⊢
      exact indexed.complete other bound (by simp [different, outside]) occupied pending

/-- An entry and its node go together. -/
theorem drop {sh : SyncHash} (indexed : Indexed exempt queue) (member : sh ∈ queue.shs)
    (change : SyncNode → SyncNode)
    (flag : (change (queue.sq.node sh.loc)).isEmpty = (queue.sq.node sh.loc).isEmpty)
    (settled : ¬ (change (queue.sq.node sh.loc)).Pending) :
    Indexed exempt ((DeltaCFS.hashDel sh queue).modifyNode sh.loc change) := by
  refine (indexed.hashDel member).modifyNode sh.loc change (fun other kept same => ?_) flag settled
  obtain ⟨also, different⟩ := indexed.tidy.mem_erase_iff.mp kept
  exact different (indexed.tidy.eq_of_loc also member same)

/-- A change that keeps a pending node pending, for the same path, keeps everything. -/
theorem update (slot : ℕ) (indexed : Indexed exempt queue) (change : SyncNode → SyncNode)
    (flag : (change (queue.sq.node slot)).isEmpty = (queue.sq.node slot).isEmpty)
    (same : (change (queue.sq.node slot)).src = (queue.sq.node slot).src)
    (pending : (change (queue.sq.node slot)).Pending ↔ (queue.sq.node slot).Pending) :
    Indexed exempt (queue.modifyNode slot change) := by
  have empty (other : ℕ) :
      ((queue.modifyNode slot change).sq.node other).isEmpty = (queue.sq.node other).isEmpty := by
    simp only [SyncQueue.modifyNode, RingBuffer.modify_node]
    split
    · next equal => rw [flag, equal]
    · rfl
  have src (other : ℕ) : ((queue.modifyNode slot change).sq.node other).src = (queue.sq.node other).src := by
    simp only [SyncQueue.modifyNode, RingBuffer.modify_node]
    split
    · next equal => rw [same, equal]
    · rfl
  have still (other : ℕ) :
      ((queue.modifyNode slot change).sq.node other).Pending ↔ (queue.sq.node other).Pending := by
    simp only [SyncQueue.modifyNode, RingBuffer.modify_node]
    split
    · next equal => rw [pending, equal]
    · rfl
  refine ⟨⟨indexed.tidy.nodup, fun sh member => ?_, indexed.tidy.cached⟩,
    ⟨_, indexed.queued.choose_spec.modify slot change flag⟩, fun other bound outside occupied waits => ?_⟩
  · obtain ⟨bound, occupied, waits, named⟩ := indexed.tidy.refers sh member
    exact ⟨bound, (empty _).trans occupied, (still _).mpr waits, (src _).trans named⟩
  · rw [src]
    exact indexed.complete other bound outside ((empty other).symm.trans occupied) ((still other).mp waits)

theorem syncDelete (indexed : Indexed exempt queue) (path : Path) : Indexed exempt (syncDelete path queue) := by
  simp only [DeltaCFS.syncDelete]
  obtain ⟨ring, entries, tidy, spec⟩ := indexed.tidy.syncFind path
  split
  · next sh found hit =>
    simp only [hit] at spec entries
    have looked := indexed.syncFind path
    rw [hit] at looked
    exact looked.drop (entries ▸ spec.1) _ rfl (SyncNode.not_pending_of_deleted rfl)
  · next found hit =>
    have looked := indexed.syncFind path
    rwa [hit] at looked

theorem deleteWrite_settled (sn : SyncNode) : ¬ sn.deleteWrite.Pending := by
  simp only [SyncNode.deleteWrite]
  split
  · exact SyncNode.not_pending_of_packed rfl
  · exact SyncNode.not_pending_of_deleted rfl

theorem deleteWrite_isEmpty (sn : SyncNode) : sn.deleteWrite.isEmpty = sn.isEmpty := by
  simp only [SyncNode.deleteWrite]
  split <;> rfl

theorem deleteWrite_fields (sn : SyncNode) : sn.deleteWrite.time = sn.time ∧ sn.deleteWrite.baseVer = sn.baseVer ∧
    (sn.deleteWrite.op = .mknod ∨ sn.deleteWrite.op = sn.op) := by
  simp only [SyncNode.deleteWrite]
  split
  · exact ⟨rfl, rfl, .inl rfl⟩
  · exact ⟨rfl, rfl, .inr rfl⟩

theorem syncDeleteWrite (indexed : Indexed exempt queue) (path : Path) :
    Indexed exempt (syncDeleteWrite path queue) := by
  simp only [DeltaCFS.syncDeleteWrite]
  obtain ⟨ring, entries, tidy, spec⟩ := indexed.tidy.syncFind path
  split
  · next sh found hit =>
    simp only [hit] at spec entries
    have looked := indexed.syncFind path
    rw [hit] at looked
    exact looked.drop (entries ▸ spec.1) _ (deleteWrite_isEmpty _) (deleteWrite_settled _)
  · next found hit =>
    have looked := indexed.syncFind path
    rwa [hit] at looked

/-- A new node: a buffered one must be the first of its path. -/
theorem syncEnqueue {op : Op} {src dst : Path} {para : Option (Fin 5 → UInt64)} {bn : Option (List BufInfo)}
    {fileBuf : Option Bytes} {localtime baseVersion : UInt64} (indexed : Indexed exempt queue)
    (first : op.isBuffered = true → ∀ sh ∈ queue.shs, sh.path ≠ src)
    (enqueued : syncEnqueue op src dst para bn fileBuf localtime baseVersion queue = .ok queue') :
    Indexed exempt queue' := by
  obtain ⟨fifo, queued⟩ := indexed.queued
  simp only [DeltaCFS.syncEnqueue] at enqueued
  split at enqueued
  · next free =>
    obtain rfl := Except.ok.inj enqueued
    have room := queued.isEmpty_tail.mp free
    have apart : ∀ sh ∈ queue.shs, sh.loc ≠ queue.sq.tail := by
      intro sh member same
      have occupied := (indexed.tidy.refers sh member).occupied
      rw [same, free] at occupied
      exact absurd occupied (by simp)
    have nodes (slot : ℕ) (different : slot ≠ queue.sq.tail) (node : SyncNode) :
        (queue.sq.push queueSize node).node slot = queue.sq.node slot := by
      simp [RingBuffer.push, different]
    have old : ∀ sh ∈ queue.shs, ∀ node shs, Refers { queue with sq := queue.sq.push queueSize node, shs := shs } sh := by
      intro sh member node shs
      obtain ⟨bound, occupied, pending, named⟩ := indexed.tidy.refers sh member
      have same := nodes sh.loc (apart sh member) node
      exact ⟨bound, by simp only [same, occupied], by simp only [same, pending], by simp only [same, named]⟩
    refine ⟨⟨?_, ?_, ?_⟩, ⟨_, queued.push room rfl⟩, ?_⟩
    · simp only
      split
      · next buffered =>
        rw [List.map_cons, List.nodup_cons]
        refine ⟨fun inside => ?_, indexed.tidy.nodup⟩
        obtain ⟨sh, member, named⟩ := List.mem_map.mp inside
        exact first buffered sh member named
      · exact indexed.tidy.nodup
    · intro sh member
      simp only at member
      split at member
      · next buffered =>
        rcases List.mem_cons.mp member with rfl | member
        · refine ⟨queued.tail_lt, ?_, ?_, ?_⟩ <;>
            simp [RingBuffer.push, SyncNode.enqueued, SyncNode.Pending, buffered]
        · exact old sh member _ _
      · exact old sh member _ _
    · intro sh result
      obtain ⟨member, named⟩ := indexed.tidy.cached sh result
      refine ⟨?_, named⟩
      simp only
      split
      · exact List.mem_cons_of_mem _ member
      · exact member
    · intro slot bound outside occupied pending
      by_cases last : slot = queue.sq.tail
      · subst last
        simp only [RingBuffer.push, Function.update_self, SyncNode.enqueued, SyncNode.Pending] at pending ⊢
        rw [if_pos pending.1]
        exact List.mem_cons_self
      · simp only [nodes slot last] at occupied pending ⊢
        have entry := indexed.complete slot bound outside occupied pending
        split
        · exact List.mem_cons_of_mem _ entry
        · exact entry
  · exact absurd enqueued (by simp)

/-- The head leaves the queue once no entry refers to it. -/
theorem syncDequeue (indexed : Indexed {queue.sq.head} queue)
    (free : ∀ sh ∈ queue.shs, sh.loc ≠ queue.sq.head) : PendingTable (syncDequeue queue) := by
  obtain ⟨fifo, queued⟩ := indexed.queued
  refine ⟨indexed.tidy.syncDequeue free, ?_, ?_⟩
  all_goals simp only [DeltaCFS.syncDequeue]
  all_goals split
  · exact indexed.queued
  · next occupied =>
    cases fifo with
    | nil => exact absurd (queued.isEmpty_head.mpr rfl) occupied
    | cons slot rest => exact ⟨rest, queued.pop rfl⟩
  · next empty =>
    intro slot bound _ occupied pending
    refine indexed.complete slot bound (fun inside => ?_) occupied pending
    rw [Set.mem_singleton_iff.mp inside, empty] at occupied
    exact absurd occupied (by simp)
  · intro other bound _ occupied pending
    by_cases first : other = queue.sq.head
    · subst first
      simp [RingBuffer.pop] at occupied
    · have same (node : SyncNode) : (queue.sq.pop queueSize node).node other = queue.sq.node other := by
        simp [RingBuffer.pop, first]
      simp only [same] at occupied pending ⊢
      exact indexed.complete other bound first occupied pending

/-- Packing the nodes a relation leads to keeps the exempt slots. -/
theorem packRun {touched : List ℕ} (indexed : Indexed exempt client.queue)
    (run : PackRun env client after touched) : Indexed exempt after.queue := by
  induction run with
  | refl => exact indexed
  | find path _ ih => exact ih.syncFind path
  | pack _ member one packed ih =>
    obtain ⟨-, -, -, ⟨sn, queue, flag, -⟩, -⟩ := one.frame
    have settled : sn.isPacked = true := by
      simpa [Client.node, queue, SyncQueue.modifyNode, RingBuffer.modify_node] using packed
    rw [queue]
    exact ih.drop member (fun _ => sn) flag (SyncNode.not_pending_of_packed settled)

end Indexed

/-- Packing the pending node of the path would not find its file. -/
def Stuck (client : Client) (path : Path) : Prop :=
  ∃ sh ∈ client.queue.shs, sh.path = path ∧ (client.node sh.loc).op = .newfile ∧
    relFind path client.rel = none ∧ ¬ client.fs.Regular path

/-- Packing a node whose entry has been removed completes the table, unless the file of the node
could not be opened. -/
theorem Indexed.packedOne {middle : Client} {touched : List ℕ} (indexed : Indexed {slot} client.queue)
    (free : ∀ sh ∈ client.queue.shs, sh.loc ≠ slot) (run : PackRun env client middle touched)
    (one : PackedOne env slot middle after) :
    (PendingTable after.queue ∨ after = middle ∧ (middle.node slot).op = .newfile ∧
        relFind (middle.node slot).src middle.rel = none ∧ middle.fs.read (middle.node slot).src = none) ∧
      Indexed {slot} after.queue ∧ ∀ sh ∈ after.queue.shs, sh ∈ client.queue.shs := by
  have reached := indexed.packRun run
  have entries : ∀ sh ∈ middle.queue.shs, sh ∈ client.queue.shs := fun sh => run.subset indexed.tidy
  obtain ⟨-, -, -, ⟨sn, queue, flag, -⟩, packed | ⟨rfl, unopened⟩⟩ := one.frame
  · have settled : sn.isPacked = true := by
      simpa [Client.node, queue, SyncQueue.modifyNode, RingBuffer.modify_node] using packed
    have complete : PendingTable after.queue := by
      rw [queue]
      exact Indexed.modifyNode slot (by simpa using reached) _ (fun sh member => free sh (entries sh member)) flag
        (SyncNode.not_pending_of_packed settled)
    refine ⟨.inl complete, ⟨complete.tidy, complete.queued, fun other bound _ => ?_⟩, fun sh member => ?_⟩
    · exact complete.complete other bound (by simp)
    · rw [queue] at member
      exact entries sh member
  · exact ⟨.inr ⟨rfl, unopened⟩, reached, entries⟩

/-- `sync_pack_write_path` keeps the table, unless it gets stuck, and leaves no entry of the path. -/
theorem PendingTable.packPath {path : Path} (packed : syncPackWritePath env path client = .ok after)
    (table : PendingTable client.queue) :
    (PendingTable after.queue ∨ Stuck client path ∧ after.fs = client.fs) ∧ Tidy after.queue ∧
      ∀ sh ∈ after.queue.shs, sh.path ≠ path := by
  obtain ⟨ring, entries, -, -⟩ := table.tidy.syncFind path
  rcases syncPackWritePath_run packed table.tidy with
    ⟨none, rfl⟩ | ⟨sh, middle, touched, member, named, packing, run, apart, one⟩
  · have looked := table.syncFind path
    exact ⟨.inl looked, looked.tidy, entries ▸ none⟩
  · have member' : sh ∈ (syncFind path client.queue).2.shs := entries ▸ member
    have looked := table.syncFind path
    have deleted : Indexed {sh.loc} (hashDel sh (syncFind path client.queue).2) := by
      simpa using looked.hashDel member'
    have others : ∀ other ∈ (hashDel sh (syncFind path client.queue).2).shs, other ∈ client.queue.shs ∧ other ≠ sh := by
      intro other kept
      have split := looked.tidy.mem_erase_iff.mp kept
      exact ⟨entries ▸ split.1, split.2⟩
    have free : ∀ other ∈ (hashDel sh (syncFind path client.queue).2).shs, other.loc ≠ sh.loc := by
      intro other kept same
      exact (others other kept).2 (table.tidy.eq_of_loc (others other kept).1 member same)
    obtain ⟨outcome, indexed, subset⟩ := Indexed.packedOne deleted free run one
    refine ⟨?_, indexed.tidy, fun other kept same => ?_⟩
    · rcases outcome with complete | ⟨rfl, newfile, unrelated, missing⟩
      · exact .inl complete
      · -- the file was not opened, so there was no relation to follow and nothing has changed
        have node : after.node sh.loc = client.node sh.loc := by
          rw [run.node_eq deleted.tidy apart]
          simp only [Client.node, hashDel, ring]
        have src : (client.node sh.loc).src = path := (table.tidy.refers sh member).src_eq.trans named
        obtain ⟨-, -, rel, -⟩ := run.frame deleted.tidy
        rw [node, src] at unrelated missing
        rw [node] at newfile
        rw [rel] at unrelated
        have kept : Client.node { client with queue := hashDel sh (syncFind path client.queue).2 } sh.loc =
            client.node sh.loc := by
          simp only [Client.node, hashDel, ring]
        have alone := @syncPackWrite_unrelated env
          { client with queue := hashDel sh (syncFind path client.queue).2 } sh.loc queueSize
          (kept ▸ newfile) (by rw [kept, src]; exact unrelated)
        have files : after.fs = client.fs := by
          obtain rfl := Except.ok.inj (alone.symm.trans packing)
          simp only [packNewfile]
          split <;> rfl
        refine .inr ⟨⟨sh, member, named, newfile, unrelated, fun regular => ?_⟩, files⟩
        obtain ⟨content, readable⟩ := FileSystem.regular_iff_read.mp regular
        rw [files, readable] at missing
        exact absurd missing (by simp)
    · exact (others other (subset other kept)).2
        (table.tidy.eq_of_path (others other (subset other kept)).1 member (same.trans named.symm))

end DeltaCFS
