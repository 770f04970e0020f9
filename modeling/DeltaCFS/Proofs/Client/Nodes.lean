import DeltaCFS.Proofs.Client.PendingTable
import DeltaCFS.Proofs.Client.Steps

/-! # The nodes of the queue

The queue as the list of its nodes, the oldest first, and what the operations do to that list: a new
node goes to the end, the head is taken away, and a node is rewritten in its place.
-/

namespace DeltaCFS

variable {queue queue' : SyncQueue} {nodes : List SyncNode} {path : Path}

/-- The nodes in the queue. -/
def SyncQueue.Lists (queue : SyncQueue) (nodes : List SyncNode) : Prop :=
  ∃ fifo, queue.sq.Queued queueSize SyncNode.isEmpty fifo ∧ nodes = fifo.map queue.sq.node

namespace SyncQueue.Lists

theorem congr (lists : queue.Lists nodes) (ring : queue'.sq = queue.sq) : queue'.Lists nodes := by
  obtain ⟨fifo, queued, rfl⟩ := lists
  exact ⟨fifo, ring ▸ queued, by rw [ring]⟩

theorem unique {nodes' : List SyncNode} (lists : queue.Lists nodes) (lists' : queue.Lists nodes') :
    nodes = nodes' := by
  obtain ⟨fifo, queued, rfl⟩ := lists
  obtain ⟨fifo', queued', rfl⟩ := lists'
  rw [queued.unique queued']

theorem initial (garbage : ℕ → SyncNode) (hashCachePath : Path) : (SyncQueue.initial garbage hashCachePath).Lists [] :=
  ⟨[], RingBuffer.queued_nil (by decide) _ fun _ => rfl, rfl⟩

theorem mem {slot : ℕ} (lists : queue.Lists nodes) (bound : slot < queueSize)
    (occupied : (queue.sq.node slot).isEmpty = false) : queue.sq.node slot ∈ nodes := by
  obtain ⟨fifo, queued, rfl⟩ := lists
  exact List.mem_map_of_mem ((queued.flags slot bound).mp occupied)

/-- Every node of the list sits in an occupied slot. -/
theorem exists_slot {sn : SyncNode} (lists : queue.Lists nodes) (member : sn ∈ nodes) :
    ∃ slot < queueSize, queue.sq.node slot = sn ∧ sn.isEmpty = false := by
  obtain ⟨fifo, queued, rfl⟩ := lists
  obtain ⟨slot, inside, rfl⟩ := List.mem_map.mp member
  exact ⟨slot, queued.slot_lt inside, rfl, (queued.flags slot (queued.slot_lt inside)).mpr inside⟩

/-- A node that is rewritten keeps its place. -/
theorem modifyNode {slot : ℕ} (lists : queue.Lists nodes) (bound : slot < queueSize)
    (occupied : (queue.sq.node slot).isEmpty = false) (change : SyncNode → SyncNode)
    (flag : (change (queue.sq.node slot)).isEmpty = (queue.sq.node slot).isEmpty) :
    ∃ before after, nodes = before ++ queue.sq.node slot :: after ∧
      (queue.modifyNode slot change).Lists (before ++ change (queue.sq.node slot) :: after) := by
  obtain ⟨fifo, queued, rfl⟩ := lists
  obtain ⟨first, last, rfl⟩ := List.append_of_mem ((queued.flags slot bound).mp occupied)
  refine ⟨first.map queue.sq.node, last.map queue.sq.node, by simp, first ++ slot :: last,
    queued.modify slot change flag, ?_⟩
  have distinct := queued.nodup
  rw [List.nodup_append, List.nodup_cons] at distinct
  have outside (other : ℕ) (different : other ≠ slot) :
      (queue.modifyNode slot change).sq.node other = queue.sq.node other := by
    simp [SyncQueue.modifyNode, RingBuffer.modify_node, different]
  have here : (queue.modifyNode slot change).sq.node slot = change (queue.sq.node slot) := by
    simp [SyncQueue.modifyNode, RingBuffer.modify_node]
  rw [List.map_append, List.map_cons, here]
  congr 1
  · exact (List.map_congr_left fun other member => outside other (distinct.2.2 other member slot
      List.mem_cons_self)).symm
  · refine congrArg _ (List.map_congr_left fun other member => ?_).symm
    exact outside other fun same => distinct.2.1.1 (same ▸ member)

/-- A new node goes to the end. -/
theorem syncEnqueue {op : Op} {src dst : Path} {para : Option (Fin 5 → UInt64)} {bn : Option (List BufInfo)}
    {fileBuf : Option Bytes} {localtime baseVersion : UInt64}
    (enqueued : syncEnqueue op src dst para bn fileBuf localtime baseVersion queue = .ok queue')
    (lists : queue.Lists nodes) :
    ∃ old : SyncNode, queue'.Lists
      (nodes ++ [old.enqueued op src dst para bn fileBuf localtime baseVersion]) := by
  obtain ⟨fifo, queued, rfl⟩ := lists
  simp only [DeltaCFS.syncEnqueue] at enqueued
  split at enqueued
  · next free =>
    obtain rfl := Except.ok.inj enqueued
    have room := queued.isEmpty_tail.mp free
    refine ⟨queue.sq.node queue.sq.tail, _, queued.push room rfl, ?_⟩
    rw [List.map_append, List.map_singleton]
    have full := queued.tail_mem_iff.not.mpr room.ne
    congr 1
    · refine List.map_congr_left fun slot member => ?_
      simp [RingBuffer.push, show slot ≠ queue.sq.tail from fun same => full (same ▸ member)]
    · simp [RingBuffer.push]
  · exact absurd enqueued (by simp)

/-- The head leaves the queue. -/
theorem syncDequeue (lists : queue.Lists nodes) (occupied : (queue.sq.node queue.sq.head).isEmpty = false) :
    ∃ rest, nodes = queue.sq.node queue.sq.head :: rest ∧ (syncDequeue queue).Lists rest := by
  obtain ⟨fifo, queued, rfl⟩ := lists
  cases fifo with
  | nil => exact absurd (queued.isEmpty_head.mpr rfl) (by simp [occupied])
  | cons slot rest =>
    obtain rfl := queued.head_eq
    refine ⟨rest.map queue.sq.node, rfl, ?_⟩
    simp only [DeltaCFS.syncDequeue, occupied, Bool.false_eq_true, ↓reduceIte]
    refine ⟨rest, queued.pop rfl, List.map_congr_left fun slot member => ?_⟩
    have apart : slot ≠ queue.sq.head := fun same => (List.nodup_cons.mp queued.nodup).1 (same ▸ member)
    simp [RingBuffer.pop, apart]

/-- What a lookup followed by a rewrite of the node it found does to the list. -/
theorem dropped (lists : queue.Lists nodes) (tidy : Tidy queue) (path : Path) (change : SyncNode → SyncNode)
    (flag : ∀ sn, (change sn).isEmpty = sn.isEmpty) :
    match DeltaCFS.syncFind path queue with
    | (some sh, found) => ∃ before sn after, nodes = before ++ sn :: after ∧ sn.Pending ∧ sn.src = path ∧
        ((hashDel sh found).modifyNode sh.loc change).Lists (before ++ change sn :: after)
    | (none, found) => found.Lists nodes := by
  obtain ⟨ring, entries, tidy', -⟩ := tidy.syncFind path
  split
  · next sh found hit =>
    rw [hit] at ring entries tidy'
    obtain ⟨member, named⟩ := tidy.found (by rw [hit])
    obtain ⟨bound, occupied, pending, src⟩ := tidy.refers sh member
    have looked : (hashDel sh found).Lists nodes := lists.congr ring
    have node : (hashDel sh found).sq.node sh.loc = queue.sq.node sh.loc := congrArg (·.node sh.loc) ring
    obtain ⟨before, after, split, changed⟩ := looked.modifyNode bound (node ▸ occupied) change (flag _)
    rw [node] at split changed
    exact ⟨before, _, after, split, pending, src.trans named, changed⟩
  · next found hit =>
    rw [hit] at ring
    exact lists.congr ring

theorem syncDelete (lists : queue.Lists nodes) (tidy : Tidy queue) (path : Path) :
    (DeltaCFS.syncDelete path queue).Lists nodes ∨
      ∃ before sn after, nodes = before ++ sn :: after ∧ sn.Pending ∧ sn.src = path ∧
        (DeltaCFS.syncDelete path queue).Lists (before ++ { sn with isDelete := true } :: after) := by
  have found := lists.dropped tidy path (fun sn => { sn with isDelete := true }) fun _ => rfl
  simp only [DeltaCFS.syncDelete]
  cases hit : DeltaCFS.syncFind path queue with
  | mk result looked =>
    rw [hit] at found
    cases result with
    | none => exact .inl found
    | some sh => exact .inr found

theorem syncDeleteWrite (lists : queue.Lists nodes) (tidy : Tidy queue) (path : Path) :
    (DeltaCFS.syncDeleteWrite path queue).Lists nodes ∨
      ∃ before sn after, nodes = before ++ sn :: after ∧ sn.Pending ∧ sn.src = path ∧
        (DeltaCFS.syncDeleteWrite path queue).Lists (before ++ sn.deleteWrite :: after) := by
  have found := lists.dropped tidy path SyncNode.deleteWrite Indexed.deleteWrite_isEmpty
  simp only [DeltaCFS.syncDeleteWrite]
  cases hit : DeltaCFS.syncFind path queue with
  | mk result looked =>
    rw [hit] at found
    cases result with
    | none => exact .inl found
    | some sh => exact .inr found

/-- A record goes to the pending node of the path. -/
theorem appended {sh : SyncHash} (lists : queue.Lists nodes) (tidy : Tidy queue) (record : BufInfo)
    (hit : (DeltaCFS.syncFind path queue).1 = some sh) :
    ∃ before rest, nodes = before ++ queue.sq.node sh.loc :: rest ∧ (queue.sq.node sh.loc).Pending ∧
      (queue.sq.node sh.loc).src = path ∧
      ((DeltaCFS.syncFind path queue).2.modifyNode sh.loc (SyncNode.appended record)).Lists
        (before ++ (queue.sq.node sh.loc).appended record :: rest) := by
  obtain ⟨member, named⟩ := tidy.found hit
  obtain ⟨ring, -, -, -⟩ := tidy.syncFind path
  obtain ⟨bound, occupied, pending, src⟩ := tidy.refers sh member
  have looked : (DeltaCFS.syncFind path queue).2.Lists nodes := lists.congr ring
  rw [← ring] at occupied
  obtain ⟨-, -, -, -, -, -, -, flag, -⟩ :=
    ((DeltaCFS.syncFind path queue).2.sq.node sh.loc).appended_fields record
  obtain ⟨before, rest, split, changed⟩ := looked.modifyNode bound occupied _ flag
  rw [ring] at split changed
  exact ⟨before, rest, split, pending, src.trans named, changed⟩

end SyncQueue.Lists

/-! ## Properties of the nodes

A property of the list of nodes, together with a tidy hash, and the rules that carry it through what
the handlers do. -/

/-- The hash is tidy and the nodes in the queue have the property. -/
structure SyncQueue.Holds (P : List SyncNode → Prop) (queue : SyncQueue) : Prop where
  tidy : Tidy queue
  lists : ∃ nodes, queue.Lists nodes ∧ P nodes

/-- Packing one pending node keeps the property, under the versions and relations of the client. -/
def PackKeeps (env : Env) (client : Client) (P : List SyncNode → Prop) : Prop :=
  ∀ {state after : Client} {slot : ℕ} {before rest : List SyncNode}, state.db = client.db →
    state.rel = client.rel → (state.node slot).Pending → PackedOne env slot state after →
    P (before ++ state.node slot :: rest) → P (before ++ after.node slot :: rest)

/-- Where the base of the delta of a rename comes from: the target, or the relation of the target. -/
def RenameBase (client : Client) (target : Path) (base : UInt64) : Prop :=
  client.db target = some base ∨
    ∃ rh, relFind target client.rel = some rh ∧ base = (client.rel.rq.node rh.loc).time ∧
      client.db (client.rel.rq.node rh.loc).dst = some base

namespace SyncQueue.Holds

variable {env : Env} {client after : Client} {P Q : List SyncNode → Prop}

theorem imp (holds : queue.Holds P) (weaker : ∀ nodes, P nodes → Q nodes) : queue.Holds Q := by
  obtain ⟨tidy, nodes, lists, property⟩ := holds
  exact ⟨tidy, nodes, lists, weaker nodes property⟩

theorem initial (garbage : ℕ → SyncNode) (hashCachePath : Path) (start : P []) :
    (SyncQueue.initial garbage hashCachePath).Holds P :=
  ⟨.initial garbage hashCachePath, [], .initial garbage hashCachePath, start⟩

/-- Without a demand on the table there is nothing else to the queue. -/
theorem indexed (holds : queue.Holds P) : Indexed Set.univ queue := by
  obtain ⟨tidy, -, ⟨fifo, queued, -⟩, -⟩ := holds
  exact ⟨tidy, ⟨fifo, queued⟩, fun _ _ outside => absurd (Set.mem_univ _) outside⟩

theorem syncFind (holds : queue.Holds P) (path : Path) : (DeltaCFS.syncFind path queue).2.Holds P := by
  obtain ⟨tidy, nodes, lists, property⟩ := holds
  obtain ⟨ring, -, looked, -⟩ := tidy.syncFind path
  exact ⟨looked, nodes, lists.congr ring, property⟩

/-- A buffered node must be the first of its path. -/
theorem enqueue {op : Op} {src dst : Path} {para : Option (Fin 5 → UInt64)} {bn : Option (List BufInfo)}
    {fileBuf : Option Bytes} {localtime baseVersion : UInt64} (holds : queue.Holds P)
    (enqueued : syncEnqueue op src dst para bn fileBuf localtime baseVersion queue = .ok queue')
    (first : op.isBuffered = true → ∀ sh ∈ queue.shs, sh.path ≠ src)
    (gives : ∀ nodes (old : SyncNode), P nodes →
      Q (nodes ++ [old.enqueued op src dst para bn fileBuf localtime baseVersion])) : queue'.Holds Q := by
  have tidy := (holds.indexed.syncEnqueue first enqueued).tidy
  obtain ⟨-, nodes, lists, property⟩ := holds
  obtain ⟨old, lists'⟩ := Lists.syncEnqueue enqueued lists
  exact ⟨tidy, _, lists', gives nodes old property⟩

theorem syncDelete (holds : queue.Holds P) (path : Path) (skips : ∀ nodes, P nodes → Q nodes)
    (drops : ∀ before sn rest, sn.Pending → sn.src = path →
      P (before ++ sn :: rest) → Q (before ++ { sn with isDelete := true } :: rest)) :
    (DeltaCFS.syncDelete path queue).Holds Q := by
  have tidy := (holds.indexed.syncDelete path).tidy
  obtain ⟨tidy', nodes, lists, property⟩ := holds
  rcases lists.syncDelete tidy' path with same | ⟨before, sn, rest, rfl, pending, named, changed⟩
  · exact ⟨tidy, nodes, same, skips nodes property⟩
  · exact ⟨tidy, _, changed, drops before sn rest pending named property⟩

theorem syncDeleteWrite (holds : queue.Holds P) (path : Path)
    (keeps : ∀ before sn rest, sn.Pending → sn.src = path →
      P (before ++ sn :: rest) → P (before ++ sn.deleteWrite :: rest)) :
    (DeltaCFS.syncDeleteWrite path queue).Holds P := by
  have tidy := (holds.indexed.syncDeleteWrite path).tidy
  obtain ⟨tidy', nodes, lists, property⟩ := holds
  rcases lists.syncDeleteWrite tidy' path with same | ⟨before, sn, rest, rfl, pending, named, changed⟩
  · exact ⟨tidy, nodes, same, property⟩
  · exact ⟨tidy, _, changed, keeps before sn rest pending named property⟩

/-- A pending node that is found gets a record. -/
theorem appended {sh : SyncHash} (holds : queue.Holds P) (path : Path) (record : BufInfo)
    (hit : (DeltaCFS.syncFind path queue).1 = some sh)
    (keeps : ∀ before sn rest, sn.Pending → sn.src = path →
      P (before ++ sn :: rest) → P (before ++ sn.appended record :: rest)) :
    ((DeltaCFS.syncFind path queue).2.modifyNode sh.loc (SyncNode.appended record)).Holds P := by
  have looked := holds.syncFind path
  obtain ⟨-, src, -, -, -, -, -, flag, pending⟩ :=
    ((DeltaCFS.syncFind path queue).2.sq.node sh.loc).appended_fields record
  have tidy := (looked.indexed.update sh.loc _ flag src pending).tidy
  obtain ⟨tidy', nodes, lists, property⟩ := holds
  obtain ⟨before, rest, rfl, waits, named, changed⟩ := lists.appended tidy' record hit
  exact ⟨tidy, _, changed, keeps before _ rest waits named property⟩

/-- The property without the hash, for packing. -/
private theorem packRule (keeps : PackKeeps env client P) : PackInvariant env fun state =>
    state.db = client.db ∧ state.rel = client.rel ∧ ∃ nodes, state.queue.Lists nodes ∧ P nodes where
  hash := by
    intro state queue ring kept
    obtain ⟨db, rel, nodes, lists, property⟩ := kept
    exact ⟨db, rel, nodes, lists.congr ring, property⟩
  one := by
    intro slot state after bound occupied pending one kept
    obtain ⟨db, rel, nodes, lists, property⟩ := kept
    obtain ⟨db', rel', -, ⟨sn, changed, flag, -⟩, -⟩ := one.frame
    have here : after.node slot = sn := by
      simp [Client.node, changed, SyncQueue.modifyNode, RingBuffer.modify_node]
    obtain ⟨before, rest, rfl, lists'⟩ := lists.modifyNode bound occupied (fun _ => sn) flag
    refine ⟨db'.trans db, rel'.trans rel, before ++ sn :: rest, changed ▸ lists', ?_⟩
    have packed := keeps db rel pending one property
    rwa [here] at packed

/-- Packing the node of a path keeps the property, and leaves no entry of the path. -/
theorem packPath {path : Path} (packed : syncPackWritePath env path client = .ok after)
    (holds : client.queue.Holds P) (keeps : PackKeeps env client P) :
    after.queue.Holds P ∧ ∀ sh ∈ after.queue.shs, sh.path ≠ path := by
  obtain ⟨tidy, ready⟩ := holds
  obtain ⟨-, -, lists⟩ := (packRule keeps).packPath packed tidy ⟨rfl, rfl, ready⟩
  obtain ⟨left, entries⟩ := syncPackWritePath_entries packed tidy
  exact ⟨⟨left, lists⟩, fun sh kept => (entries sh kept).2⟩

/-- A round of `sync_execute` takes the head of the list, packed if it was pending. -/
theorem syncExecute {sent : Option SyncNode} (executed : syncExecute env client = .ok (sent, after))
    (holds : client.queue.Holds P) (keeps : PackKeeps env client P) :
    (sent = none ∧ after = client) ∨
      (after.db = client.db ∧ after.rel = client.rel ∧ after.recfsCnt = client.recfsCnt) ∧
        ∃ sn, sent = (if sn.isDelete then none else some sn) ∧ after.queue.Holds fun rest => P (sn :: rest) := by
  rcases syncExecute_eq_ok executed with ⟨-, none, rfl⟩ | ⟨occupied, packed, packing, sends, rfl⟩
  · exact .inl ⟨none, rfl⟩
  · refine .inr ?_
    obtain ⟨tidy, ready⟩ := holds
    obtain ⟨fifo, queued, -⟩ := ready.choose_spec.1
    obtain ⟨db, rel, nodes, lists, property⟩ :=
      (packRule keeps).packHead packing tidy queued.head_lt occupied ⟨rfl, rfl, ready⟩
    have same := (SameRing.rule env client.queue).packHead packing tidy queued.head_lt occupied
      ⟨rfl, rfl, fun _ => rfl⟩
    have head := same.head
    have flag := same.flags client.queue.sq.head
    have count : packed.recfsCnt = client.recfsCnt ∧ Tidy packed.queue ∧
        ∀ sh ∈ packed.queue.shs, sh.loc ≠ client.queue.sq.head := by
      rcases packHead_run tidy packing with
        ⟨settled, rfl⟩ | ⟨pending, queue, middle, touched, ring, tidy', entries, run, apart, one⟩
      · refine ⟨rfl, tidy, fun sh member here => settled ?_⟩
        exact here ▸ (tidy.refers sh member).pending
      · have free : ∀ sh ∈ middle.queue.shs, sh.loc ≠ client.queue.sq.head := by
          intro sh member here
          obtain ⟨old, different⟩ := (entries sh).mp (run.subset tidy' member)
          exact different (here ▸ (tidy.refers sh old).src_eq).symm
        obtain ⟨kept, -, -, count⟩ := run.frame tidy'
        obtain ⟨-, -, count', ⟨sn, changed, -⟩, -⟩ := one.frame
        rw [changed]
        exact ⟨count'.trans count, kept.modifyNode free _, free⟩
    obtain ⟨count, tidy', free⟩ := count
    rw [← head] at free flag
    have occupied' : (packed.queue.sq.node packed.queue.sq.head).isEmpty = false := by
      rw [flag, head]
      exact occupied
    obtain ⟨rest, rfl, lists'⟩ := lists.syncDequeue occupied'
    refine ⟨⟨db, rel, count⟩, packed.node client.queue.sq.head, sends, ?_, rest, lists', ?_⟩
    · exact Tidy.syncDequeue tidy' free
    · rw [Client.node, ← head]
      exact property

/-! ### Rename and link -/

/-- The branches of `xmp_rename`: a RENAME node after packing, or an UNLINK and a DELTA node, with
the pending node of the source dropped between them. -/
theorem renameSync {source target : Path} {fromVersion newTimestamp : UInt64} {P₁ P₂ : List SyncNode → Prop}
    (synced : renameSync env source target fromVersion newTimestamp client = .ok after)
    (holds : client.queue.Holds P) (keeps : PackKeeps env client P)
    (keeps' : PackKeeps env { client with db := Function.update client.db target (some newTimestamp) } P)
    (unlinks : ∀ nodes (old : SyncNode), P nodes →
      P₁ (nodes ++ [old.enqueued .unlink source [] none none none fromVersion 0]))
    (skips : ∀ nodes, P₁ nodes → P₂ nodes)
    (drops : ∀ before sn rest, sn.Pending → sn.src = source →
      P₁ (before ++ sn :: rest) → P₂ (before ++ { sn with isDelete := true } :: rest))
    (renames : ∀ nodes (old : SyncNode), P nodes →
      Q (nodes ++ [old.enqueued .rename source target none none none newTimestamp fromVersion]))
    (deltas : ∀ nodes (old : SyncNode) deltaFile para base, RenameBase client target base → P₂ nodes →
      Q (nodes ++ [old.enqueued .delta deltaFile target para none none newTimestamp base])) :
    after.queue.Holds Q ∧ after.rel = client.rel ∧ after.recfsCnt = client.recfsCnt ∧
      after.db = Function.update client.db target (some newTimestamp) := by
  have unlinkDelta {first second third : SyncQueue} {deltaFile : Path} {para : Fin 5 → UInt64} {base : UInt64}
      (holds : first.Holds P) (unlinked : syncEnqueue .unlink source [] none none none fromVersion 0 first = .ok second)
      (queued : syncEnqueue .delta deltaFile target (some para) none none newTimestamp base
        (DeltaCFS.syncDelete source second) = .ok third) (based : RenameBase client target base) : third.Holds Q := by
    have dropped := (holds.enqueue unlinked (by simp [Op.isBuffered]) unlinks).syncDelete source skips drops
    exact dropped.enqueue queued (by simp [Op.isBuffered]) fun nodes old => deltas nodes old _ _ _ based
  simp only [DeltaCFS.renameSync] at synced
  split at synced
  · obtain ⟨packed, timestamp, deltaFile, computed, unlinked, queue, packing, known, computing, first, second, rfl⟩ :=
      renameOnto_eq_ok synced
    obtain ⟨db, rel, count⟩ := syncPackWritePath_frame packing holds.tidy
    obtain ⟨old, new, delta, facts⟩ := computeDelta_eq_ok computing
    obtain ⟨_, _, _, _, _, _, _, rfl⟩ := facts.files
    exact ⟨unlinkDelta (packPath packing holds keeps).1 first second (.inl (db ▸ known)), rel, count, by rw [← db]⟩
  · split at synced
    · obtain ⟨packed, queue, packing, queued, rfl⟩ := renamePlain_eq_ok synced
      obtain ⟨db, rel, count⟩ := syncPackWritePath_frame packing holds.tidy
      have ready := (packPath packing holds keeps).1
      exact ⟨ready.enqueue queued (by simp [Op.isBuffered]) renames, rel, count, by rw [← db]⟩
    · next rh related =>
      obtain ⟨deltaFile, computed, check, computing, known, outcome⟩ := renameRelated_eq_ok synced
      obtain ⟨old, new, delta, facts⟩ := computeDelta_eq_ok computing
      obtain ⟨_, _, _, _, _, _, _, rfl⟩ := facts.files
      rcases outcome with ⟨current, unlinked, queue, first, second, rfl⟩ | ⟨-, packed, queue, packing, queued, rfl⟩
      · exact ⟨unlinkDelta holds first second (.inr ⟨rh, related, current, known⟩), rfl, rfl, rfl⟩
      · obtain ⟨db, rel, count⟩ := syncPackWritePath_frame packing holds.tidy
        have ready := (packPath packing holds keeps').1
        exact ⟨ready.enqueue queued (by simp [Op.isBuffered]) renames, rel, count, db⟩

/-- What `xmp_link` queues before its own node. -/
theorem linkSync {source target : Path} {fromVersion : UInt64} {P₁ : List SyncNode → Prop}
    (synced : linkSync env source target fromVersion client = .ok after)
    (holds : client.queue.Holds P) (keeps : PackKeeps env client P) (stays : ∀ nodes, P nodes → Q nodes)
    (deltas : ∀ nodes (old : SyncNode) deltaFile para rh, relFind target client.rel = some rh →
      client.db (client.rel.rq.node rh.loc).dst = some (client.rel.rq.node rh.loc).time → P nodes →
      P₁ (nodes ++ [old.enqueued .delta deltaFile source para none none fromVersion
        (client.rel.rq.node rh.loc).time]))
    (skips : ∀ nodes, P₁ nodes → Q nodes)
    (drops : ∀ before sn rest, sn.Pending → sn.src = source →
      P₁ (before ++ sn :: rest) → Q (before ++ { sn with isDelete := true } :: rest)) :
    after.queue.Holds Q ∧ after.rel = client.rel ∧ after.recfsCnt = client.recfsCnt ∧ after.db = client.db := by
  simp only [DeltaCFS.linkSync] at synced
  split at synced
  · next rh related =>
    obtain ⟨first, packed, deltaFile, computed, check, packing, packing', computing, known, outcome⟩ :=
      linkRelated_eq_ok synced
    obtain ⟨db, rel, count⟩ := syncPackWritePath_frame packing holds.tidy
    have ready := (packPath packing holds keeps).1
    obtain ⟨db', rel', count'⟩ := syncPackWritePath_frame packing' ready.tidy
    have ready' := (packPath packing' ready fun same same' => keeps (same.trans db) (same'.trans rel)).1
    obtain ⟨old, new, delta, facts⟩ := computeDelta_eq_ok computing
    obtain ⟨_, _, _, _, _, _, _, rfl⟩ := facts.files
    refine ⟨?_, ?_⟩
    · rcases outcome with ⟨rfl, queue, queued, rfl⟩ | ⟨-, rfl⟩
      · rw [show packed.db = client.db from db'.trans db] at known
        have delta := ready'.enqueue queued (by simp [Op.isBuffered]) fun nodes old => deltas nodes old _ _ rh related known
        exact delta.syncDelete source skips drops
      · exact ready'.imp stays
    · rcases outcome with ⟨-, queue, -, rfl⟩ | ⟨-, rfl⟩
      · exact ⟨rel'.trans rel, count'.trans count, db'.trans db⟩
      · exact ⟨rel'.trans rel, count'.trans count, db'.trans db⟩
  · obtain rfl := Except.ok.inj synced
    exact ⟨holds.imp stays, rfl, rfl, rfl⟩

end SyncQueue.Holds

end DeltaCFS
