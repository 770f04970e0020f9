import DeltaCFS.Proofs.Client.WellFormed

/-! # The pending-write table along runs of the client

Every handler and every round of `sync_execute` keeps the table of pending writes, except where
`sync_pack_write` gives up on a new file it cannot open: the entry is gone by then and the node stays
unpacked.
-/

namespace DeltaCFS

variable {env : Env} {client after : Client} {path source target : Path} {res : ℤ}

/-- No node is left behind by the call: the file of a new-file node that is packed on its own
exists. A link that computes a delta concerns no temporary file. -/
def PacksFiles (event : Event) (client : Client) : Prop :=
  match event.call with
  | .unlink path => ¬ Stuck client path
  | .rename source target =>
    client.opens event.env target = false → relFind target client.rel = none → ¬ Stuck client source
  | .link source target => ∀ rh, relFind target client.rel = some rh →
    ¬ Stuck client (client.rel.rq.node rh.loc).dst ∧ ¬ tmpDir <+: source
  | _ => True

namespace PendingTable

theorem enqueue {op : Op} {src dst : Path} {para : Option (Fin 5 → UInt64)} {bn : Option (List BufInfo)}
    {fileBuf : Option Bytes} {localtime baseVersion : UInt64} {queue queue' : SyncQueue} (table : PendingTable queue)
    (plain : op.isBuffered = false)
    (enqueued : syncEnqueue op src dst para bn fileBuf localtime baseVersion queue = .ok queue') :
    PendingTable queue' :=
  Indexed.syncEnqueue table (fun buffered => absurd buffered (by simp [plain])) enqueued

theorem appended {queue : SyncQueue} (table : PendingTable queue) (slot : ℕ) (record : BufInfo) :
    PendingTable (queue.modifyNode slot (SyncNode.appended record)) := by
  obtain ⟨-, src, -, -, -, -, -, flag, pending⟩ := (queue.sq.node slot).appended_fields record
  exact Indexed.update slot table _ flag src pending

theorem mknod {mode rdev : ℕ} (table : PendingTable client.queue)
    (handled : xmpMknod env path mode rdev client = .ok (res, after)) : PendingTable after.queue := by
  obtain ⟨numbered, rfl, ⟨-, rfl⟩ | ⟨fs, packed, queue, opened, packing, queued, -, rfl⟩⟩ := xmpMknod_eq_ok handled
  · exact table
  · obtain ⟨kept, -, none⟩ := PendingTable.packPath packing table
    have regular : fs.Regular path := by
      simp only [FileSystem.openExcl] at opened
      split at opened
      · exact absurd opened (by simp)
      · obtain rfl := Except.ok.inj opened
        exact ⟨_, by rw [FileSystem.entry_create, if_pos rfl]⟩
    rcases kept with complete | ⟨⟨_, _, _, _, _, missing⟩, -⟩
    · exact Indexed.syncEnqueue complete (fun _ => none) queued
    · exact absurd regular missing

theorem unlink (table : PendingTable client.queue) (opens : ¬ Stuck client path)
    (handled : xmpUnlink env path client = .ok (res, after)) : PendingTable after.queue := by
  obtain ⟨version, packed, rel, -, packing, rfl, outcome⟩ := xmpUnlink_eq_ok handled
  rcases (PendingTable.packPath packing table).1 with complete | ⟨stuck, -⟩
  · rcases outcome with ⟨-, rfl⟩ | ⟨fs, queue, related, -, queued, -, -, rfl⟩
    · exact complete
    · exact complete.enqueue rfl queued
  · exact absurd stuck opens

/-- `sync_delete` between the two nodes of a rename that sends a delta. -/
theorem unlinkDelta {first second third : SyncQueue} {para : Fin 5 → UInt64} {deltaFile : Path}
    {fromVersion newTimestamp baseVersion : UInt64} (table : PendingTable first)
    (unlinked : syncEnqueue .unlink source [] none none none fromVersion 0 first = .ok second)
    (queued : syncEnqueue .delta deltaFile target (some para) none none newTimestamp baseVersion
      (syncDelete source second) = .ok third) : PendingTable third := by
  have deleted : PendingTable (syncDelete source second) := (table.enqueue rfl unlinked).syncDelete source
  exact deleted.enqueue rfl queued

theorem renameSync {fromVersion newTimestamp : UInt64}
    (synced : renameSync env source target fromVersion newTimestamp client = .ok after)
    (table : PendingTable client.queue)
    (opens : client.opens env target = false → relFind target client.rel = none → ¬ Stuck client source) :
    PendingTable after.queue := by
  simp only [DeltaCFS.renameSync] at synced
  split at synced
  · -- a target that could not be packed could not be read by `compute_delta` either
    obtain ⟨packed, timestamp, deltaFile, computed, unlinked, queue, packing, -, computing, first, second, rfl⟩ :=
      renameOnto_eq_ok synced
    obtain ⟨old, new, delta, facts⟩ := computeDelta_eq_ok computing
    have readable := facts.origin
    obtain ⟨_, _, _, _, _, _, _, rfl⟩ := facts.files
    rcases (PendingTable.packPath packing table).1 with complete | ⟨⟨_, _, _, _, _, missing⟩, files⟩
    · exact complete.unlinkDelta first second
    · rw [files] at readable
      exact absurd readable missing
  · next absent =>
    split at synced
    · next unrelated =>
      obtain ⟨packed, queue, packing, queued, rfl⟩ := renamePlain_eq_ok synced
      rcases (PendingTable.packPath packing table).1 with complete | ⟨stuck, -⟩
      · exact complete.enqueue rfl queued
      · exact absurd stuck (opens (by simpa using absent) unrelated)
    · obtain ⟨deltaFile, computed, check, computing, -, outcome⟩ := renameRelated_eq_ok synced
      obtain ⟨old, new, delta, facts⟩ := computeDelta_eq_ok computing
      have regular := facts.new_regular
      obtain ⟨_, _, _, _, _, _, _, rfl⟩ := facts.files
      rcases outcome with ⟨-, unlinked, queue, first, second, rfl⟩ | ⟨-, packed, queue, packing, queued, rfl⟩
      · exact table.unlinkDelta first second
      · rcases (PendingTable.packPath packing table).1 with
          complete | ⟨⟨_, _, _, _, _, missing⟩, -⟩
        · exact complete.enqueue rfl queued
        · exact absurd regular missing

theorem linkSync {fromVersion : UInt64} (table : PendingTable client.queue)
    (opens : ∀ rh, relFind target client.rel = some rh →
      ¬ Stuck client (client.rel.rq.node rh.loc).dst ∧ ¬ tmpDir <+: source)
    (synced : linkSync env source target fromVersion client = .ok after) : PendingTable after.queue := by
  simp only [DeltaCFS.linkSync] at synced
  split at synced
  · next rh related =>
    obtain ⟨notStuck, user⟩ := opens rh related
    obtain ⟨first, packed, deltaFile, computed, check, packing, packing', computing, -, outcome⟩ :=
      linkRelated_eq_ok synced
    obtain ⟨old, new, delta, facts⟩ := computeDelta_eq_ok computing
    have regular := facts.new_regular
    rcases (PendingTable.packPath packing table).1 with complete | ⟨stuck, -⟩
    · rcases (PendingTable.packPath packing' complete).1 with complete | ⟨⟨_, _, _, _, _, missing⟩, files⟩
      · obtain ⟨_, _, _, _, _, _, _, rfl⟩ := facts.files
        rcases outcome with ⟨-, queue, queued, rfl⟩ | ⟨-, rfl⟩
        · exact (complete.enqueue rfl queued).syncDelete source
        · exact complete
      · -- the source is no temporary file, so `compute_delta` read what packing could not open
        refine absurd ?_ missing
        rw [FileSystem.Regular, facts.entry_user user, files] at regular
        exact regular
    · exact absurd stuck notStuck
  · exact Except.ok.inj synced ▸ table

/-- The handlers of attributes queue nodes that are not buffered. -/
theorem setattr {op : Op} {para : List UInt64} (table : PendingTable client.queue)
    (handled : xmpSetattr env op path para client = .ok (res, after)) (plain : op.isBuffered = false) :
    PendingTable after.queue := by
  obtain ⟨queue, queued, ⟨-, rfl⟩ | ⟨fs, -, -, rfl⟩⟩ := xmpSetattr_eq_ok handled
  · exact table.enqueue plain queued
  · exact table.enqueue plain queued

theorem truncateSync {size : ℕ} (table : PendingTable client.queue)
    (synced : truncateSync path size client = .ok after) : PendingTable after.queue := by
  rcases truncateSync_eq_ok synced with
    ⟨-, rfl⟩ | ⟨-, sh, -, rfl⟩ | ⟨-, -, version, queue, -, queued, rfl⟩
  · exact Indexed.syncDeleteWrite table path
  · exact PendingTable.appended (Indexed.syncFind table path) _ _
  · exact PendingTable.enqueue (Indexed.syncFind table path) rfl queued

theorem writeSync {offset : ℕ} {data : Bytes} (table : PendingTable client.queue)
    (synced : writeSync env path offset data client = .ok after) : PendingTable after.queue := by
  rcases writeSync_eq_ok synced with ⟨sh, -, rfl⟩ | ⟨miss, version, queue, -, queued, rfl⟩
  · exact PendingTable.appended (Indexed.syncFind table path) _ _
  · refine Indexed.syncEnqueue (Indexed.syncFind table path) (fun _ => ?_) queued
    rw [(table.tidy.syncFind path).2.1]
    exact table.tidy.not_found miss

/-- The head is dequeued after its entry is gone. -/
theorem syncExecute {sent : Option SyncNode} (table : PendingTable client.queue)
    (executed : syncExecute env client = .ok (sent, after)) : PendingTable after.queue := by
  rcases syncExecute_eq_ok executed with ⟨-, -, rfl⟩ | ⟨occupied, packed, packing, -, rfl⟩
  · exact table
  · obtain ⟨fifo, queued⟩ := table.queued
    rcases packHead_run table.tidy packing with
      ⟨settled, rfl⟩ | ⟨pending, queue, middle, touched, ring, tidy, entries, run, apart, one⟩
    · refine Indexed.syncDequeue ⟨table.tidy, table.queued, fun slot bound _ => table.complete slot bound (by simp)⟩
        fun sh member same => settled ?_
      rw [← same]
      exact (table.tidy.refers sh member).pending
    · have free : ∀ sh ∈ queue.shs, sh.loc ≠ client.queue.sq.head := by
        intro sh member same
        obtain ⟨old, different⟩ := (entries sh).mp member
        exact different (same ▸ (table.tidy.refers sh old).src_eq).symm
      have indexed : Indexed {client.queue.sq.head} queue := by
        refine ⟨tidy, ring.symm ▸ table.queued, fun slot bound outside occupied waits => ?_⟩
        rw [ring] at occupied waits ⊢
        have entry := table.complete slot bound (by simp) occupied waits
        refine (entries _).mpr ⟨entry, fun same => outside ?_⟩
        have own := table.complete _ queued.head_lt (by simp) ‹_› pending
        exact congrArg SyncHash.loc (table.tidy.eq_of_path entry own same)
      obtain ⟨-, reached, subset⟩ := Indexed.packedOne indexed free run one
      have head := ((SameRing.rule env client.queue).packHead packing table.tidy queued.head_lt occupied
        ⟨rfl, rfl, fun _ => rfl⟩).head
      rw [← head] at reached free
      exact Indexed.syncDequeue reached fun sh member => free sh (subset sh member)

/-- Every call keeps the table. -/
theorem step {event : Event} (table : PendingTable client.queue) (packs : PacksFiles event client)
    (stepped : client.next event = .ok after) : PendingTable after.queue := by
  obtain ⟨env, call⟩ := event
  obtain ⟨outcome, ran, rfl⟩ := next_eq_ok stepped
  cases call with
  | mknod path mode rdev => exact table.mknod (ofHandled_eq_ok ran).1
  | mkdir path mode =>
    rcases xmpMkdir_eq_ok (ofHandled_eq_ok ran).1 with ⟨-, same⟩ | ⟨fs, queue, -, queued, -, same⟩
    · exact same ▸ table
    · rw [same]
      exact table.enqueue rfl queued
  | unlink path => exact table.unlink packs (ofHandled_eq_ok ran).1
  | rmdir path =>
    obtain ⟨version, queue, -, queued, ⟨-, same⟩ | ⟨fs, -, -, same⟩⟩ := xmpRmdir_eq_ok (ofHandled_eq_ok ran).1
    · rw [same]
      exact table.enqueue rfl queued
    · rw [same]
      exact table.enqueue rfl queued
  | rename source target =>
    obtain ⟨version, synced, rel, -, syncing, -, outcome⟩ := xmpRename_eq_ok (ofHandled_eq_ok ran).1
    have renamed : PendingTable synced.queue := renameSync syncing table packs
    rcases outcome with ⟨-, same⟩ | ⟨fs, -, -, same⟩
    · exact same ▸ renamed
    · exact same ▸ renamed
  | link source target =>
    obtain ⟨version, synced, queue, -, syncing, queued, outcome⟩ := xmpLink_eq_ok (ofHandled_eq_ok ran).1
    have linked := (table.linkSync packs syncing).enqueue rfl queued
    rcases outcome with ⟨-, same⟩ | ⟨fs, -, -, same⟩
    · exact same ▸ linked
    · exact same ▸ linked
  | chmod path mode => exact table.setattr (ofHandled_eq_ok ran).1 rfl
  | chown path uid gid => exact table.setattr (ofHandled_eq_ok ran).1 rfl
  | utimens path accessed modified => exact table.setattr (ofHandled_eq_ok ran).1 rfl
  | truncate path size =>
    obtain ⟨synced, syncing, ⟨-, same⟩ | ⟨fs, -, -, same⟩⟩ := xmpTruncate_eq_ok (ofHandled_eq_ok ran).1
    · exact same ▸ table.truncateSync syncing
    · have kept := table.truncateSync syncing
      exact same ▸ kept
  | write path offset data =>
    obtain ⟨synced, syncing, ⟨-, same⟩ | ⟨fs, -, -, -, same⟩⟩ := xmpWrite_eq_ok (ofHandled_eq_ok ran).1
    · exact same ▸ table.writeSync syncing
    · have kept := table.writeSync syncing
      exact same ▸ kept
  | syncExecute => exact table.syncExecute (step_syncExecute ran).1
  | relDequeue =>
    obtain rfl := Except.ok.inj ran
    exact table

theorem initial (memory : Memory) (dirSize : Path → ℕ) : PendingTable (Client.initial memory dirSize).queue where
  tidy := .initial _ _
  queued := ⟨[], RingBuffer.queued_nil (by decide) _ fun _ => rfl⟩
  complete := by
    intro slot _ _ occupied
    exact absurd occupied (by simp [Client.initial, SyncQueue.initial, SyncNode.fresh])

end PendingTable

/-- The table of pending writes in every state that calls reach which leave no node behind: at most
one entry for a path, every entry refers to the pending node of its path, and every pending node has
its entry. -/
theorem pending_table_along_runs (memory : Memory) (dirSize : Path → ℕ) (client : Client)
    (run : Transition.Run Client.next PacksFiles (Client.initial memory dirSize) client) :
    (client.queue.shs.map SyncHash.path).Nodup ∧
      (∀ sh ∈ client.queue.shs, (client.node sh.loc).isEmpty = false ∧
        ((client.node sh.loc).op = .newfile ∨ (client.node sh.loc).op = .write) ∧
        (client.node sh.loc).src = sh.path ∧ (client.node sh.loc).isPacked = false ∧
        (client.node sh.loc).isDelete = false) ∧
      ∀ slot < queueSize, (client.node slot).isEmpty = false → (client.node slot).Pending →
        ⟨(client.node slot).src, slot⟩ ∈ client.queue.shs := by
  have table : PendingTable client.queue := run.invariant (fun client => PendingTable client.queue)
    (fun kept packs stepped => kept.step packs stepped) (.initial memory dirSize)
  refine ⟨table.tidy.nodup, fun sh member => ?_, fun slot bound => table.complete slot bound (by simp)⟩
  obtain ⟨-, occupied, pending, src⟩ := table.tidy.refers sh member
  exact ⟨occupied, pending.op_cases, src, pending.2.1, pending.2.2⟩

/-- A file is created, written to, and another one created: both nodes wait in the table. -/
def twoPending : List Event :=
  [⟨.plain, .mknod [47, 97] 33188 0⟩, ⟨.plain, .write [47, 97] 0 [1, 2]⟩, ⟨.plain, .mknod [47, 98] 33188 0⟩]

theorem pending_table_two_files :
    ∃ client, Transition.replay Client.next twoPending Client.empty = .ok client ∧
      client.queue.shs = [⟨[47, 98], 1⟩, ⟨[47, 97], 0⟩] ∧
      ∀ sh ∈ client.queue.shs, (client.node sh.loc).src = sh.path := by
  have replayed : ∃ client, Transition.replay Client.next twoPending Client.empty = .ok client ∧
      client.queue.shs = [⟨[47, 98], 1⟩, ⟨[47, 97], 0⟩] := Except.exists_ok (by decide +kernel)
  obtain ⟨client, replayed, entries⟩ := replayed
  have allowed : Transition.AllAllowed Client.next PacksFiles twoPending Client.empty := by
    refine ⟨?_, fun _ _ => ⟨?_, fun _ _ => ⟨?_, fun _ _ => trivial⟩⟩⟩ <;> trivial
  have run := Transition.Run.of_replay twoPending allowed replayed
  exact ⟨client, replayed, entries, fun sh member => ((pending_table_along_runs _ _ client run).2.1 sh member).2.2.1⟩

/-! ## Nodes without an entry -/

/-- The directory of a new file is renamed before the file is packed, and directories take the
place of the old names: the rename of `/d/f` packs the node of the file that was there. -/
def renamedAway : List Event :=
  [⟨.plain, .mkdir [47, 100] 493⟩, ⟨.plain, .mknod [47, 100, 47, 102] 33188 0⟩, ⟨.plain, .rename [47, 100] [47, 101]⟩,
    ⟨.plain, .mkdir [47, 100] 493⟩, ⟨.plain, .mkdir [47, 100, 47, 102] 493⟩,
    ⟨.plain, .rename [47, 100, 47, 102] [47, 103]⟩]

/-- The same with an unlink of the old name, which returns an error. -/
def unlinkedAway : List Event :=
  [⟨.plain, .mkdir [47, 100] 493⟩, ⟨.plain, .mknod [47, 100, 47, 102] 33188 0⟩, ⟨.plain, .rename [47, 100] [47, 101]⟩,
    ⟨.plain, .unlink [47, 100, 47, 102]⟩]

/-- The run ends with a pending node in slot 1 and an empty hash. -/
def LosesEntry (events : List Event) : Prop :=
  ∃ client, Transition.Run Client.next (fun _ _ => True) Client.empty client ∧
    Transition.replay Client.next events Client.empty = .ok client ∧
    (client.node 1).isEmpty = false ∧ (client.node 1).Pending ∧ client.queue.shs = []

theorem LosesEntry.of_replay {events : List Event}
    (replayed : ∃ client, Transition.replay Client.next events Client.empty = .ok client ∧
      ((client.node 1).isEmpty = false ∧ (client.node 1).Pending ∧ client.queue.shs = [])) : LosesEntry events := by
  obtain ⟨client, replayed, facts⟩ := replayed
  exact ⟨client, .of_replay events (Transition.allAllowed_true events Client.empty) replayed, replayed, facts⟩

theorem unopened_newfile_loses_entry : LosesEntry renamedAway ∧ LosesEntry unlinkedAway :=
  ⟨.of_replay (Except.exists_ok (by decide +kernel)), .of_replay (Except.exists_ok (by decide +kernel))⟩

end DeltaCFS
