import DeltaCFS.Proofs.Client.RegularFiles
import DeltaCFS.Proofs.DeltaBases

/-! # A version identifies a content

Once the pending node of a path is gone, the content changes only together with the version, except
in `xmp_truncate` to size 0, which drops a pending node but takes no version. So the content under a
version is the same at any two moments when nothing is pending, provided that a truncate to size 0
finds a pending node or an empty file.
-/

namespace DeltaCFS

open Bytes

variable {env : Env} {client after : Client} {path source target : Path} {res : ℤ} {nodes : List SyncNode}

/-! ## Calls on regular files -/

/-- A call on regular files, or a round of one of the two consumers. -/
def Call.onFiles : Call → Bool
  | .mknod .. | .unlink .. | .rename .. | .truncate .. | .write .. | .syncExecute | .relDequeue => true
  | _ => false

/-- A call on regular files that returns no error. -/
def RegularCall (event : Event) (client : Client) : Prop :=
  event.call.onFiles = true ∧ client.Succeeds event

instance (event : Event) (client : Client) : Decidable (RegularCall event client) :=
  inferInstanceAs (Decidable (_ ∧ ∀ outcome, client.step event.env event.call = .ok outcome → 0 ≤ outcome.res))

/-- Every path of the mount that has a version is a regular file. -/
structure Mounted (client : Client) : Prop where
  plain : client.fs.Plain
  exist : ∀ path, UserPath path → ∀ version, client.db path = some version →
    ∃ content, client.fs.read path = some content

namespace Mounted

theorem initial (memory : Memory) (dirSize : Path → ℕ) : Mounted (Client.initial memory dirSize) where
  plain := by
    refine ⟨⟨?_, ?_⟩, ?_⟩
    all_goals simp [Client.initial, FileSystem.entry, FileSystem.NoDir]
  exist := by simp [Client.initial]

/-- The content of a path changes, which may get a version. -/
theorem changed {content : Bytes} (mounted : Mounted client) (plain : after.fs.Plain)
    (reads : ∀ other, after.fs.read other = if other = path then some content else client.fs.read other)
    (db : ∀ other, other ≠ path → after.db other = client.db other) : Mounted after := by
  refine ⟨plain, fun other user version known => ?_⟩
  rw [reads other]
  split
  · exact ⟨content, rfl⟩
  · next apart =>
    rw [db other apart] at known
    exact mounted.exist other user version known

theorem mknod {mode rdev : ℕ} (mounted : Mounted client) (tidy : Tidy client.queue)
    (handled : xmpMknod env path mode rdev client = .ok (res, after)) (done : 0 ≤ res) : Mounted after := by
  obtain ⟨plain, reads⟩ := mounted.plain.mknod tidy handled done
  obtain ⟨db, -⟩ := xmpMknod_db tidy handled
  refine ⟨plain, fun other user version known => ?_⟩
  rw [reads other user]
  split
  · exact ⟨[], rfl⟩
  · next apart =>
    rw [db, Function.update_of_ne apart] at known
    exact mounted.exist other user version known

theorem unlink (mounted : Mounted client) (tidy : Tidy client.queue)
    (handled : xmpUnlink env path client = .ok (res, after)) (done : 0 ≤ res) : Mounted after := by
  obtain ⟨plain, reads⟩ := mounted.plain.unlink tidy handled done
  obtain ⟨db, -⟩ := xmpUnlink_db tidy handled done
  refine ⟨plain, fun other user version known => ?_⟩
  rw [reads other user]
  by_cases same : other = path
  · rw [db, same, Function.update_self] at known
    exact absurd known (by simp)
  · rw [db, Function.update_of_ne same,
      Function.update_of_ne (user.ne_of_prefix (tmpDir_prefix_tmpPath path))] at known
    rw [if_neg same]
    exact mounted.exist other user version known

theorem rename (mounted : Mounted client) (holds : client.queue.Holds Formed)
    (handled : xmpRename env source target client = .ok (res, after)) (done : 0 ≤ res) : Mounted after := by
  obtain ⟨content, -, plain, reads⟩ := mounted.plain.xmpRename holds.tidy handled done
  obtain ⟨db, -⟩ := xmpRename_db holds handled
  refine ⟨plain, fun other user version known => ?_⟩
  rw [reads other user]
  split
  · exact ⟨content, rfl⟩
  · next apart =>
    rw [db, Function.update_of_ne apart] at known
    by_cases moved : other = source
    · rw [moved, Function.update_self] at known
      exact absurd known (by simp)
    · rw [Function.update_of_ne moved] at known
      rw [if_neg moved]
      exact mounted.exist other user version known

theorem truncate {size : ℕ} (mounted : Mounted client) (handled : xmpTruncate env path size client = .ok (res, after))
    (done : 0 ≤ res) : Mounted after := by
  obtain ⟨content, -, plain, reads⟩ := mounted.plain.xmpTruncate handled done
  obtain ⟨synced, syncing, ⟨failed, -⟩ | ⟨fs, -, -, rfl⟩⟩ := xmpTruncate_eq_ok handled
  · omega
  · refine mounted.changed plain reads fun other apart => ?_
    rcases truncateSync_eq_ok syncing with ⟨-, rfl⟩ | ⟨-, sh, -, rfl⟩ | ⟨-, -, version, queue, -, -, rfl⟩
    · rfl
    · rfl
    · exact Function.update_of_ne apart _ _

theorem write {offset : ℕ} {data : Bytes} (mounted : Mounted client)
    (handled : xmpWrite env path offset data client = .ok (res, after)) (done : 0 ≤ res) : Mounted after := by
  obtain ⟨content, -, plain, reads⟩ := mounted.plain.xmpWrite handled done
  obtain ⟨synced, syncing, ⟨failed, -⟩ | ⟨fs, -, -, -, rfl⟩⟩ := xmpWrite_eq_ok handled
  · omega
  · refine mounted.changed plain reads fun other apart => ?_
    rcases writeSync_eq_ok syncing with ⟨sh, -, rfl⟩ | ⟨-, version, queue, -, -, rfl⟩
    · rfl
    · exact Function.update_of_ne apart _ _

theorem syncExecute {sent : Option SyncNode} (mounted : Mounted client) (holds : client.queue.Holds Formed)
    (executed : syncExecute env client = .ok (sent, after)) : Mounted after := by
  have agrees := (FileSystem.Agrees.temporary client.fs).syncExecute executed holds (.refl mounted.plain)
  rcases SyncQueue.Holds.syncExecute executed holds (Formed.packKeeps env _) with ⟨-, rfl⟩ | ⟨⟨db, -, -⟩, -⟩
  · exact mounted
  · refine ⟨agrees.plain, fun other user version known => ?_⟩
    rw [agrees.read_eq other user]
    exact mounted.exist other user version (db ▸ known)

/-- Every call on regular files that succeeds leaves such a mount. -/
theorem step {event : Event} (mounted : Mounted client) (formed : client.WellFormed)
    (regular : RegularCall event client) (stepped : client.next event = .ok after) : Mounted after := by
  obtain ⟨env, call⟩ := event
  obtain ⟨onFiles, succeeds⟩ := regular
  obtain ⟨outcome, ran, rfl⟩ := next_eq_ok stepped
  have done := succeeds outcome ran
  cases call with
  | mknod path mode rdev => exact mounted.mknod formed.queue.tidy (ofHandled_eq_ok ran).1 done
  | unlink path => exact mounted.unlink formed.queue.tidy (ofHandled_eq_ok ran).1 done
  | rename source target => exact mounted.rename formed.queue (ofHandled_eq_ok ran).1 done
  | truncate path size => exact mounted.truncate (ofHandled_eq_ok ran).1 done
  | write path offset data => exact mounted.write (ofHandled_eq_ok ran).1 done
  | syncExecute => exact mounted.syncExecute formed.queue (step_syncExecute ran).1
  | relDequeue =>
    obtain rfl := Except.ok.inj ran
    exact ⟨mounted.plain, mounted.exist⟩
  | _ => simp [Call.onFiles] at onFiles

end Mounted

/-! ## Nothing pending -/

/-- No node of the list is pending for the path. -/
def Quiet (path : Path) (nodes : List SyncNode) : Prop := ∀ sn ∈ nodes, sn.Pending → sn.src ≠ path

namespace Quiet

theorem append {sn : SyncNode} (quiet : Quiet path nodes) (last : sn.Pending → sn.src ≠ path) :
    Quiet path (nodes ++ [sn]) := by
  intro other member
  rw [List.mem_append, List.mem_singleton] at member
  rcases member with old | rfl
  · exact quiet other old
  · exact last

theorem replace {before rest : List SyncNode} {sn sn' : SyncNode} (quiet : Quiet path (before ++ sn :: rest))
    (changed : sn'.Pending → sn.Pending ∧ sn'.src = sn.src) : Quiet path (before ++ sn' :: rest) := by
  intro other member waits
  simp only [List.mem_append, List.mem_cons] at member
  rcases member with old | rfl | old
  · exact quiet other (by simp [old]) waits
  · obtain ⟨waited, same⟩ := changed waits
    rw [same]
    exact quiet sn (by simp) waited
  · exact quiet other (by simp [old]) waits

theorem settle {before rest : List SyncNode} {sn sn' : SyncNode} (quiet : Quiet path (before ++ sn :: rest))
    (settled : ¬ sn'.Pending) : Quiet path (before ++ sn' :: rest) :=
  quiet.replace fun waits => absurd waits settled

theorem appended {before rest : List SyncNode} {sn : SyncNode} (record : BufInfo)
    (quiet : Quiet path (before ++ sn :: rest)) : Quiet path (before ++ sn.appended record :: rest) := by
  obtain ⟨-, src, -, -, -, -, -, -, pending⟩ := sn.appended_fields record
  exact quiet.replace fun waits => ⟨pending.mp waits, src⟩

theorem packKeeps (env : Env) (client : Client) (path : Path) : PackKeeps env client (Quiet path) := by
  intro state after slot before rest _ _ _ one quiet
  obtain ⟨-, -, -, -, packed | ⟨rfl, -⟩⟩ := one.frame
  · exact quiet.settle (SyncNode.not_pending_of_packed packed)
  · exact quiet

/-- A lookup of the path finds nothing. -/
theorem not_found {queue : SyncQueue} (holds : queue.Holds (Quiet path)) : (syncFind path queue).1 = none := by
  obtain ⟨tidy, nodes, lists, quiet⟩ := holds
  cases hit : (syncFind path queue).1 with
  | none => rfl
  | some sh =>
    obtain ⟨member, named⟩ := tidy.found hit
    obtain ⟨bound, occupied, pending, src⟩ := tidy.refers sh member
    exact absurd (src.trans named) (quiet _ (lists.mem bound occupied) pending)

end Quiet

/-- No unpacked, undeleted node in the queue is for the path. -/
def Client.Quiet (client : Client) (path : Path) : Prop :=
  ∀ slot < queueSize, (client.node slot).isEmpty = false → (client.node slot).Pending → (client.node slot).src ≠ path

theorem Client.WellFormed.quiet_iff (formed : client.WellFormed) (path : Path) :
    client.Quiet path ↔ client.queue.Holds (DeltaCFS.Quiet path) := by
  constructor
  · intro quiet
    obtain ⟨tidy, nodes, lists, -⟩ := formed.queue
    refine ⟨tidy, nodes, lists, fun sn member waits => ?_⟩
    obtain ⟨slot, bound, rfl, occupied⟩ := lists.exists_slot member
    exact quiet slot bound occupied waits
  · rintro ⟨-, nodes, lists, quiet⟩ slot bound occupied waits
    exact quiet _ (lists.mem bound occupied) waits

/-- An empty queue has nothing pending. -/
theorem Client.WellFormed.quiet_of_idle (formed : client.WellFormed)
    (idle : (client.node client.queue.sq.head).isEmpty = true) (path : Path) : client.Quiet path := by
  obtain ⟨-, nodes, ⟨fifo, queued, -⟩, -⟩ := formed.queue
  obtain rfl := queued.isEmpty_head.mp idle
  intro slot bound occupied
  exact absurd ((queued.flags slot bound).mp occupied) List.not_mem_nil

/-! ## After a quiet moment -/

/-- What holds of a path after a moment when it had the version and the content and nothing was
pending: as long as it has the version, both is still so. -/
structure Unchanged (path : Path) (version : UInt64) (content : Bytes) (client : Client) : Prop where
  bound : version.toNat ≤ client.recfsCnt.toNat
  kept : client.db path = some version → client.queue.Holds (Quiet path) ∧ client.fs.read path = some content

namespace Unchanged

variable {version : UInt64} {content : Bytes} {other : Path}

/-- A new version is another one. -/
theorem fresh (unchanged : Unchanged path version content client)
    (bound : client.recfsCnt.toNat + 1 < counterBound) : some client.newVersion ≠ some version := by
  intro same
  have above := newVersion_toNat bound
  rw [Option.some.inj same] at above
  have := unchanged.bound
  omega

/-- The counter goes on. -/
theorem bound_succ (unchanged : Unchanged path version content client)
    (bound : client.recfsCnt.toNat + 1 < counterBound) (count : after.recfsCnt = client.recfsCnt + 1) :
    version.toNat ≤ after.recfsCnt.toNat := by
  rw [count, recfsCnt_toNat bound]
  exact unchanged.bound.trans (Nat.le_succ _)

theorem mknod {mode rdev : ℕ} (unchanged : Unchanged path version content client) (user : UserPath path)
    (mounted : Mounted client) (tidy : Tidy client.queue) (bound : client.recfsCnt.toNat + 1 < counterBound)
    (handled : xmpMknod env other mode rdev client = .ok (res, after)) (done : 0 ≤ res) :
    Unchanged path version content after := by
  obtain ⟨-, reads⟩ := mounted.plain.mknod tidy handled done
  obtain ⟨db, count⟩ := xmpMknod_db tidy handled
  refine ⟨unchanged.bound_succ bound count, fun known => ?_⟩
  rw [db] at known
  by_cases same : path = other
  · rw [same, Function.update_self] at known
    exact absurd known (unchanged.fresh bound)
  · rw [Function.update_of_ne same] at known
    obtain ⟨quiet, file⟩ := unchanged.kept known
    refine ⟨?_, by rw [reads path user, if_neg same, file]⟩
    obtain ⟨stored, rfl, ⟨failed, -⟩ | ⟨fs, packed, queue, -, packing, queued, -, rfl⟩⟩ := xmpMknod_eq_ok handled
    · omega
    · obtain ⟨holds, none⟩ := SyncQueue.Holds.packPath packing quiet (Quiet.packKeeps env _ path)
      exact holds.enqueue queued (fun _ => none) fun nodes old quiet => quiet.append fun _ => Ne.symm same

theorem unlink (unchanged : Unchanged path version content client) (user : UserPath path)
    (mounted : Mounted client) (tidy : Tidy client.queue) (bound : client.recfsCnt.toNat + 1 < counterBound)
    (handled : xmpUnlink env other client = .ok (res, after)) (done : 0 ≤ res) :
    Unchanged path version content after := by
  obtain ⟨-, reads⟩ := mounted.plain.unlink tidy handled done
  obtain ⟨db, count⟩ := xmpUnlink_db tidy handled done
  refine ⟨unchanged.bound_succ bound count, fun known => ?_⟩
  rw [db] at known
  by_cases same : path = other
  · rw [same, Function.update_self] at known
    exact absurd known (by simp)
  · rw [Function.update_of_ne same,
      Function.update_of_ne (user.ne_of_prefix (tmpDir_prefix_tmpPath other))] at known
    obtain ⟨quiet, file⟩ := unchanged.kept known
    refine ⟨?_, by rw [reads path user, if_neg same, file]⟩
    obtain ⟨_, packed, rel, -, packing, -, ⟨failed, -⟩ | ⟨fs, queue, related, -, queued, -, -, rfl⟩⟩ :=
      xmpUnlink_eq_ok handled
    · omega
    · obtain ⟨holds, -⟩ := SyncQueue.Holds.packPath packing quiet (Quiet.packKeeps env _ path)
      exact holds.enqueue queued (by simp [Op.isBuffered]) fun nodes old quiet => quiet.append
        (by simp [SyncNode.Pending, SyncNode.enqueued, Op.isBuffered])

theorem rename (unchanged : Unchanged path version content client) (user : UserPath path)
    (mounted : Mounted client) (formed : client.queue.Holds Formed) (bound : client.recfsCnt.toNat + 1 < counterBound)
    (handled : xmpRename env source target client = .ok (res, after)) (done : 0 ≤ res) :
    Unchanged path version content after := by
  obtain ⟨_, -, -, reads⟩ := mounted.plain.xmpRename formed.tidy handled done
  obtain ⟨db, count⟩ := xmpRename_db formed handled
  refine ⟨unchanged.bound_succ bound count, fun known => ?_⟩
  rw [db] at known
  by_cases arrives : path = target
  · rw [arrives, Function.update_self] at known
    exact absurd known (unchanged.fresh bound)
  rw [Function.update_of_ne arrives] at known
  by_cases leaves : path = source
  · rw [leaves, Function.update_self] at known
    exact absurd known (by simp)
  rw [Function.update_of_ne leaves] at known
  obtain ⟨quiet, file⟩ := unchanged.kept known
  refine ⟨?_, by rw [reads path user, if_neg arrives, if_neg leaves, file]⟩
  obtain ⟨_, synced, rel, -, syncing, -, outcome⟩ := xmpRename_eq_ok handled
  have settled (op : Op) (plain : op.isBuffered = false) {src dst : Path} {para : Option (Fin 5 → UInt64)}
      {localtime base : UInt64} (nodes : List SyncNode) (old : SyncNode) (quiet : Quiet path nodes) :
      Quiet path (nodes ++ [old.enqueued op src dst para none none localtime base]) :=
    quiet.append (by simp [SyncNode.Pending, SyncNode.enqueued, plain])
  obtain ⟨holds, -, -, -⟩ := SyncQueue.Holds.renameSync syncing quiet (Quiet.packKeeps env _ path)
    (Quiet.packKeeps env _ path) (settled .unlink rfl) (fun _ => id)
    (fun _ _ _ _ _ quiet => quiet.settle (SyncNode.not_pending_of_deleted rfl)) (settled .rename rfl)
    (fun nodes old _ _ _ _ => settled .delta rfl nodes old)
  rcases outcome with ⟨-, rfl⟩ | ⟨fs, -, -, rfl⟩
  · exact holds
  · exact holds

/-- A truncate to size 0 must find a pending node or an empty file. -/
theorem truncate {size : ℕ} (unchanged : Unchanged path version content client) (mounted : Mounted client)
    (bound : client.recfsCnt.toNat + 1 < counterBound)
    (covered : size = 0 → other = path → (syncFind path client.queue).1.isSome ∨ client.fs.read path = some [])
    (handled : xmpTruncate env other size client = .ok (res, after)) (done : 0 ≤ res) :
    Unchanged path version content after := by
  obtain ⟨old, found, -, reads⟩ := mounted.plain.xmpTruncate handled done
  obtain ⟨synced, syncing, ⟨failed, -⟩ | ⟨fs, -, -, rfl⟩⟩ := xmpTruncate_eq_ok handled
  · omega
  rcases truncateSync_eq_ok syncing with
    ⟨zero, rfl⟩ | ⟨-, sh, hit, rfl⟩ | ⟨-, -, _, queue, -, queued, rfl⟩
  · refine ⟨unchanged.bound, fun known => ?_⟩
    obtain ⟨quiet, file⟩ := unchanged.kept known
    refine ⟨quiet.syncDeleteWrite other fun _ sn _ _ _ quiet => quiet.settle (Indexed.deleteWrite_settled sn), ?_⟩
    rw [reads path]
    split
    · next same =>
      -- nothing is pending, so the file was empty before
      subst same
      rcases covered zero rfl with pends | empty
      · simp [Quiet.not_found quiet] at pends
      · obtain rfl := Option.some.inj (file.symm.trans empty)
        obtain rfl := Option.some.inj (found.symm.trans file)
        rw [zero]
        rfl
    · exact file
  · refine ⟨unchanged.bound, fun known => ?_⟩
    obtain ⟨quiet, file⟩ := unchanged.kept known
    refine ⟨quiet.appended other _ hit fun _ _ _ _ _ quiet => quiet.appended _, ?_⟩
    rw [reads path, if_neg]
    · exact file
    · rintro rfl
      rw [Quiet.not_found quiet] at hit
      exact absurd hit (by simp)
  · refine ⟨unchanged.bound_succ bound rfl, fun known => ?_⟩
    by_cases same : path = other
    · simp only [same, Function.update_self] at known
      exact absurd known (unchanged.fresh bound)
    · simp only [Function.update_of_ne same] at known
      obtain ⟨quiet, file⟩ := unchanged.kept known
      refine ⟨(quiet.syncFind other).enqueue queued (by simp [Op.isBuffered]) fun nodes old quiet => quiet.append
        (by simp [SyncNode.Pending, SyncNode.enqueued, Op.isBuffered]), ?_⟩
      rw [reads path, if_neg same, file]

theorem write {offset : ℕ} {data : Bytes} (unchanged : Unchanged path version content client)
    (mounted : Mounted client) (bound : client.recfsCnt.toNat + 1 < counterBound)
    (handled : xmpWrite env other offset data client = .ok (res, after)) (done : 0 ≤ res) :
    Unchanged path version content after := by
  obtain ⟨old, -, -, reads⟩ := mounted.plain.xmpWrite handled done
  obtain ⟨synced, syncing, ⟨failed, -⟩ | ⟨fs, -, -, -, rfl⟩⟩ := xmpWrite_eq_ok handled
  · omega
  rcases writeSync_eq_ok syncing with ⟨sh, hit, rfl⟩ | ⟨miss, _, queue, -, queued, rfl⟩
  · refine ⟨unchanged.bound, fun known => ?_⟩
    obtain ⟨quiet, file⟩ := unchanged.kept known
    refine ⟨quiet.appended other _ hit fun _ _ _ _ _ quiet => quiet.appended _, ?_⟩
    rw [reads path, if_neg]
    · exact file
    · rintro rfl
      rw [Quiet.not_found quiet] at hit
      exact absurd hit (by simp)
  · refine ⟨unchanged.bound_succ bound rfl, fun known => ?_⟩
    by_cases same : path = other
    · simp only [same, Function.update_self] at known
      exact absurd known (unchanged.fresh bound)
    · simp only [Function.update_of_ne same] at known
      obtain ⟨quiet, file⟩ := unchanged.kept known
      refine ⟨(quiet.syncFind other).enqueue queued (fun _ => ?_) fun nodes old quiet => quiet.append
        fun _ => Ne.symm same, ?_⟩
      · rw [(quiet.tidy.syncFind other).2.1]
        exact quiet.tidy.not_found miss
      · rw [reads path, if_neg same, file]

theorem syncExecute {sent : Option SyncNode} (unchanged : Unchanged path version content client) (user : UserPath path)
    (mounted : Mounted client) (formed : client.queue.Holds Formed)
    (executed : syncExecute env client = .ok (sent, after)) : Unchanged path version content after := by
  have agrees := (FileSystem.Agrees.temporary client.fs).syncExecute executed formed (.refl mounted.plain)
  rcases SyncQueue.Holds.syncExecute executed formed (Formed.packKeeps env _) with
    ⟨-, rfl⟩ | ⟨⟨db, -, count⟩, -⟩
  · exact unchanged
  · refine ⟨count ▸ unchanged.bound, fun known => ?_⟩
    obtain ⟨quiet, file⟩ := unchanged.kept (db ▸ known)
    refine ⟨?_, (agrees.read_eq path user).trans file⟩
    rcases SyncQueue.Holds.syncExecute executed quiet (Quiet.packKeeps env _ path) with ⟨-, rfl⟩ | ⟨-, sn, -, holds⟩
    · exact quiet
    · exact holds.imp fun nodes quiet other member => quiet other (List.mem_cons_of_mem sn member)

end Unchanged

/-! ## Runs -/

/-- A truncate of a path of the mount to size 0 finds a pending node or an empty file. -/
def TruncateCovered (call : Call) (client : Client) : Prop :=
  match call with
  | .truncate path size => size = 0 → UserPath path →
    (syncFind path client.queue).1.isSome ∨ client.fs.read path = some []
  | _ => True

instance (call : Call) (client : Client) : Decidable (TruncateCovered call client) :=
  match call with
  | .truncate .. => inferInstanceAs (Decidable (_ → _ → _ ∨ _))
  | .mknod .. | .mkdir .. | .unlink .. | .rmdir .. | .rename .. | .link .. | .chmod .. | .chown .. | .utimens ..
  | .write .. | .syncExecute | .relDequeue => isTrue trivial

/-- A call on regular files that succeeds and keeps the counter below its mask, with truncates to
size 0 covered. -/
def KeepsContent (event : Event) (client : Client) : Prop :=
  RegularCall event client ∧ (event.call.counts = true → client.recfsCnt.toNat + 1 < counterBound) ∧
    TruncateCovered event.call client

instance (event : Event) (client : Client) : Decidable (KeepsContent event client) :=
  inferInstanceAs (Decidable (_ ∧ (_ → _) ∧ _))

theorem Unchanged.step {event : Event} {version : UInt64} {content : Bytes}
    (unchanged : Unchanged path version content client) (user : UserPath path) (mounted : Mounted client)
    (formed : client.WellFormed) (keeps : KeepsContent event client) (stepped : client.next event = .ok after) :
    Unchanged path version content after := by
  obtain ⟨env, call⟩ := event
  obtain ⟨⟨onFiles, succeeds⟩, bound, covered⟩ := keeps
  obtain ⟨outcome, ran, rfl⟩ := next_eq_ok stepped
  have done := succeeds outcome ran
  cases call with
  | mknod path mode rdev =>
    exact unchanged.mknod user mounted formed.queue.tidy (bound rfl) (ofHandled_eq_ok ran).1 done
  | unlink path => exact unchanged.unlink user mounted formed.queue.tidy (bound rfl) (ofHandled_eq_ok ran).1 done
  | rename source target => exact unchanged.rename user mounted formed.queue (bound rfl) (ofHandled_eq_ok ran).1 done
  | truncate other size =>
    exact unchanged.truncate mounted (bound rfl) (fun zero same => same ▸ covered zero (same ▸ user))
      (ofHandled_eq_ok ran).1 done
  | write other offset data => exact unchanged.write mounted (bound rfl) (ofHandled_eq_ok ran).1 done
  | syncExecute => exact unchanged.syncExecute user mounted formed.queue (step_syncExecute ran).1
  | relDequeue =>
    obtain rfl := Except.ok.inj ran
    exact ⟨unchanged.bound, unchanged.kept⟩
  | _ => simp [Call.onFiles] at onFiles

/-- What every state of such a run has. -/
structure MountState (client : Client) : Prop where
  mounted : Mounted client
  formed : client.WellFormed
  based : Based client

theorem MountState.step {event : Event} (state : MountState client) (regular : RegularCall event client)
    (bound : event.call.counts = true → client.recfsCnt.toNat + 1 < counterBound)
    (stepped : client.next event = .ok after) : MountState after := by
  refine ⟨state.mounted.step state.formed regular stepped, state.formed.step stepped, state.based.step ⟨bound, ?_⟩
    stepped⟩
  obtain ⟨env, call⟩ := event
  cases call with
  | link source target => exact absurd regular.1 (by simp [Call.onFiles])
  | _ => trivial

theorem MountState.initial (memory : Memory) (dirSize : Path → ℕ) : MountState (Client.initial memory dirSize) :=
  ⟨.initial memory dirSize, .initial memory dirSize, .initial memory dirSize⟩

/-- At any two moments of a run at which a path of the mount has the same version and nothing is
pending for it, the file exists and has the same content. That nothing is pending at the later
moment follows. -/
theorem version_identifies_content (memory : Memory) (dirSize : Path → ℕ) (path : Path) (user : UserPath path)
    (version : UInt64) (first second : Client)
    (run : Transition.Run Client.next KeepsContent (Client.initial memory dirSize) first)
    (later : Transition.Run Client.next KeepsContent first second)
    (known : first.db path = some version) (quiet : first.Quiet path)
    (known' : second.db path = some version) :
    ∃ content, first.fs.read path = some content ∧ second.fs.read path = some content := by
  have state : MountState first := run.invariant MountState
    (fun state keeps stepped => state.step keeps.1 keeps.2.1 stepped) (.initial memory dirSize)
  obtain ⟨content, file⟩ := state.mounted.exist path user version known
  have start : Unchanged path version content first :=
    ⟨state.based.dated.bound path version known, fun _ => ⟨(state.formed.quiet_iff path).mp quiet, file⟩⟩
  have kept := later.invariant (fun client => MountState client ∧ Unchanged path version content client)
    (fun kept keeps stepped => ⟨kept.1.step keeps.1 keeps.2.1 stepped,
      kept.2.step user kept.1.mounted kept.1.formed keeps stepped⟩) ⟨state, start⟩
  exact ⟨content, file, (kept.2.kept known').2⟩

/-- A file is created, written to and sent. -/
def sentSeven : List Event :=
  [⟨.plain, .mknod [47, 97] 33188 0⟩, ⟨.plain, .write [47, 97] 0 [7]⟩, ⟨.plain, .syncExecute⟩]

/-- Another file is created, written to, truncated to size 0 while that is pending, and sent. -/
def anotherTruncated : List Event :=
  [⟨.plain, .mknod [47, 98] 33188 0⟩, ⟨.plain, .write [47, 98] 0 [8]⟩, ⟨.plain, .truncate [47, 98] 0⟩,
    ⟨.plain, .syncExecute⟩]

theorem version_identifies_content_seven :
    ∃ first second, Transition.replay Client.next sentSeven Client.empty = .ok first ∧
      Transition.replay Client.next anotherTruncated first = .ok second ∧
      first.db [47, 97] = some 2 ∧ second.db [47, 97] = some 2 ∧
      ∃ content, first.fs.read [47, 97] = some content ∧ second.fs.read [47, 97] = some content := by
  have replayed : ∃ first, Transition.replay Client.next sentSeven Client.empty = .ok first ∧
      (first.db [47, 97] = some 2 ∧ (first.node first.queue.sq.head).isEmpty = true ∧
        Transition.AllAllowed Client.next KeepsContent anotherTruncated first ∧
        (Transition.replay Client.next anotherTruncated first).passes (fun second => second.db [47, 97] = some 2) =
          true) := Except.exists_ok (by decide +kernel)
  obtain ⟨first, replayed, known, idle, allowed', sends⟩ := replayed
  obtain ⟨second, replayed', known'⟩ := Except.exists_ok sends
  have allowed : Transition.AllAllowed Client.next KeepsContent sentSeven Client.empty := by decide +kernel
  have run := Transition.Run.of_replay sentSeven allowed replayed
  have later := Transition.Run.of_replay anotherTruncated allowed' replayed'
  refine ⟨first, second, replayed, replayed', known, known', ?_⟩
  exact version_identifies_content _ _ [47, 97] (by decide) 2 first second run later known
    ((Client.WellFormed.of_run run).quiet_of_idle idle _) known'

/-- The file is truncated to size 0 after it was sent: nothing is pending and the version stays. -/
theorem truncate_keeps_version :
    ∃ first second, Transition.Run Client.next RegularCall Client.empty first ∧
      Transition.Run Client.next RegularCall first second ∧
      Transition.replay Client.next sentSeven Client.empty = .ok first ∧
      first.next ⟨.plain, .truncate [47, 97] 0⟩ = .ok second ∧
      first.db [47, 97] = some 2 ∧ first.Quiet [47, 97] ∧ second.db [47, 97] = some 2 ∧ second.Quiet [47, 97] ∧
      first.fs.read [47, 97] = some [7] ∧ second.fs.read [47, 97] = some [] := by
  have replayed : ∃ first, Transition.replay Client.next sentSeven Client.empty = .ok first ∧
      (first.db [47, 97] = some 2 ∧ (first.node first.queue.sq.head).isEmpty = true ∧
        first.fs.read [47, 97] = some [7] ∧ RegularCall ⟨.plain, .truncate [47, 97] 0⟩ first ∧
        (first.next ⟨.plain, .truncate [47, 97] 0⟩).passes (fun second => second.db [47, 97] = some 2 ∧
          (second.node second.queue.sq.head).isEmpty = true ∧ second.fs.read [47, 97] = some []) = true) :=
    Except.exists_ok (by decide +kernel)
  obtain ⟨first, replayed, known, idle, file, regular, truncates⟩ := replayed
  obtain ⟨second, stepped, known', idle', file'⟩ := Except.exists_ok truncates
  have allowed : Transition.AllAllowed Client.next RegularCall sentSeven Client.empty := by decide +kernel
  have run := Transition.Run.of_replay sentSeven allowed replayed
  have formed : first.WellFormed := Client.WellFormed.of_run run
  exact ⟨first, second, run, (Transition.Run.refl first).tail regular stepped, replayed, stepped, known,
    formed.quiet_of_idle idle _, known', (formed.step stepped).quiet_of_idle idle' _, file, file'⟩

end DeltaCFS
