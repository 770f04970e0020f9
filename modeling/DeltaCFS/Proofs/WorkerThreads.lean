import DeltaCFS.Model.ServerCalls
import DeltaCFS.Proofs.Redelivery

/-! # Workers at the same time

The worker threads do not wait for one another: between two system calls of a handler there may be those of
others. Alone, the calls of a handler do what the handler does; and while no two of the messages that are being
handled name a common version, their calls may come in any order.
-/

namespace DeltaCFS

open Bytes

variable {dir dir' : Dir} {places : List Bytes} {name : Bytes} {workload : Bytes} {schedule : Schedule}

/-! ## A handler alone -/

@[simp] theorem appendCall_set (dir : Dir) (name content data : Bytes) :
    appendCall name data (dir.set name content) = dir.set name (content ++ data) := by
  rw [appendCall, Dir.set_self, Dir.set_twice, Option.getD_some]

/-- What the calls give back, as the handler gives it. -/
def Reply.result (reply : Reply) : Dir × Option Bool := (reply.dir, reply.success)

theorem sendfileCalls_run {oldver newver : Bytes} (apart : oldver ≠ newver) (total : ℕ) (behind : WorkerCalls)
    (fuel k sent : ℕ) (copied : Bytes) :
    (sendfileCalls schedule oldver newver total behind fuel k sent).run (dir.set newver copied) =
      behind.run (dir.set newver (sendfileLoop schedule ((dir oldver).getD []) total fuel k sent copied)) := by
  induction fuel generalizing k sent copied with
  | zero => rfl
  | succ fuel ih =>
    rw [sendfileCalls, sendfileLoop]
    split
    · rw [Calls.run, Dir.set_apart apart, appendCall_set]
      exact ih ..
    · rfl

theorem writeCalls_run (newver payload : Bytes) (fuel k writeBytes : ℕ) (written : Bytes) :
    (writeCalls schedule newver payload fuel k writeBytes).run (dir.set newver written) =
      (writeLoop schedule payload fuel k writeBytes written).map fun written => (dir.set newver written, some true) := by
  induction fuel generalizing k writeBytes written with
  | zero => rfl
  | succ fuel ih =>
    rw [writeCalls, writeLoop]
    split
    · rw [Calls.run, appendCall_set]
      dsimp only
      split
      · exact ih ..
      · rfl
    · rfl

theorem pwriteCalls_run (newver content : Bytes) (records : List (ℕ × Bytes)) :
    (pwriteCalls newver records).run (dir.set newver content) =
      .ok (dir.set newver (pwriteAll content records), some true) := by
  induction records generalizing content with
  | nil => rfl
  | cons record records ih =>
    rw [pwriteCalls, Calls.run, Dir.set_self, Dir.set_twice, Option.getD_some, pwriteAll_cons]
    exact ih _

theorem funcTruncateCalls_run {statSize : ℤ}
    (apart : ∀ request, readTruncate workload = .ok request → request.oldver ≠ request.newver) (dir : Dir) :
    (funcTruncateCalls schedule statSize workload).run dir =
      (funcTruncate schedule statSize dir workload).map Reply.result := by
  cases read : readTruncate workload with
  | error fault => simp only [funcTruncateCalls, funcTruncate, read, Calls.run, bind, Except.bind, Except.map]
  | ok request =>
    have different := apart request read
    have old : dir.set request.newver [] request.oldver = dir request.oldver := Dir.set_apart different dir []
    have copies (total : ℕ) (behind : WorkerCalls) (fuel : ℕ) :=
      @sendfileCalls_run dir schedule _ _ different total behind fuel 0 0 []
    simp only [funcTruncateCalls, funcTruncate, read, Calls.run, id, old, bind, Except.bind]
    cases found : dir request.oldver with
    | none =>
      simp only [found, Option.isSome_none, Option.getD_none] at copies ⊢
      simp only [Bool.false_eq_true, ↓reduceIte, Bool.not_false, Bool.true_and]
      split
      · split
        · rfl
        · simp [copies, Calls.run, Except.map, pure, Except.pure, Reply.result]
      · split
        · rfl
        · simp [copies, Calls.run, Except.map, pure, Except.pure, Reply.result]
    | some content =>
      simp only [found, Option.isSome_some, Option.getD_some] at copies ⊢
      simp only [↓reduceIte, Bool.not_true, Bool.false_and, Bool.false_eq_true]
      split
      · simp [copies, Calls.run, Except.map, pure, Except.pure, Reply.result]
      · simp [copies, Calls.run, Except.map, pure, Except.pure, Reply.result]

theorem funcNewfileCalls_run (dir : Dir) :
    (funcNewfileCalls schedule workload).run dir = (funcNewfile schedule dir workload).map Reply.result := by
  cases read : readNewfile workload with
  | error fault => simp only [funcNewfileCalls, funcNewfile, read, Calls.run, bind, Except.bind, Except.map]
  | ok request =>
    simp only [funcNewfileCalls, funcNewfile, read, Calls.run, writeCalls_run, bind, Except.bind]
    cases writeLoop schedule request.payload request.payload.length 0 0 [] with
    | error fault => rfl
    | ok written => rfl

theorem funcWriteCalls_run (dir : Dir) :
    (funcWriteCalls workload).run dir = (funcWrite dir workload).map Reply.result := by
  cases read : readWrite workload with
  | error fault => simp only [funcWriteCalls, funcWrite, read, Calls.run, bind, Except.bind, Except.map]
  | ok request =>
    simp only [funcWriteCalls, funcWrite, read, Calls.run, appendCall, pwriteCalls_run, bind, Except.bind, renameCall,
      List.append_nil]
    rfl

theorem funcDeltaCalls_run (patch : Bytes → Bytes → Except Fault (Bool × Bytes)) (dir : Dir) :
    (funcDeltaCalls patch workload).run dir = (funcDelta patch dir workload).map Reply.result := by
  cases read : readDelta workload with
  | error fault => simp only [funcDeltaCalls, funcDelta, read, Calls.run, bind, Except.bind, Except.map]
  | ok request =>
    simp only [funcDeltaCalls, funcDelta, read, Calls.run, id, bind, Except.bind]
    cases found : dir.set request.newver [] request.basefile with
    | none => rfl
    | some orig =>
      simp only [Option.isNone_some, Bool.false_eq_true, ↓reduceIte, Calls.run, id, found, Option.getD_some]
      cases patch orig request.delta with
      | error fault => rfl
      | ok output => rfl

theorem funcRenameCalls_run (dir : Dir) :
    (funcRenameCalls workload).run dir = (funcRename dir workload).map Reply.result := by
  cases read : readRename workload with
  | error fault => simp only [funcRenameCalls, funcRename, read, Calls.run, bind, Except.bind, Except.map]
  | ok request =>
    simp only [funcRenameCalls, funcRename, read, Calls.run, renameCall, bind, Except.bind]
    cases dir request.oldver with
    | none => rfl
    | some content => rfl

theorem funcUnlinkCalls_run (dir : Dir) :
    (funcUnlinkCalls workload).run dir = (funcUnlink dir workload).map Reply.result := by
  cases read : readUnlink workload with
  | error fault => simp only [funcUnlinkCalls, funcUnlink, read, Calls.run, bind, Except.bind, Except.map]
  | ok request => simp only [funcUnlinkCalls, funcUnlink, read, Calls.run, bind, Except.bind]; rfl

/-- Alone, the calls of a handler do what the handler does. -/
theorem serveCalls_run (server : ServerEnv) {message : Message} (nodup : message.names.Nodup) (dir : Dir) :
    (serveCalls server message).run dir = (serve server dir message).map Reply.result := by
  obtain ⟨fn, workload⟩ := message
  cases fn with
  | rename => exact funcRenameCalls_run dir
  | unlink => exact funcUnlinkCalls_run dir
  | truncate =>
    refine funcTruncateCalls_run (fun request read => ?_) dir
    exact names_apart rfl nodup (readTruncate_versions read).1 (readTruncate_versions read).2
  | newfile => exact funcNewfileCalls_run dir
  | write => exact funcWriteCalls_run dir
  | delta => exact funcDeltaCalls_run serverPatch dir

/-! ## The files of a handler -/

theorem appendCall_splice (member : name ∈ places) (data : Bytes) (inner outer : Dir) :
    appendCall name data (splice places inner outer) = splice places (appendCall name data inner) outer := by
  rw [appendCall, splice_of_mem member, Dir.set_splice member]
  rfl

theorem renameCall_splice {source target : Bytes} (member : source ∈ places) (member' : target ∈ places)
    (inner outer : Dir) :
    renameCall source target (splice places inner outer) = splice places (renameCall source target inner) outer := by
  simp only [renameCall, splice_of_mem member]
  cases inner source with
  | none => rfl
  | some content => exact Dir.move_splice member member' inner outer content

theorem sendfileCalls_uses {oldver newver : Bytes} (old : oldver ∈ places) (new : newver ∈ places) (total : ℕ)
    {behind : WorkerCalls} (uses : behind.Uses places) (fuel k sent : ℕ) :
    (sendfileCalls schedule oldver newver total behind fuel k sent).Uses places := by
  induction fuel generalizing k sent with
  | zero => exact uses
  | succ fuel ih =>
    rw [sendfileCalls]
    split
    · refine .call (fun inner outer => ?_) (fun _ _ => rfl) fun _ => ih _ _
      rw [splice_of_mem old, appendCall_splice new]
    · exact uses

theorem writeCalls_uses {newver : Bytes} (new : newver ∈ places) (payload : Bytes) (fuel k writeBytes : ℕ) :
    (writeCalls schedule newver payload fuel k writeBytes).Uses places := by
  induction fuel generalizing k writeBytes with
  | zero => exact .ret _
  | succ fuel ih =>
    rw [writeCalls]
    split
    · refine .call (appendCall_splice new _) (fun _ _ => rfl) fun _ => ?_
      split
      · exact ih _ _
      · exact .fail _
    · exact .ret _

theorem pwriteCalls_uses {newver : Bytes} (new : newver ∈ places) (records : List (ℕ × Bytes)) :
    (pwriteCalls newver records).Uses places := by
  induction records with
  | nil => exact .ret _
  | cons record records ih =>
    refine .call (fun inner outer => ?_) (fun _ _ => rfl) fun _ => ih
    rw [splice_of_mem new, Dir.set_splice new]

theorem funcTruncateCalls_uses {statSize : ℤ}
    (uses : ∀ request, readTruncate workload = .ok request → request.oldver ∈ places ∧ request.newver ∈ places) :
    (funcTruncateCalls schedule statSize workload).Uses places := by
  rw [funcTruncateCalls]
  split
  · exact .fail _
  · next request read =>
    obtain ⟨old, new⟩ := uses request read
    have same (inner outer : Dir) : splice places inner outer request.oldver = inner request.oldver := splice_of_mem old ..
    refine .call (fun _ _ => rfl) (fun inner outer => by simp only [same]) fun before => ?_
    refine .call (fun inner outer => Dir.set_splice new inner outer []) (fun _ _ => rfl) fun _ => ?_
    refine .call (fun _ _ => rfl) (fun inner outer => by simp only [same]) fun now => ?_
    have cut : Calls.Uses places (.call (fun dir => dir.set request.newver (resize request.truncateLen
        ((dir request.newver).getD []))) fun _ => .ret (some true) : WorkerCalls) :=
      .call (fun inner outer => by rw [splice_of_mem new, Dir.set_splice new]) (fun _ _ => rfl) fun _ => .ret _
    generalize (if (before request.oldver).isSome then (now request.oldver).getD [] else []) = content
    dsimp only
    generalize (if (before request.oldver).isSome then (content.length : ℤ) else statSize) = oldSize
    split
    · split
      · exact .fail _
      · exact sendfileCalls_uses old new _ (.ret _) _ _ _
    · split
      · exact .fail _
      · exact sendfileCalls_uses old new _ cut _ _ _

theorem funcNewfileCalls_uses (uses : ∀ request, readNewfile workload = .ok request → request.newver ∈ places) :
    (funcNewfileCalls schedule workload).Uses places := by
  rw [funcNewfileCalls]
  split
  · exact .fail _
  · next request read =>
    have new := uses request read
    exact .call (fun inner outer => Dir.set_splice new inner outer []) (fun _ _ => rfl) fun _ => writeCalls_uses new _ _ _ _

theorem funcWriteCalls_uses
    (uses : ∀ request, readWrite workload = .ok request → request.oldver ∈ places ∧ request.newver ∈ places) :
    (funcWriteCalls workload).Uses places := by
  rw [funcWriteCalls]
  split
  · exact .fail _
  · next request read =>
    obtain ⟨old, new⟩ := uses request read
    refine .call (renameCall_splice old new) (fun _ _ => rfl) fun _ => ?_
    exact .call (appendCall_splice new _) (fun _ _ => rfl) fun _ => pwriteCalls_uses new _

theorem funcDeltaCalls_uses (patch : Bytes → Bytes → Except Fault (Bool × Bytes))
    (uses : ∀ request, readDelta workload = .ok request → request.basefile ∈ places ∧ request.newver ∈ places) :
    (funcDeltaCalls patch workload).Uses places := by
  rw [funcDeltaCalls]
  split
  · exact .fail _
  · next request read =>
    obtain ⟨base, new⟩ := uses request read
    have same (inner outer : Dir) : splice places inner outer request.basefile = inner request.basefile :=
      splice_of_mem base ..
    refine .call (fun inner outer => Dir.set_splice new inner outer []) (fun _ _ => rfl) fun _ => ?_
    refine .call (fun _ _ => rfl) (fun inner outer => by simp only [same]) fun found => ?_
    split
    · exact .ret _
    · refine .call (fun _ _ => rfl) (fun inner outer => by simp only [same]) fun read => ?_
      split
      · exact .fail _
      · exact .call (fun inner outer => Dir.set_splice new inner outer _) (fun _ _ => rfl) fun _ => .ret _

theorem funcRenameCalls_uses
    (uses : ∀ request, readRename workload = .ok request → request.oldver ∈ places ∧ request.newver ∈ places) :
    (funcRenameCalls workload).Uses places := by
  rw [funcRenameCalls]
  split
  · exact .fail _
  · next request read =>
    obtain ⟨old, new⟩ := uses request read
    refine .call (renameCall_splice old new) (fun inner outer => by simp only [splice_of_mem old]) fun found => ?_
    split
    · exact .ret _
    · exact .fail _

theorem funcUnlinkCalls_uses : (funcUnlinkCalls workload).Uses places := by
  rw [funcUnlinkCalls]
  split
  · exact .fail _
  · exact .ret _

/-- The calls of a handler are about the files that its message names. -/
theorem serveCalls_uses (server : ServerEnv) (message : Message) :
    (serveCalls server message).Uses message.names := by
  obtain ⟨fn, workload⟩ := message
  have uses {offset : ℕ} {version : Bytes} (inside : offset ∈ fn.offsets)
      (read : readVersion workload offset = .ok version) : version ∈ Message.names ⟨fn, workload⟩ :=
    Message.mem_names inside read
  cases fn with
  | rename =>
    refine funcRenameCalls_uses fun request read => ?_
    exact ⟨uses (by decide) (readRename_versions read).1, uses (by decide) (readRename_versions read).2⟩
  | unlink => exact funcUnlinkCalls_uses
  | truncate =>
    refine funcTruncateCalls_uses fun request read => ?_
    exact ⟨uses (by decide) (readTruncate_versions read).1, uses (by decide) (readTruncate_versions read).2⟩
  | newfile => exact funcNewfileCalls_uses fun request read => uses (by decide) (readNewfile_version read)
  | write =>
    refine funcWriteCalls_uses fun request read => ?_
    exact ⟨uses (by decide) (readWrite_versions read).1, uses (by decide) (readWrite_versions read).2⟩
  | delta =>
    refine funcDeltaCalls_uses serverPatch fun request read => ?_
    exact ⟨uses (by decide) (readDelta_versions read).1, uses (by decide) (readDelta_versions read).2⟩

/-! ## Interleavings -/

/-- One worker thread for each of the jobs. -/
def workerThreads (jobs : List GearmanJob) (worker : Fin jobs.length) : WorkerCalls :=
  serveCalls (jobs.get worker).server (jobs.get worker).message

/-- While no two of the messages name a common version, the system calls of their handlers may come in any order:
no handler fails that would not fail alone, each has returned once it has had as many turns as it makes calls, with
the reply that it gives when they come one after the other, and once all of them have, the directory is the same. -/
theorem any_interleaving (jobs : List GearmanJob) (dir dir' : Dir) (replies : List (GearmanJob × Option Bool))
    (nodup : ∀ job ∈ jobs, job.message.names.Nodup)
    (apart : jobs.Pairwise fun first second => first.message.names.Disjoint second.message.names)
    (worked : serverWorker jobs dir = .ok (dir', replies)) (turns : List (Fin jobs.length)) :
    ∃ now left, interleave turns (workerThreads jobs) dir = .ok (now, left) ∧
      (∀ worker, (workerThreads jobs worker).count dir ≤ turns.count worker → (left worker).value?.isSome) ∧
      (∀ worker success, (left worker).value? = some success → replies[worker.val]? = some (jobs.get worker, success)) ∧
      ((∀ worker, (left worker).value?.isSome) → now = dir') := by
  choose alone value ran replied ends using actAll_alone GearmanJob.run_local apart worked
  have pending : Pending (fun worker => (jobs.get worker).message.names) (fun worker => (alone worker, value worker))
      (workerThreads jobs) dir :=
    .of_run fun worker => (serveCalls_run _ (nodup _ (jobs.get_mem worker)) dir).trans (ran worker)
  have apart' : ∀ first second, first ≠ second →
      (jobs.get first).message.names.Disjoint (jobs.get second).message.names := by
    intro first second different
    rcases lt_or_gt_of_ne different with before | behind
    · exact List.pairwise_iff_get.mp apart first second before
    · exact List.disjoint_comm.mp (List.pairwise_iff_get.mp apart second first behind)
  obtain ⟨now, left, went, pending', counts, frame⟩ :=
    interleave_pending apart' (fun worker => serveCalls_uses _ _) pending turns
  refine ⟨now, left, went, fun worker had => ?_, fun worker success returned => ?_, fun done => ?_⟩
  · exact pending'.returned ((counts worker).trans (Nat.sub_eq_zero_of_le had))
  · obtain ⟨rfl, -⟩ := pending'.ret returned
    exact replied worker
  · funext place
    by_cases named : ∃ worker, place ∈ (jobs.get worker).message.names
    · obtain ⟨worker, inside⟩ := named
      obtain ⟨success, returned⟩ := Option.isSome_iff_exists.mp (done worker)
      rw [(pending'.ret returned).2 place inside, ends worker place inside]
    · rw [frame place fun worker inside => named ⟨worker, inside⟩]
      by_contra changed
      obtain ⟨job, member, touches⟩ := actAll_frame GearmanJob.run_local worked (Ne.symm changed)
      obtain ⟨worker, rfl⟩ := List.get_of_mem member
      exact named ⟨worker, touches⟩

/-- Two clients store their files at the same time. -/
theorem any_interleaving_stores :
    ∃ result left, serverWorker [storeFirst, storeSecond] (fun _ => none) = .ok result ∧
      interleave [0, 1, 1, 0] (workerThreads [storeFirst, storeSecond]) (fun _ => none) = .ok (result.1, left) ∧
      result.1 (verToName 1) = some [5, 6] ∧ result.1 (verToName 2) = some [8] := by
  obtain ⟨result, worked, held⟩ : ∃ result, serverWorker [storeFirst, storeSecond] (fun _ => none) = .ok result ∧
      (result.1 (verToName 1) = some [5, 6] ∧ result.1 (verToName 2) = some [8]) := Except.exists_ok (by decide +kernel)
  have first : storeFirst.message.names = [verToName 1] := by decide +kernel
  have second : storeSecond.message.names = [verToName 2] := by decide +kernel
  have different : verToName 1 ≠ verToName 2 := by decide
  have enough : ∀ worker, (workerThreads [storeFirst, storeSecond] worker).count (fun _ => none) ≤
      [0, 1, 1, 0].count worker := by decide +kernel
  obtain ⟨now, left, went, returns, -, done⟩ := any_interleaving [storeFirst, storeSecond] (fun _ => none) result.1
    result.2 (by simp [first, second]) (by simp [first, second, different]) worked [0, 1, 1, 0]
  obtain rfl := done fun worker => returns worker (enough worker)
  exact ⟨result, left, worked, went, held⟩

end DeltaCFS
