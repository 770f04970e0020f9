import DeltaCFS.Proofs.ServerOrder

/-! # Messages delivered again

A job whose worker does not answer is given to another one, so a message can be handled more than once. Every
handler but that of RENAME leaves nothing to do for the second time: its file is there already, and what it
took away is gone.
-/

namespace DeltaCFS

open Bytes

variable {server : ServerEnv} {dir : Dir} {message : Message} {reply : Reply} {workload : Bytes}
  {records : List (ℕ × Bytes)} {position : ℕ}

/-! ## Records written twice -/

theorem pwriteAll_cons (content : Bytes) (record : ℕ × Bytes) (records : List (ℕ × Bytes)) :
    pwriteAll content (record :: records) = pwriteAll (pwrite content record.1 record.2) records := rfl

/-- The records decide an octet, or leave it. -/
theorem getD_pwriteAll (records : List (ℕ × Bytes)) (position : ℕ) :
    ∃ decided : Option UInt8, ∀ content,
      (pwriteAll content records).getD position 0 = decided.getD (content.getD position 0) := by
  induction records with
  | nil => exact ⟨none, fun _ => rfl⟩
  | cons record records ih =>
    obtain ⟨decided, later⟩ := ih
    by_cases covered : record.1 ≤ position ∧ position < record.1 + record.2.length
    · refine ⟨some (decided.getD (record.2.getD (position - record.1) 0)), fun content => ?_⟩
      rw [pwriteAll_cons, later, getD_pwrite, if_pos covered, Option.getD_some]
    · refine ⟨decided, fun content => ?_⟩
      rw [pwriteAll_cons, later, getD_pwrite, if_neg covered]

/-- The records extend a file up to a fixed length. -/
theorem length_pwriteAll (records : List (ℕ × Bytes)) :
    ∃ least, ∀ content, (pwriteAll content records).length = max content.length least := by
  induction records with
  | nil => exact ⟨0, fun content => (Nat.max_zero _).symm⟩
  | cons record records ih =>
    obtain ⟨least, later⟩ := ih
    by_cases empty : record.2 = []
    · refine ⟨least, fun content => ?_⟩
      rw [pwriteAll_cons, later, empty, pwrite_nil]
    · refine ⟨max (record.1 + record.2.length) least, fun content => ?_⟩
      rw [pwriteAll_cons, later, pwrite_length _ _ empty, max_assoc]

@[simp] theorem pwriteAll_twice (content : Bytes) (records : List (ℕ × Bytes)) :
    pwriteAll (pwriteAll content records) records = pwriteAll content records := by
  obtain ⟨least, lengths⟩ := length_pwriteAll records
  refine ext_getD ?_ fun position _ => ?_
  · rw [lengths, lengths, max_assoc, max_self]
  · obtain ⟨decided, octets⟩ := getD_pwriteAll records position
    rw [octets, octets]
    cases decided with
    | none => rfl
    | some octet => rfl

/-! ## Handlers -/

@[simp] theorem Dir.set_self (dir : Dir) (name content : Bytes) : dir.set name content name = some content := if_pos rfl

theorem Dir.set_apart {name other : Bytes} (apart : other ≠ name) (dir : Dir) (content : Bytes) :
    dir.set name content other = dir other := if_neg apart

@[simp] theorem Dir.set_twice (dir : Dir) (name content content' : Bytes) :
    (dir.set name content).set name content' = dir.set name content' := by
  funext other
  simp only [Dir.set]
  split <;> rfl

theorem funcTruncate_again {schedule : Schedule} {statSize : ℤ}
    (apart : ∀ request, readTruncate workload = .ok request → request.oldver ≠ request.newver)
    (served : funcTruncate schedule statSize dir workload = .ok reply) :
    funcTruncate schedule statSize reply.dir workload = .ok reply := by
  obtain ⟨request, read, served⟩ := Except.bind_eq_ok.mp served
  have old (content : Bytes) : dir.set request.newver content request.oldver = dir request.oldver :=
    Dir.set_apart (apart request read) dir content
  -- all that the handler makes of the new file
  obtain ⟨content, written⟩ : ∃ content, reply.dir = dir.set request.newver content := by
    dsimp only at served
    repeat' split at served
    all_goals first
      | exact ⟨_, (congrArg Reply.dir (Except.ok.inj served)).symm.trans (Dir.set_twice ..)⟩
      | exact absurd served (by simp [throw, throwThe, MonadExceptOf.throw, bind, Except.bind])
  rw [funcTruncate, read, written]
  simp only [bind, Except.bind, old, Dir.set_twice] at served ⊢
  exact served

theorem funcNewfile_again {schedule : Schedule} (served : funcNewfile schedule dir workload = .ok reply) :
    funcNewfile schedule reply.dir workload = .ok reply := by
  obtain ⟨request, read, served⟩ := Except.bind_eq_ok.mp served
  obtain ⟨written, looped, served⟩ := Except.bind_eq_ok.mp served
  obtain rfl := Except.ok.inj served
  simp [funcNewfile, read, looped, bind, Except.bind, pure, Except.pure]

theorem funcWrite_again (apart : ∀ request, readWrite workload = .ok request → request.oldver ≠ request.newver)
    (served : funcWrite dir workload = .ok reply) : funcWrite reply.dir workload = .ok reply := by
  obtain ⟨request, read, served⟩ := Except.bind_eq_ok.mp served
  obtain rfl := Except.ok.inj served
  have different := apart request read
  cases found : dir request.oldver with
  | none =>
    simp only [funcWrite, read, bind, Except.bind, pure, Except.pure, found, Dir.set_apart different, Dir.set_self,
      Dir.set_twice, Option.getD_some, pwriteAll_twice]
  | some content =>
    -- the old file has been renamed
    have gone : dir.move request.oldver request.newver content request.oldver = none := by
      simp [Dir.move, different]
    simp only [funcWrite, read, bind, Except.bind, pure, Except.pure, Dir.set_apart different, gone,
      Dir.set_self, Dir.set_twice, Option.getD_some, pwriteAll_twice]

theorem funcDelta_again {patch : Bytes → Bytes → Except Fault (Bool × Bytes)}
    (apart : ∀ request, readDelta workload = .ok request → request.basefile ≠ request.newver)
    (served : funcDelta patch dir workload = .ok reply) : funcDelta patch reply.dir workload = .ok reply := by
  obtain ⟨request, read, served⟩ := Except.bind_eq_ok.mp served
  have different := apart request read
  simp only [Dir.set_apart different] at served
  cases found : dir request.basefile with
  | none =>
    simp only [found] at served
    obtain rfl := Except.ok.inj served
    simp only [funcDelta, read, bind, Except.bind, pure, Except.pure, Dir.set_apart different, found, Dir.set_twice]
  | some orig =>
    simp only [found] at served
    obtain ⟨output, patched, served⟩ := Except.bind_eq_ok.mp served
    obtain rfl := Except.ok.inj served
    simp only [funcDelta, read, bind, Except.bind, pure, Except.pure, Dir.set_apart different, found, Dir.set_twice,
      patched]

theorem funcUnlink_again (served : funcUnlink dir workload = .ok reply) : funcUnlink reply.dir workload = .ok reply := by
  obtain ⟨request, read, served⟩ := Except.bind_eq_ok.mp served
  obtain rfl := Except.ok.inj served
  simp only [funcUnlink, read, bind, Except.bind, pure, Except.pure]

/-- The old file is gone, and the handler calls `exit(-1)`. -/
theorem funcRename_again (apart : ∀ request, readRename workload = .ok request → request.oldver ≠ request.newver)
    (served : funcRename dir workload = .ok reply) : funcRename reply.dir workload = .error .exit := by
  obtain ⟨request, read, served⟩ := Except.bind_eq_ok.mp served
  split at served
  · exact absurd served (by simp [throw, throwThe, MonadExceptOf.throw])
  · next content found =>
    obtain rfl := Except.ok.inj served
    simp [funcRename, read, bind, Except.bind, Dir.move, apart request read, throw, throwThe, MonadExceptOf.throw]

/-- Versions that are not the same have names that are not the same. -/
theorem names_apart {fn : Handler} {first second : ℕ} {name name' : Bytes} (offsets : fn.offsets = [first, second])
    (nodup : (Message.names ⟨fn, workload⟩).Nodup) (read : readVersion workload first = .ok name)
    (read' : readVersion workload second = .ok name') : name ≠ name' := by
  have both : Message.names ⟨fn, workload⟩ = [name, name'] := by
    simp [Message.names, offsets, read, read', Except.toOption]
  rw [both] at nodup
  exact fun same => by simp [same] at nodup

theorem serve_again (nodup : message.names.Nodup) (kind : message.fn ≠ .rename)
    (served : serve server dir message = .ok reply) : serve server reply.dir message = .ok reply := by
  obtain ⟨fn, workload⟩ := message
  cases fn with
  | rename => exact absurd rfl kind
  | unlink => exact funcUnlink_again served
  | truncate =>
    refine funcTruncate_again (fun request read => ?_) served
    exact names_apart rfl nodup (readTruncate_versions read).1 (readTruncate_versions read).2
  | newfile => exact funcNewfile_again served
  | write =>
    refine funcWrite_again (fun request read => ?_) served
    exact names_apart rfl nodup (readWrite_versions read).1 (readWrite_versions read).2
  | delta =>
    change funcDelta serverPatch dir workload = .ok reply at served
    refine funcDelta_again (fun request read => ?_) served
    exact names_apart rfl nodup (readDelta_versions read).1 (readDelta_versions read).2

theorem serve_rename_again (nodup : message.names.Nodup) (kind : message.fn = .rename)
    (served : serve server dir message = .ok reply) : serve server reply.dir message = .error .exit := by
  obtain ⟨fn, workload⟩ := message
  obtain rfl : fn = .rename := kind
  refine funcRename_again (fun request read => ?_) served
  exact names_apart rfl nodup (readRename_versions read).1 (readRename_versions read).2

/-! ## Jobs -/

/-- The same message at another worker, which meets the same. -/
structure GearmanJob.Same (job again : GearmanJob) : Prop where
  server : again.server = job.server
  message : again.message = job.message

/-- A message that may be handled again. -/
structure GearmanJob.Again (job again : GearmanJob) : Prop where
  same : job.Same again
  kind : job.message.fn ≠ .rename
  nodup : job.message.names.Nodup

theorem GearmanJob.run_eq_ok {job : GearmanJob} {result : Dir × Option Bool} (ran : job.run dir = .ok result) :
    serve job.server dir job.message = .ok ⟨result.1, result.2⟩ := by
  obtain ⟨reply, served, same⟩ := Except.bind_eq_ok.mp ran
  obtain rfl := Except.ok.inj same
  exact served

theorem GearmanJob.Again.repeats {job again : GearmanJob} (repeated : job.Again again) :
    Repeats GearmanJob.run (fun job => job.message.names) GearmanJob.message job again where
  key_eq := repeated.same.message
  places_eq := congrArg Message.names repeated.same.message
  done := by
    intro dir middle success ran
    have served := serve_again repeated.nodup repeated.kind (GearmanJob.run_eq_ok ran)
    rw [GearmanJob.run, repeated.same.server, repeated.same.message, served]
    rfl

/-- However often and however late the messages other than RENAME are handled again, as long as no message with a
common version has come in between: the directory is the same afterwards, every message gets the same reply each
time, and the process ends where it would have ended. A RENAME ends it the second time. -/
theorem redelivered (dir : Dir) :
    (∀ jobs jobs', Redelivers (fun job : GearmanJob => job.message.names) GearmanJob.Again jobs jobs' →
      (∀ dir' replies, serverWorker jobs dir = .ok (dir', replies) →
        ∃ replies', serverWorker jobs' dir = .ok (dir', replies') ∧ replies.Sublist replies' ∧
          ∀ entry ∈ replies', ∃ entry' ∈ replies, entry.1.message = entry'.1.message ∧ entry.2 = entry'.2) ∧
        ∀ fault, serverWorker jobs dir = .error fault → serverWorker jobs' dir = .error fault) ∧
      ∀ before between behind (job again : GearmanJob) result, job.message.fn = .rename → job.message.names.Nodup →
        job.Same again → (∀ other ∈ between, other.message.names.Disjoint job.message.names) →
        serverWorker (before ++ job :: between) dir = .ok result →
        serverWorker (before ++ job :: between ++ again :: behind) dir = .error .exit := by
  constructor
  · intro jobs jobs' redelivers
    exact actAll_redelivers GearmanJob.run_local (fun job again => GearmanJob.Again.repeats) redelivers dir
  · intro before between behind job again result kind nodup same apart worked
    refine actAll_again_error GearmanJob.run_local (congrArg Message.names same.message) ?_ apart worked behind
    intro dir middle success ran
    have served := serve_rename_again nodup kind (GearmanJob.run_eq_ok ran)
    rw [GearmanJob.run, same.server, same.message, served]
    rfl

/-- The other client renames its file. -/
def renameSecond : GearmanJob :=
  ⟨3, ⟨wholeTransfers, 0⟩, ⟨.rename, word64 2 ++ (word64 4 ++ (nameField [98] ++ nameField [99]))⟩⟩

/-- The message that overwrites a file comes again behind one of another client; that client's RENAME must not. -/
theorem redelivered_overwrite :
    (∃ result, serverWorker [storeFirst, overwriteFirst, storeSecond, { overwriteFirst with id := 4 }] (fun _ => none) =
        .ok result ∧ result.1 (verToName 3) = some [5, 7]) ∧
      serverWorker [storeSecond, renameSecond, { renameSecond with id := 4 }] (fun _ => none) = .error .exit := by
  obtain ⟨result, worked, held⟩ : ∃ result, serverWorker [storeFirst, overwriteFirst, storeSecond] (fun _ => none) =
      .ok result ∧ result.1 (verToName 3) = some [5, 7] := Except.exists_ok (by decide +kernel)
  obtain ⟨moved, renamed, -⟩ : ∃ moved, serverWorker [storeSecond, renameSecond] (fun _ => none) = .ok moved ∧
      moved.1 (verToName 4) = some [8] := Except.exists_ok (by decide +kernel)
  have second : storeSecond.message.names = [verToName 2] := by decide +kernel
  have overwritten : overwriteFirst.message.names = [verToName 1, verToName 3] := by decide +kernel
  have renames : renameSecond.message.names = [verToName 2, verToName 4] := by decide +kernel
  have different : verToName 2 ∉ [verToName 1, verToName 3] ∧ verToName 1 ≠ verToName 3 := by decide
  have different' : verToName 2 ≠ verToName 4 := by decide
  have repeated : overwriteFirst.Again { overwriteFirst with id := 4 } :=
    ⟨⟨rfl, rfl⟩, by decide, by rw [overwritten]; simpa using different.2⟩
  have again : Redelivers (fun job : GearmanJob => job.message.names) GearmanJob.Again
      [storeFirst, overwriteFirst, storeSecond]
      [storeFirst, overwriteFirst, storeSecond, { overwriteFirst with id := 4 }] := by
    refine .again [storeFirst] [storeSecond] [] repeated fun other member => ?_
    obtain rfl := List.mem_singleton.mp member
    rw [second, overwritten]
    exact List.singleton_disjoint.mpr different.1
  obtain ⟨repeats, exits⟩ := redelivered fun _ => none
  obtain ⟨replies, worked', -, -⟩ := (repeats _ _ again).1 _ _ worked
  refine ⟨⟨_, worked', held⟩, ?_⟩
  exact exits [storeSecond] [] [] renameSecond _ moved rfl (by rw [renames]; simpa using different') ⟨rfl, rfl⟩ (by simp)
    renamed

end DeltaCFS
