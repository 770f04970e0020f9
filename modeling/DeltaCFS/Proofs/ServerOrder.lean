import DeltaCFS.Proofs.Delivery
import DeltaCFS.ToMathlib.Footprint

/-! # Messages in any order

The server runs several worker threads, and a handler trusts the octets of its message. Whatever they are,
it looks at and changes the files of the versions in front of the message only. So no sequence of messages
touches a file whose version none of them names, and messages without a common version may be handled in any
order.
-/

namespace DeltaCFS

open Bytes

variable {server : ServerEnv} {dir dir' : Dir} {message : Message} {reply : Reply} {places : List Bytes} {name : Bytes}

/-- Where the versions stand whose files the handler uses. -/
def Handler.offsets : Handler → List ℕ
  | .rename | .truncate | .write => [0, 8]
  | .newfile => [0]
  | .delta => [0, 16]
  | .unlink => []

/-- The names of the files that the handler uses. -/
def Message.names (message : Message) : List Bytes :=
  message.fn.offsets.filterMap fun offset => (readVersion message.workload offset).toOption

/-- The name of the file that the handler makes. -/
def Message.makes (message : Message) : Option Bytes :=
  match message.fn with
  | .rename | .truncate | .write => (readVersion message.workload 8).toOption
  | .newfile => (readVersion message.workload 0).toOption
  | .delta => (readVersion message.workload 16).toOption
  | .unlink => none

/-- The name of the file that the handler may take away. -/
def Message.takes (message : Message) : Option Bytes :=
  match message.fn with
  | .rename | .write => (readVersion message.workload 0).toOption
  | .truncate | .newfile | .delta | .unlink => none

/-- A message at one of the workers, and what its handler meets. -/
structure GearmanJob where
  id : ℕ
  server : ServerEnv
  message : Message

/-- A handler, with what it gives back. -/
def GearmanJob.run (job : GearmanJob) (dir : Dir) : Except Fault (Dir × Option Bool) :=
  (serve job.server dir job.message).map fun reply => (reply.dir, reply.success)

/-- The server works on the messages one after the other, as long as no handler ends the process. -/
abbrev serverWorker : List GearmanJob → Dir → Except Fault (Dir × List (GearmanJob × Option Bool)) :=
  actAll GearmanJob.run

/-! ## Handlers -/

theorem Dir.set_splice (member : name ∈ places) (dir dir' : Dir) (content : Bytes) :
    Dir.set (splice places dir dir') name content = splice places (dir.set name content) dir' := by
  funext other
  by_cases inside : other ∈ places
  · rw [splice_of_mem inside, Dir.set, Dir.set, splice_of_mem inside]
  · have apart : other ≠ name := fun same => inside (same ▸ member)
    rw [splice_of_notMem inside, Dir.set, if_neg apart, splice_of_notMem inside]

theorem Dir.move_splice {source target : Bytes} (member : source ∈ places) (member' : target ∈ places) (dir dir' : Dir)
    (content : Bytes) :
    Dir.move (splice places dir dir') source target content = splice places (dir.move source target content) dir' := by
  by_cases same : source = target
  · rw [Dir.move, if_pos same, Dir.move, if_pos same]
  funext other
  by_cases inside : other ∈ places
  · rw [splice_of_mem inside, Dir.move, if_neg same, Dir.move, if_neg same, splice_of_mem inside]
  · have apart : other ≠ target ∧ other ≠ source := ⟨fun same => inside (same ▸ member'), fun same => inside (same ▸ member)⟩
    rw [splice_of_notMem inside, Dir.move, if_neg same, if_neg apart.1, if_neg apart.2, splice_of_notMem inside]

/-- A version that the handler has read. -/
theorem Message.mem_names {offset : ℕ} (inside : offset ∈ message.fn.offsets)
    (read : readVersion message.workload offset = .ok name) : name ∈ message.names :=
  List.mem_filterMap.mpr ⟨offset, inside, by rw [read]; rfl⟩

/-- A reply, with other files elsewhere. -/
def Reply.within (places : List Bytes) (outer : Dir) (reply : Reply) : Reply :=
  { reply with dir := splice places reply.dir outer }

section Handlers

variable (places : List Bytes) (inner outer : Dir) (workload : Bytes)

theorem funcRename_within
    (uses : ∀ request, readRename workload = .ok request → request.oldver ∈ places ∧ request.newver ∈ places) :
    funcRename (splice places inner outer) workload = (funcRename inner workload).map (Reply.within places outer) := by
  cases read : readRename workload with
  | error fault => simp only [funcRename, read, bind, Except.bind, Except.map]
  | ok request =>
    obtain ⟨old, new⟩ := uses request read
    simp only [funcRename, read, bind, Except.bind, splice_of_mem old]
    split
    · rfl
    · next content found => simp only [pure, Except.pure, Except.map, Reply.within, Dir.move_splice old new]

theorem funcUnlink_within :
    funcUnlink (splice places inner outer) workload = (funcUnlink inner workload).map (Reply.within places outer) := by
  cases read : readUnlink workload with
  | error fault => simp only [funcUnlink, read, bind, Except.bind, Except.map]
  | ok request => simp only [funcUnlink, read, bind, Except.bind, pure, Except.pure, Except.map, Reply.within]

theorem funcTruncate_within (schedule : Schedule) (statSize : ℤ)
    (uses : ∀ request, readTruncate workload = .ok request → request.oldver ∈ places ∧ request.newver ∈ places) :
    funcTruncate schedule statSize (splice places inner outer) workload =
      (funcTruncate schedule statSize inner workload).map (Reply.within places outer) := by
  cases read : readTruncate workload with
  | error fault => simp only [funcTruncate, read, bind, Except.bind, Except.map]
  | ok request =>
    obtain ⟨old, new⟩ := uses request read
    simp only [funcTruncate, read, bind, Except.bind, Dir.set_splice new, splice_of_mem old]
    repeat' split
    all_goals simp only [pure, Except.pure, Except.map, Reply.within]

theorem funcNewfile_within (schedule : Schedule)
    (uses : ∀ request, readNewfile workload = .ok request → request.newver ∈ places) :
    funcNewfile schedule (splice places inner outer) workload =
      (funcNewfile schedule inner workload).map (Reply.within places outer) := by
  cases read : readNewfile workload with
  | error fault => simp only [funcNewfile, read, bind, Except.bind, Except.map]
  | ok request =>
    simp only [funcNewfile, read, bind, Except.bind]
    split
    · rfl
    · simp only [pure, Except.pure, Except.map, Reply.within, Dir.set_splice (uses request read)]

theorem funcWrite_within
    (uses : ∀ request, readWrite workload = .ok request → request.oldver ∈ places ∧ request.newver ∈ places) :
    funcWrite (splice places inner outer) workload = (funcWrite inner workload).map (Reply.within places outer) := by
  cases read : readWrite workload with
  | error fault => simp only [funcWrite, read, bind, Except.bind, Except.map]
  | ok request =>
    obtain ⟨old, new⟩ := uses request read
    simp only [funcWrite, read, bind, Except.bind, splice_of_mem old]
    split
    · next content found =>
      simp only [pure, Except.pure, Except.map, Reply.within, Dir.move_splice old new, Dir.set_splice new,
        splice_of_mem new]
    · simp only [pure, Except.pure, Except.map, Reply.within, Dir.set_splice new, splice_of_mem new]

theorem funcDelta_within (patch : Bytes → Bytes → Except Fault (Bool × Bytes))
    (uses : ∀ request, readDelta workload = .ok request → request.basefile ∈ places ∧ request.newver ∈ places) :
    funcDelta patch (splice places inner outer) workload =
      (funcDelta patch inner workload).map (Reply.within places outer) := by
  cases read : readDelta workload with
  | error fault => simp only [funcDelta, read, bind, Except.bind, Except.map]
  | ok request =>
    obtain ⟨base, new⟩ := uses request read
    simp only [funcDelta, read, bind, Except.bind, Dir.set_splice new, splice_of_mem base]
    split
    · rfl
    · next content found =>
      cases patch content request.delta with
      | error fault => rfl
      | ok output => simp only [pure, Except.pure, Except.map, Reply.within]

end Handlers

/-- A handler is local to the files that the message names. -/
theorem GearmanJob.run_local (job : GearmanJob) : LocalTo job.message.names job.run := by
  intro inner outer
  obtain ⟨id, server, message⟩ := job
  have within : serve server (splice message.names inner outer) message =
      (serve server inner message).map (Reply.within message.names outer) := by
    obtain ⟨fn, workload⟩ := message
    have uses {offset : ℕ} {version : Bytes} (inside : offset ∈ fn.offsets)
        (read : readVersion workload offset = .ok version) : version ∈ Message.names ⟨fn, workload⟩ :=
      Message.mem_names inside read
    cases fn with
    | rename =>
      refine funcRename_within _ inner outer workload fun request read => ?_
      obtain ⟨old, new⟩ := readRename_versions read
      exact ⟨uses (by decide) old, uses (by decide) new⟩
    | unlink => exact funcUnlink_within _ inner outer workload
    | truncate =>
      refine funcTruncate_within _ inner outer workload _ _ fun request read => ?_
      obtain ⟨old, new⟩ := readTruncate_versions read
      exact ⟨uses (by decide) old, uses (by decide) new⟩
    | newfile =>
      exact funcNewfile_within _ inner outer workload _ fun request read => uses (by decide) (readNewfile_version read)
    | write =>
      refine funcWrite_within _ inner outer workload fun request read => ?_
      obtain ⟨old, new⟩ := readWrite_versions read
      exact ⟨uses (by decide) old, uses (by decide) new⟩
    | delta =>
      refine funcDelta_within _ inner outer workload serverPatch fun request read => ?_
      obtain ⟨base, new⟩ := readDelta_versions read
      exact ⟨uses (by decide) base, uses (by decide) new⟩
  rw [GearmanJob.run, within, GearmanJob.run]
  cases serve server inner message with
  | error fault => rfl
  | ok reply => rfl

/-! ## What a sequence of messages can do -/

/-- The file names that the messages can reach are sixteen hexadecimal digits. -/
def IsVersionName (name : Bytes) : Prop :=
  name.length = 16 ∧ ∀ octet ∈ name, 48 ≤ octet ∧ octet ≤ 57 ∨ 97 ≤ octet ∧ octet ≤ 102

theorem verToName_isVersionName (version : UInt64) : IsVersionName (verToName version) := by
  have digits : ∀ value : Fin 16, 48 ≤ hexDigit value.val ∧ hexDigit value.val ≤ 57 ∨
      97 ≤ hexDigit value.val ∧ hexDigit value.val ≤ 102 := by decide
  refine ⟨by simp [verToName], fun octet member => ?_⟩
  obtain ⟨i, -, rfl⟩ := List.mem_map.mp member
  exact digits ⟨_, Nat.mod_lt _ (by decide)⟩

theorem Message.names_isVersionName (member : name ∈ message.names) : IsVersionName name := by
  obtain ⟨offset, -, read⟩ := List.mem_filterMap.mp member
  cases found : readVersion message.workload offset with
  | error fault => exact absurd (found ▸ read) (by simp [Except.toOption])
  | ok version =>
    obtain rfl : version = name := by simpa [found, Except.toOption] using read
    obtain ⟨number, -, same⟩ := Except.bind_eq_ok.mp found
    obtain rfl := Except.ok.inj same
    exact verToName_isVersionName _

/-- Which files may be there afterwards, and which ones may not. -/
structure Existing (jobs : List GearmanJob) (dir dir' : Dir) : Prop where
  made : ∀ name, (dir' name).isSome → (dir name).isSome ∨ ∃ job ∈ jobs, job.message.makes = some name
  taken : ∀ name, (dir name).isSome → (dir' name).isSome ∨ ∃ job ∈ jobs, job.message.takes = some name

namespace Existing

variable {job : GearmanJob} {jobs jobs' : List GearmanJob} {middle last : Dir} {new : Bytes}

theorem refl (dir : Dir) : Existing [] dir dir := ⟨fun _ => .inl, fun _ => .inl⟩

theorem trans (first : Existing jobs dir middle) (second : Existing jobs' middle last) :
    Existing (jobs ++ jobs') dir last := by
  constructor
  · intro name there
    rcases second.made name there with there | ⟨job, member, makes⟩
    · exact (first.made name there).imp_right fun ⟨job, member, makes⟩ => ⟨job, List.mem_append_left _ member, makes⟩
    · exact .inr ⟨job, List.mem_append_right _ member, makes⟩
  · intro name there
    rcases first.taken name there with there | ⟨job, member, takes⟩
    · exact (second.taken name there).imp_right fun ⟨job, member, takes⟩ => ⟨job, List.mem_append_right _ member, takes⟩
    · exact .inr ⟨job, List.mem_append_left _ member, takes⟩

/-- Writing the new file. -/
theorem set (existing : Existing [job] dir dir') (makes : job.message.makes = some new) (content : Bytes) :
    Existing [job] dir (dir'.set new content) := by
  constructor
  · intro name there
    rcases (Dir.set_isSome ..).mp there with rfl | there
    · exact .inr ⟨job, List.mem_singleton_self job, makes⟩
    · exact existing.made name there
  · intro name there
    exact (existing.taken name there).imp_left fun there => (Dir.set_isSome ..).mpr (.inr there)

/-- Renaming the old file. -/
theorem of_move {old content : Bytes} (found : dir old = some content) (makes : job.message.makes = some new)
    (takes : job.message.takes = some old) : Existing [job] dir (dir.move old new content) := by
  constructor
  · intro name there
    rcases (Dir.move_isSome found name).mp there with rfl | there
    · exact .inr ⟨job, List.mem_singleton_self job, makes⟩
    · exact .inl there.2
  · intro name there
    by_cases same : name = old
    · exact .inr ⟨job, List.mem_singleton_self job, takes.trans (congrArg some same.symm)⟩
    · exact .inl ((Dir.move_isSome found name).mpr (.inr ⟨same, there⟩))

/-- Looking at files only. -/
theorem same (job : GearmanJob) (dir : Dir) : Existing [job] dir dir := ⟨fun _ => .inl, fun _ => .inl⟩

end Existing

theorem serve_existing {job : GearmanJob} (served : serve job.server dir job.message = .ok reply) :
    Existing [job] dir reply.dir := by
  obtain ⟨id, server, fn, workload⟩ := job
  cases fn with
  | rename =>
    obtain ⟨request, read, served⟩ := Except.bind_eq_ok.mp served
    obtain ⟨old, new⟩ := readRename_versions read
    split at served
    · exact absurd served (by simp [throw, throwThe, MonadExceptOf.throw])
    · next content found =>
      obtain rfl := Except.ok.inj served
      exact .of_move found (by simp [Message.makes, new, Except.toOption]) (by simp [Message.takes, old, Except.toOption])
  | unlink =>
    obtain ⟨request, -, served⟩ := Except.bind_eq_ok.mp served
    obtain rfl := Except.ok.inj served
    exact .same _ dir
  | truncate =>
    obtain ⟨request, read, served⟩ := Except.bind_eq_ok.mp served
    obtain ⟨-, new⟩ := readTruncate_versions read
    have makes : Message.makes ⟨.truncate, workload⟩ = some request.newver := by simp [Message.makes, new, Except.toOption]
    dsimp only at served
    repeat' split at served
    all_goals first
      | obtain rfl := Except.ok.inj served
        exact ((Existing.same _ dir).set makes _).set makes _
      | exact absurd served (by simp [throw, throwThe, MonadExceptOf.throw, bind, Except.bind])
  | newfile =>
    obtain ⟨request, read, served⟩ := Except.bind_eq_ok.mp served
    obtain ⟨written, -, served⟩ := Except.bind_eq_ok.mp served
    obtain rfl := Except.ok.inj served
    exact (Existing.same _ dir).set (by simp [Message.makes, readNewfile_version read, Except.toOption]) _
  | write =>
    obtain ⟨request, read, served⟩ := Except.bind_eq_ok.mp served
    obtain ⟨old, new⟩ := readWrite_versions read
    obtain rfl := Except.ok.inj served
    have makes : Message.makes ⟨.write, workload⟩ = some request.newver := by simp [Message.makes, new, Except.toOption]
    refine Existing.set ?_ makes _
    split
    · next content found => exact .of_move found makes (by simp [Message.takes, old, Except.toOption])
    · exact .same _ dir
  | delta =>
    obtain ⟨request, read, served⟩ := Except.bind_eq_ok.mp served
    obtain ⟨-, new⟩ := readDelta_versions read
    have makes : Message.makes ⟨.delta, workload⟩ = some request.newver := by simp [Message.makes, new, Except.toOption]
    dsimp only at served
    split at served
    · obtain rfl := Except.ok.inj served
      exact (Existing.same _ dir).set makes _
    · obtain ⟨_, -, served⟩ := Except.bind_eq_ok.mp served
      obtain rfl := Except.ok.inj served
      exact ((Existing.same _ dir).set makes _).set makes _

theorem serverWorker_existing {jobs : List GearmanJob} {replies : List (GearmanJob × Option Bool)}
    (worked : serverWorker jobs dir = .ok (dir', replies)) : Existing jobs dir dir' := by
  induction jobs generalizing dir replies with
  | nil =>
    obtain ⟨rfl, -⟩ := Prod.mk.inj (Except.ok.inj worked)
    exact .refl dir
  | cons job jobs ih =>
    simp only [serverWorker, actAll, Except.bind_eq_ok] at worked
    obtain ⟨⟨middle, success⟩, handled, ⟨last, others⟩, behind, same⟩ := worked
    obtain ⟨rfl, -⟩ := Prod.mk.inj (Except.ok.inj same)
    obtain ⟨reply, served, same⟩ := Except.bind_eq_ok.mp handled
    obtain ⟨rfl, -⟩ := Prod.mk.inj (Except.ok.inj same)
    exact (serve_existing served).trans (ih behind)

/-- Whatever the octets of the messages are: as long as the server goes on, a file changes only if a message
names its version, appears only as the new version of a message, and disappears only as the old version of a
RENAME or a WRITE. Its name has sixteen hexadecimal digits, so no message leaves the directory. -/
theorem confined (jobs : List GearmanJob) (dir dir' : Dir) (replies : List (GearmanJob × Option Bool))
    (worked : serverWorker jobs dir = .ok (dir', replies)) (name : Bytes) :
    (dir' name ≠ dir name → IsVersionName name ∧ ∃ job ∈ jobs, name ∈ job.message.names) ∧
      ((dir' name).isSome → (dir name).isSome ∨ ∃ job ∈ jobs, job.message.makes = some name) ∧
      ((dir name).isSome → (dir' name).isSome ∨ ∃ job ∈ jobs, job.message.takes = some name) := by
  have existing := serverWorker_existing worked
  refine ⟨fun changed => ?_, existing.made name, existing.taken name⟩
  obtain ⟨job, member, named⟩ := actAll_frame GearmanJob.run_local worked changed
  exact ⟨Message.names_isVersionName named, job, member, named⟩

/-- A client stores a file, and overwrites an octet of it later. -/
def storeFirst : GearmanJob :=
  ⟨0, ⟨wholeTransfers, 0⟩, ⟨.newfile, word64 1 ++ (nameField [46, 46, 47, 97] ++ (word32 2 ++ [5, 6]))⟩⟩

def overwriteFirst : GearmanJob :=
  ⟨1, ⟨wholeTransfers, 0⟩,
    ⟨.write, word64 1 ++ (word64 3 ++ (nameField [46, 46, 47, 97] ++ (word32 1 ++ (word32 1 ++ [7]))))⟩⟩

/-- Another client stores a file. -/
def storeSecond : GearmanJob :=
  ⟨2, ⟨wholeTransfers, 0⟩, ⟨.newfile, word64 2 ++ (nameField [98] ++ (word32 1 ++ [8]))⟩⟩

/-- The messages name `../a`, but there is no such file. -/
theorem confined_overwritten : ∃ result, serverWorker [storeFirst, overwriteFirst] (fun _ => none) = .ok result ∧
    result.1 (verToName 3) = some [5, 7] ∧ result.1 [46, 46, 47, 97] = none := by
  obtain ⟨result, worked, held⟩ : ∃ result, serverWorker [storeFirst, overwriteFirst] (fun _ => none) = .ok result ∧
      result.1 (verToName 3) = some [5, 7] := Except.exists_ok (by decide +kernel)
  refine ⟨result, worked, held, ?_⟩
  by_contra changed
  exact absurd ((confined _ _ _ _ worked [46, 46, 47, 97]).1 changed).1.1 (by decide)

/-! ## Orders -/

/-- Messages that name a common version stay in their order. -/
def KeepsOrder (jobs jobs' : List GearmanJob) : Prop :=
  jobs.Pairwise fun first second => ¬ first.message.names.Disjoint second.message.names →
    [first, second].Sublist jobs'

end DeltaCFS
