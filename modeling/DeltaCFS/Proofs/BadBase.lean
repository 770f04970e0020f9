import DeltaCFS.Proofs.Delivery

/-! # Messages whose base is missing

None of the handlers looks for the base before it acts, and only `func_delta` ever reports a failure.
So a message with a missing base is never turned down, and a delta that cannot be applied is turned
down without a trace only when what was written is what the new version held before.
-/

namespace DeltaCFS

variable {patch : Bytes → Bytes → Except Fault (Bool × Bytes)} {server : ServerEnv} {dir : Dir} {workload : Bytes}
  {reply : Reply}

/-- The worker functions, with any `rs_patch_file`. -/
def handle (patch : Bytes → Bytes → Except Fault (Bool × Bytes)) (server : ServerEnv) (fn : Handler)
    (dir : Dir) (workload : Bytes) : Except Fault Reply :=
  match fn with
  | .rename => funcRename dir workload
  | .unlink => funcUnlink dir workload
  | .truncate => funcTruncate server.schedule server.statSize dir workload
  | .newfile => funcNewfile server.schedule dir workload
  | .write => funcWrite dir workload
  | .delta => funcDelta patch dir workload

theorem serve_eq_handle (server : ServerEnv) (dir : Dir) (message : Message) :
    serve server dir message = handle serverPatch server message.fn dir message.workload := by
  cases message with
  | mk fn workload => cases fn <;> rfl

/-- The handler returns, reports a failure, and leaves every version file as it was. -/
def TurnsDown (patch : Bytes → Bytes → Except Fault (Bool × Bytes)) (server : ServerEnv) (fn : Handler)
    (dir : Dir) (workload : Bytes) : Prop :=
  ∃ reply, handle patch server fn dir workload = .ok reply ∧ reply.success = some false ∧ reply.dir = dir

/-- The base of the message has no file, or `rs_patch_file` does not return `RS_DONE`. -/
inductive BadBase (patch : Bytes → Bytes → Except Fault (Bool × Bytes)) (dir : Dir) (workload : Bytes) :
    Handler → Prop where
  | missing {fn : Handler} {base : Bytes} : fn ∈ [.write, .truncate, .delta, .rename] →
    readVersion workload 0 = .ok base → dir base = none → BadBase patch dir workload fn
  | failing {request : DeltaRequest} {orig : Bytes} : readDelta workload = .ok request →
    dir.set request.newver [] request.basefile = some orig → (∀ new, patch orig request.delta ≠ .ok (true, new)) →
    BadBase patch dir workload .delta

/-- A delta with a base that cannot be applied, and whose new version holds what the attempt writes. -/
def RewritesSame (patch : Bytes → Bytes → Except Fault (Bool × Bytes)) (fn : Handler) (dir : Dir)
    (workload : Bytes) : Prop :=
  fn = .delta ∧ ∃ request orig new, readDelta workload = .ok request ∧
    dir.set request.newver [] request.basefile = some orig ∧ patch orig request.delta = .ok (false, new) ∧
    dir request.newver = some new

/-! ## The handlers -/

theorem funcTruncate_success {schedule : Schedule} {statSize : ℤ}
    (served : funcTruncate schedule statSize dir workload = .ok reply) : reply.success = some true := by
  simp only [funcTruncate, Except.bind_eq_ok] at served
  obtain ⟨request, -, served⟩ := served
  repeat' split at served
  all_goals first
    | exact congrArg Reply.success (Except.ok.inj served).symm
    | exact absurd served (by simp [throw, throwThe, MonadExceptOf.throw, bind, Except.bind])

theorem funcWrite_success (served : funcWrite dir workload = .ok reply) : reply.success = some true := by
  simp only [funcWrite, Except.bind_eq_ok] at served
  obtain ⟨request, -, served⟩ := served
  exact congrArg Reply.success (Except.ok.inj served).symm

theorem funcRename_success (served : funcRename dir workload = .ok reply) : reply.success = some true := by
  simp only [funcRename, Except.bind_eq_ok] at served
  obtain ⟨request, -, served⟩ := served
  split at served
  · exact absurd served (by simp [throw, throwThe, MonadExceptOf.throw])
  · exact congrArg Reply.success (Except.ok.inj served).symm

/-- `func_delta` writes the new version, and reports a failure only of `rs_patch_file`. -/
theorem funcDelta_eq_ok (served : funcDelta patch dir workload = .ok reply) :
    ∃ request, readDelta workload = .ok request ∧
      ((dir.set request.newver [] request.basefile = none ∧ reply.success = none) ∨
        ∃ orig done new, dir.set request.newver [] request.basefile = some orig ∧
          patch orig request.delta = .ok (done, new) ∧
          reply = ⟨(dir.set request.newver []).set request.newver new, some done⟩) := by
  simp only [funcDelta, Except.bind_eq_ok] at served
  obtain ⟨request, read, served⟩ := served
  refine ⟨request, read, ?_⟩
  split at served
  · next absent => exact .inl ⟨absent, congrArg Reply.success (Except.ok.inj served).symm⟩
  · next orig found =>
    obtain ⟨⟨done, new⟩, patched, served⟩ := Except.bind_eq_ok.mp served
    exact .inr ⟨orig, done, new, found, patched, (Except.ok.inj served).symm⟩

theorem Dir.set_set_eq_iff (dir : Dir) (name first second : Bytes) :
    (dir.set name first).set name second = dir ↔ dir name = some second := by
  constructor
  · intro same
    have here := congrFun same name
    simpa [Dir.set] using here.symm
  · intro held
    funext other
    simp only [Dir.set]
    split
    · next same => rw [same, held]
    · rfl

/-- A delta is turned down without a trace exactly if it rewrites what is there. -/
theorem delta_turnsDown_iff : TurnsDown patch server .delta dir workload ↔ RewritesSame patch .delta dir workload := by
  constructor
  · rintro ⟨reply, served, failure, same⟩
    obtain ⟨request, read, ⟨-, silent⟩ | ⟨orig, done, new, found, patched, rfl⟩⟩ := funcDelta_eq_ok served
    · exact absurd (silent.symm.trans failure) (by simp)
    · obtain rfl := Option.some.inj failure
      exact ⟨rfl, request, orig, new, read, found, patched, (Dir.set_set_eq_iff ..).mp same⟩
  · rintro ⟨-, request, orig, new, read, found, patched, held⟩
    refine ⟨⟨(dir.set request.newver []).set request.newver new, some false⟩, ?_, rfl, (Dir.set_set_eq_iff ..).mpr held⟩
    simp [handle, funcDelta, read, found, patched, bind, Except.bind, pure, Except.pure]

/-- With a missing base there is nothing to rewrite. -/
theorem not_rewritesSame_of_missing {fn : Handler} {base : Bytes} (read : readVersion workload 0 = .ok base)
    (absent : dir base = none) : ¬ RewritesSame patch fn dir workload := by
  rintro ⟨-, request, orig, new, parsed, found, -, held⟩
  obtain rfl := Except.ok.inj (read.symm.trans (readDelta_versions parsed).1)
  simp only [Dir.set] at found
  split at found
  · next same => exact absurd (absent.symm.trans (same ▸ held)) (by simp)
  · exact absurd (absent.symm.trans found) (by simp)

/-- A delta from version 5 to version 9. -/
def deltaFiveNine : SyncNode := { (default : SyncNode) with op := .delta, dst := [47, 97], time := 9, baseVer := 5 }

/-- A store with a file under version 5 and an empty one under version 9. -/
def storeFiveNine : Dir := fun name =>
  if name = verToName 5 then some [1] else if name = verToName 9 then some [] else none

/-- A node of any of the four kinds from version 5 to version 9. -/
def nodeFiveNine (op : Op) : SyncNode :=
  { (default : SyncNode) with
    op := op, src := [47, 97], dst := [47, 98], time := 9, baseVer := 5, para := fun _ => 2, bn := some [] }

end DeltaCFS
