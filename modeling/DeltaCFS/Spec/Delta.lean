import DeltaCFS.Model.Librsync.Patch

/-! # What a delta says

Read in one piece, a delta says what becomes of a patch: it ends with a result and the octets put out by
then, it fails an assertion, or it never ends. A command that is cut short, and a copy of no octets at the
end, are waited for without end; a literal is as long as its length cut to an `int`; other defects are found.
-/

namespace DeltaCFS

open Bytes

/-- How a job ends: with a result and a value, with a failed assertion, or never. -/
inductive Verdict (τ : Type) where
  | ends (result : Result) (value : τ)
  | aborts
  | never
deriving DecidableEq, Repr

/-- A field that is not there in full: at the end of the input the job ends, in the middle of the field it
waits. -/
def Verdict.short {τ : Type} (result : Result) (value : τ) (behind : Bytes) : Verdict τ :=
  if behind = [] then .ends result value else .never

/-- The commands of a delta, with `new` put out before them. -/
def interpretCommands (old new delta : Bytes) : Verdict Bytes :=
  match delta with
  | [] => .ends .inputEnded new
  | op :: behind =>
    let cmd := rsPrototab op.toNat
    let param1 := if cmd.len1 = 0 then cmd.immediate else ofNetint (behind.take cmd.len1)
    let param2 := ofNetint ((behind.drop cmd.len1).take cmd.len2)
    let rest := behind.drop (cmd.len1 + cmd.len2)
    if behind.length < cmd.len1 + cmd.len2 then .short .inputEnded new behind
    else
      match cmd.kind with
      | .ending => .ends .done new
      | .reserved => .ends .corrupt new
      | .literal =>
        let len := param1 % 2 ^ 32
        if 2 ^ 63 ≤ param1 then .ends .corrupt new
        else if 2 ^ 31 ≤ len then .aborts
        else interpretCommands old (new ++ rest.take len) (rest.drop len)
      | .copy =>
        if 2 ^ 63 ≤ param2 ∨ 2 ^ 63 ≤ param1 then .ends .corrupt new
        else if param2 = 0 then if rest = [] then .never else .ends .internalError new
        else if (pread old param1 param2).length < param2 then .ends .inputEnded (new ++ pread old param1 param2)
        else interpretCommands old (new ++ pread old param1 param2) rest
termination_by delta.length
decreasing_by
  all_goals simp only [List.length_cons, List.length_drop]; omega

/-- A delta, applied to `old`. -/
def interpretDelta (old delta : Bytes) : Verdict Bytes :=
  if delta.length < 4 then .short .inputEnded [] delta
  else if ofNetint (delta.take 4) ≠ deltaMagic then .ends .badMagic []
  else interpretCommands old [] (delta.drop 4)

end DeltaCFS
