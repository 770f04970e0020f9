import DeltaCFS.ToMathlib.Transition

/-! # Two runs in lockstep

Two computations agree when they fail alike or succeed with related results. If a relation of states
is kept by every step that both sides take, and related states show the same, runs from related
states show the same observations and end alike.
-/

universe u

namespace Except

variable {ε α β γ δ : Type u} {R : α → β → Prop} {S : γ → δ → Prop}

/-- Both fail with the same error, or both succeed with related results. -/
inductive Agree (R : α → β → Prop) : Except ε α → Except ε β → Prop where
  | error (failure : ε) : Agree R (.error failure) (.error failure)
  | ok {first : α} {second : β} : R first second → Agree R (.ok first) (.ok second)

namespace Agree

theorem bind {left : Except ε α} {right : Except ε β} {rest : α → Except ε γ} {rest' : β → Except ε δ}
    (heads : Agree R left right)
    (tails : ∀ first second, R first second → left = .ok first → Agree S (rest first) (rest' second)) :
    Agree S (left >>= rest) (right >>= rest') := by
  cases heads with
  | error failure => exact .error failure
  | ok related => exact tails _ _ related rfl

theorem of_eq {left right : Except ε α} (same : left = right) : Agree Eq left right := by
  subst same
  cases left with
  | error failure => exact .error failure
  | ok value => exact .ok rfl

theorem imp {R' : α → β → Prop} {left : Except ε α} {right : Except ε β} (agree : Agree R left right)
    (weaker : ∀ first second, R first second → left = .ok first → R' first second) : Agree R' left right := by
  cases agree with
  | error failure => exact .error failure
  | ok related => exact .ok (weaker _ _ related rfl)

/-- Both take the same branch. -/
theorem ite {c c' : Prop} [Decidable c] [Decidable c'] {left left' : Except ε α} {right right' : Except ε β}
    (same : c' ↔ c) (yes : Agree R left right) (no : Agree R left' right') :
    Agree R (if c then left else left') (if c' then right else right') := by
  by_cases holds : c
  · rwa [if_pos holds, if_pos (same.mpr holds)]
  · rwa [if_neg holds, if_neg (mt same.mp holds)]

end Agree

end Except

namespace Transition

variable {σ ε ω : Type u} {ι : Type*}

/-- What the steps of a run show, and how it fails, if it does. -/
def observe (step : ι → σ → Except ε (Option ω × σ)) : List ι → σ → List ω × Option ε
  | [], _ => ([], none)
  | label :: rest, state =>
    match step label state with
    | .error failure => ([], some failure)
    | .ok (shown, next) => (shown.toList ++ (observe step rest next).1, (observe step rest next).2)

/-- Steps that agree show the same along the whole run. -/
theorem observe_eq {step : ι → σ → Except ε (Option ω × σ)} {Same : σ → σ → Prop}
    (lockstep : ∀ label first second, Same first second →
      Except.Agree (fun one other => one.1 = other.1 ∧ Same one.2 other.2) (step label first) (step label second))
    (labels : List ι) {first second : σ} (same : Same first second) :
    observe step labels first = observe step labels second := by
  induction labels generalizing first second with
  | nil => rfl
  | cons label rest ih =>
    have agree := lockstep label first second same
    rw [observe, observe]
    generalize step label first = left at agree ⊢
    generalize step label second = right at agree ⊢
    cases agree with
    | error failure => rfl
    | ok related => simp only [related.1, ih related.2]

end Transition
