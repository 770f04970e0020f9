import Mathlib.Data.Nat.Notation

/-! # Loops with fuel

A loop body either goes on with a new state or stops with a result; it may also fail. Running a
loop takes fuel. An invariant that every round keeps, with a measure that every further round decreases,
gives a result for enough fuel, and more fuel does not change it; a loop whose rounds all go on exhausts
its fuel, however much it is.
-/

/-- The outcome of one round. -/
inductive Round (σ ρ : Type*) where
  | again (state : σ)
  | stop (result : ρ)

namespace Round

variable {σ ρ ε : Type*}

/-- Run the body until it stops; `exhausted` is the failure of a loop that runs out of fuel. -/
def loop (exhausted : ε) (body : σ → Except ε (Round σ ρ)) : ℕ → σ → Except ε ρ
  | 0, _ => .error exhausted
  | fuel + 1, state =>
    match body state with
    | .error failure => .error failure
    | .ok (.stop result) => .ok result
    | .ok (.again next) => loop exhausted body fuel next

/-- What a round has to establish: it does not fail, it stops with `Post`, or it goes on with the
invariant and a smaller measure. -/
def Keeps (Inv : σ → Prop) (measure : σ → ℕ) (Post : ρ → Prop) (state : σ) (outcome : Except ε (Round σ ρ)) :
    Prop :=
  (∃ result, outcome = .ok (.stop result) ∧ Post result) ∨
    ∃ next, outcome = .ok (.again next) ∧ Inv next ∧ measure next < measure state

/-- A loop whose rounds may fail. -/
theorem loop_ends (exhausted : ε) {body : σ → Except ε (Round σ ρ)} {Inv : σ → Prop} {measure : σ → ℕ}
    {Post : ρ → Prop} {Fail : ε → Prop}
    (round : ∀ state, Inv state → (∃ failure, body state = .error failure ∧ Fail failure) ∨
      Keeps Inv measure Post state (body state))
    {fuel : ℕ} {state : σ} (start : Inv state) (enough : measure state < fuel) :
    (∃ failure, loop exhausted body fuel state = .error failure ∧ Fail failure) ∨
      ∃ result, loop exhausted body fuel state = .ok result ∧ Post result := by
  induction fuel generalizing state with
  | zero => exact absurd enough (Nat.not_lt_zero _)
  | succ fuel ih =>
    rcases round state start with ⟨failure, fails, fail⟩ | ⟨result, stops, post⟩ | ⟨next, goes, inv, smaller⟩
    · exact .inl ⟨failure, by simp only [loop, fails], fail⟩
    · exact .inr ⟨result, by simp only [loop, stops], post⟩
    · simpa only [loop, goes] using ih inv (by omega)

theorem loop_total (exhausted : ε) {body : σ → Except ε (Round σ ρ)} {Inv : σ → Prop} {measure : σ → ℕ}
    {Post : ρ → Prop} (round : ∀ state, Inv state → Keeps Inv measure Post state (body state))
    {fuel : ℕ} {state : σ} (start : Inv state) (enough : measure state < fuel) :
    ∃ result, loop exhausted body fuel state = .ok result ∧ Post result := by
  rcases @loop_ends _ _ _ exhausted _ _ _ _ (fun _ => False) (fun state inv => .inr (round state inv)) _ _ start enough with
    ⟨-, -, never⟩ | ran
  · exact never.elim
  · exact ran

/-- A loop that never stops. -/
theorem loop_exhausts (exhausted : ε) {body : σ → Except ε (Round σ ρ)} {Inv : σ → Prop}
    (round : ∀ state, Inv state → ∃ next, body state = .ok (.again next) ∧ Inv next) {fuel : ℕ} {state : σ}
    (start : Inv state) : loop exhausted body fuel state = .error exhausted := by
  induction fuel generalizing state with
  | zero => rfl
  | succ fuel ih =>
    obtain ⟨next, goes, inv⟩ := round state start
    simp only [loop, goes, ih inv]

/-- What a loop gives without exhausting its fuel it gives with more fuel, also if the body has fuel of
its own. -/
theorem loop_stable (exhausted : ε) {body body' : σ → Except ε (Round σ ρ)}
    (round : ∀ state, body state ≠ .error exhausted → body' state = body state) {fuel fuel' : ℕ} (more : fuel ≤ fuel')
    {state : σ} (ends : loop exhausted body fuel state ≠ .error exhausted) :
    loop exhausted body' fuel' state = loop exhausted body fuel state := by
  induction fuel generalizing state fuel' with
  | zero => exact absurd rfl ends
  | succ fuel ih =>
    obtain ⟨fuel', rfl⟩ : ∃ less, fuel' = less + 1 := ⟨fuel' - 1, by omega⟩
    have same : body' state = body state := by
      refine round state fun failed => ends ?_
      simp only [loop, failed]
    simp only [loop, same] at ends ⊢
    split
    · rfl
    · rfl
    · next next goes =>
      simp only [goes] at ends
      exact ih (Nat.le_of_succ_le_succ more) ends

end Round
