import Mathlib.Data.Nat.Notation
import Mathlib.Data.Set.Defs

/-! # Runs of a partial step function

A system is a step function that takes a label and a state and either fails or gives the next
state. A run is a finite sequence of steps that do not fail, each with a label that is allowed in
the state before it. The rules are the ones for invariants: over one run, and over the part of a run
that follows a given state.
-/

universe u

namespace Except

variable {ε α β : Type u}

/-- A sequence succeeds when its parts do. -/
theorem bind_eq_ok {first : Except ε α} {rest : α → Except ε β} {result : β} :
    (first >>= rest) = .ok result ↔ ∃ value, first = .ok value ∧ rest value = .ok result := by
  cases first with
  | error failure => simp [bind, Except.bind]
  | ok value => simp [bind, Except.bind]

/-- A sequence does not fail in a way that its parts do not fail. -/
theorem bind_ne_error {first : Except ε α} {rest : α → Except ε β} {failure : ε} (head : first ≠ .error failure)
    (tail : ∀ value, first = .ok value → rest value ≠ .error failure) : (first >>= rest) ≠ .error failure := by
  cases first with
  | error other => simpa [bind, Except.bind] using head
  | ok value => simpa [bind, Except.bind] using tail value rfl

/-- There is a result, and it passes the test. -/
def passes (P : α → Prop) [DecidablePred P] : Except ε α → Bool
  | .ok value => decide (P value)
  | .error _ => false

theorem exists_ok {result : Except ε α} {P : α → Prop} [DecidablePred P] (check : result.passes P = true) :
    ∃ value, result = .ok value ∧ P value := by
  cases result with
  | error failure => simp [passes] at check
  | ok value => exact ⟨value, rfl, by simpa [passes] using check⟩

/-- It fails in this way. -/
def fails [DecidableEq ε] (failure : ε) : Except ε α → Bool
  | .ok _ => false
  | .error other => decide (other = failure)

theorem eq_error [DecidableEq ε] {result : Except ε α} {failure : ε} (check : result.fails failure = true) :
    result = .error failure := by
  cases result with
  | error other => simpa [fails] using check
  | ok value => simp [fails] at check

end Except

namespace Transition

variable {σ ε : Type u} {ι : Type*}

/-- A finite run whose labels are allowed in the state before them. -/
inductive Run (step : ι → σ → Except ε σ) (Allowed : ι → σ → Prop) : σ → σ → Prop where
  | refl (state : σ) : Run step Allowed state state
  | tail {first state next : σ} {label : ι} : Run step Allowed first state → Allowed label state →
    step label state = .ok next → Run step Allowed first next

namespace Run

variable {step : ι → σ → Except ε σ} {Allowed Weaker : ι → σ → Prop} {first middle last : σ}

theorem trans (left : Run step Allowed first middle) (right : Run step Allowed middle last) :
    Run step Allowed first last := by
  induction right with
  | refl => exact left
  | tail _ allowed stepped ih => exact ih.tail allowed stepped

/-- What holds at the start and is kept by every allowed step holds along the run. -/
theorem invariant (Inv : σ → Prop)
    (keeps : ∀ {label state next}, Inv state → Allowed label state → step label state = .ok next → Inv next)
    (run : Run step Allowed first last) (start : Inv first) : Inv last := by
  induction run with
  | refl => exact start
  | tail _ allowed stepped ih => exact keeps ih allowed stepped

/-- A run stays a run when more labels are allowed. -/
theorem mono (weaker : ∀ label state, Allowed label state → Weaker label state)
    (run : Run step Allowed first last) : Run step Weaker first last := by
  induction run with
  | refl => exact .refl _
  | tail _ allowed stepped ih => exact ih.tail (weaker _ _ allowed) stepped

end Run

/-- The state after a list of labels. -/
def replay (step : ι → σ → Except ε σ) : List ι → σ → Except ε σ
  | [], state => .ok state
  | label :: rest, state => step label state >>= replay step rest

/-- Every label of the list is allowed when its turn comes. -/
def AllAllowed (step : ι → σ → Except ε σ) (Allowed : ι → σ → Prop) : List ι → σ → Prop
  | [], _ => True
  | label :: rest, state => Allowed label state ∧ ∀ next, step label state = .ok next → AllAllowed step Allowed rest next

/-- What holds of a result is decided by computing it. -/
instance decidableForallOk {α : Type u} {P : α → Prop} [DecidablePred P] (result : Except ε α) :
    Decidable (∀ value, result = .ok value → P value) :=
  match result with
  | .ok value => decidable_of_iff (P value) ⟨fun holds _ same => Except.ok.inj same ▸ holds, fun all => all value rfl⟩
  | .error _ => isTrue fun _ same => nomatch same

instance decidableAllAllowed {step : ι → σ → Except ε σ} {Allowed : ι → σ → Prop}
    [∀ label state, Decidable (Allowed label state)] : ∀ labels state, Decidable (AllAllowed step Allowed labels state)
  | [], _ => isTrue trivial
  | label :: rest, state =>
    have (next : σ) : Decidable (AllAllowed step Allowed rest next) := decidableAllAllowed rest next
    inferInstanceAs (Decidable (Allowed label state ∧ ∀ next, step label state = .ok next → _))

theorem AllAllowed.imp {step : ι → σ → Except ε σ} {Allowed Weaker : ι → σ → Prop} {labels : List ι} {state : σ}
    (weaker : ∀ label state, Allowed label state → Weaker label state)
    (allowed : AllAllowed step Allowed labels state) : AllAllowed step Weaker labels state := by
  induction labels generalizing state with
  | nil => trivial
  | cons label rest ih => exact ⟨weaker label state allowed.1, fun next stepped => ih (allowed.2 next stepped)⟩

theorem allAllowed_true {step : ι → σ → Except ε σ} (labels : List ι) (state : σ) :
    AllAllowed step (fun _ _ => True) labels state := by
  induction labels generalizing state with
  | nil => trivial
  | cons label rest ih => exact ⟨trivial, fun next _ => ih next⟩

/-- Replaying allowed labels is a run. -/
theorem Run.of_replay {step : ι → σ → Except ε σ} {Allowed : ι → σ → Prop} (labels : List ι) {first last : σ}
    (allowed : AllAllowed step Allowed labels first) (replayed : replay step labels first = .ok last) :
    Run step Allowed first last := by
  induction labels generalizing first with
  | nil => exact Except.ok.inj replayed ▸ .refl first
  | cons label rest ih =>
    cases stepped : step label first with
    | error failure => simp [replay, stepped, bind, Except.bind] at replayed
    | ok next =>
      have head : Run step Allowed first next := (Run.refl first).tail allowed.1 stepped
      exact head.trans (ih (allowed.2 next stepped) (by simpa [replay, stepped, bind, Except.bind] using replayed))

theorem replay_cons {step : ι → σ → Except ε σ} {label : ι} {rest : List ι} {first last : σ} :
    replay step (label :: rest) first = .ok last ↔ ∃ next, step label first = .ok next ∧ replay step rest next = .ok last :=
  Except.bind_eq_ok

theorem replay_append {step : ι → σ → Except ε σ} (labels rest : List ι) (first : σ) :
    replay step (labels ++ rest) first = replay step labels first >>= replay step rest := by
  induction labels generalizing first with
  | nil => rfl
  | cons label labels ih =>
    rw [List.cons_append, replay, replay]
    cases step label first with
    | error failure => rfl
    | ok next => exact ih next

theorem AllAllowed.of_append {step : ι → σ → Except ε σ} {Allowed : ι → σ → Prop} {labels rest : List ι} {first : σ}
    (allowed : AllAllowed step Allowed (labels ++ rest) first) : AllAllowed step Allowed labels first := by
  induction labels generalizing first with
  | nil => trivial
  | cons label labels ih => exact ⟨allowed.1, fun next stepped => ih (allowed.2 next stepped)⟩

/-- Labels that are allowed in every state. -/
theorem allAllowed_of_forall {step : ι → σ → Except ε σ} {Allowed : ι → σ → Prop} {labels : List ι}
    (always : ∀ label ∈ labels, ∀ state, Allowed label state) (first : σ) : AllAllowed step Allowed labels first := by
  induction labels generalizing first with
  | nil => trivial
  | cons label labels ih =>
    exact ⟨always label List.mem_cons_self first,
      fun next _ => ih (fun other member => always other (List.mem_cons_of_mem _ member)) next⟩

section Labels

variable {κ : Type*} {step : ι → σ → Except ε σ} {name : κ → ι}

/-- Labels under other names, in states that have what every allowed step keeps. -/
theorem AllAllowed.map {Allowed : ι → σ → Prop} {Named : κ → σ → Prop} (Inv : σ → Prop)
    (keeps : ∀ {label state next}, Inv state → Allowed label state → step label state = .ok next → Inv next)
    (stronger : ∀ label state, Inv state → Named label state → Allowed (name label) state) {labels : List κ} {first : σ}
    (start : Inv first) (allowed : AllAllowed (fun label => step (name label)) Named labels first) :
    AllAllowed step Allowed (labels.map name) first := by
  induction labels generalizing first with
  | nil => trivial
  | cons label rest ih =>
    have head := stronger label first start allowed.1
    exact ⟨head, fun next stepped => ih (keeps start head stepped) (allowed.2 next stepped)⟩

end Labels

section Simulation

variable {step : ι → σ → Except ε σ} {Allowed : ι → σ → Prop}

/-- A run of one system is a run of another one in which every step acts. -/
theorem replay_simulates {τ : Type*} (Sim : σ → τ → Prop) (act : ι → τ → τ)
    (keeps : ∀ {label state next abstract}, Sim state abstract → Allowed label state → step label state = .ok next →
      Sim next (act label abstract))
    {labels : List ι} {first last : σ} {start : τ} (allowed : AllAllowed step Allowed labels first)
    (replayed : replay step labels first = .ok last) (related : Sim first start) :
    Sim last (labels.foldl (fun abstract label => act label abstract) start) := by
  induction labels generalizing first start with
  | nil => exact Except.ok.inj replayed ▸ related
  | cons label rest ih =>
    obtain ⟨next, stepped, replayed⟩ := replay_cons.mp replayed
    exact ih (allowed.2 next stepped) replayed (keeps related allowed.1 stepped)

/-- A measure that goes down with every step is exhausted after as many steps. -/
theorem replay_exhausts (Measure : ℕ → σ → Prop)
    (keeps : ∀ {label state next n}, Measure n state → Allowed label state → step label state = .ok next →
      Measure (n - 1) next)
    {labels : List ι} {first last : σ} {n : ℕ} (allowed : AllAllowed step Allowed labels first)
    (replayed : replay step labels first = .ok last) (measured : Measure n first) :
    Measure (n - labels.length) last := by
  induction labels generalizing first n with
  | nil => exact Except.ok.inj replayed ▸ measured
  | cons label rest ih =>
    obtain ⟨next, stepped, replayed⟩ := replay_cons.mp replayed
    have less := ih (allowed.2 next stepped) replayed (keeps measured allowed.1 stepped)
    rwa [Nat.sub_sub, Nat.add_comm 1] at less

end Simulation

end Transition
