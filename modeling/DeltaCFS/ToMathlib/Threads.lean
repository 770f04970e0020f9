import DeltaCFS.ToMathlib.Footprint
import Mathlib.Logic.Function.Basic

/-! # Threads over a shared state

A thread is what it has still to call; every call is one step, and what comes after it depends on the state that
it met. Threads whose calls concern different places do not notice one another: in whatever order their calls
come, each of them ends as it would alone.
-/

namespace DeltaCFS

universe u

/-- The calls that a thread has still to make. -/
inductive Calls (σ ε β : Type u) where
  | ret (value : β)
  | fail (fault : ε)
  | call (effect : σ → σ) (next : σ → Calls σ ε β)

section Interleaving

variable {σ ε β κ : Type u} [DecidableEq κ]

/-- The thread alone. -/
def Calls.run : Calls σ ε β → σ → Except ε (σ × β)
  | ret value, state => .ok (state, value)
  | fail fault, _ => .error fault
  | call effect next, state => (next state).run (effect state)

/-- How many calls the thread makes alone. -/
def Calls.count : Calls σ ε β → σ → ℕ
  | ret _, _ => 0
  | fail _, _ => 0
  | call effect next, state => (next state).count (effect state) + 1

/-- What a thread that has returned has returned. -/
def Calls.value? : Calls σ ε β → Option β
  | ret value => some value
  | _ => none

theorem Calls.value?_eq_some {calls : Calls σ ε β} {value : β} : calls.value? = some value ↔ calls = .ret value := by
  cases calls <;> simp [value?]

/-- The threads make one call a turn. The turn of a thread that has returned is lost, and one that fails ends the
process. -/
def interleave : List κ → (κ → Calls σ ε β) → σ → Except ε (σ × (κ → Calls σ ε β))
  | [], threads, state => .ok (state, threads)
  | turn :: rest, threads, state =>
    match threads turn with
    | .ret _ => interleave rest threads state
    | .fail fault => .error fault
    | .call effect next => interleave rest (Function.update threads turn (next state)) (effect state)

end Interleaving

variable {ν α ε β κ : Type u} [DecidableEq ν]

/-- Every call is about these places only. -/
inductive Calls.Uses (places : List ν) : Calls (ν → α) ε β → Prop where
  | ret (value : β) : Uses places (.ret value)
  | fail (fault : ε) : Uses places (.fail fault)
  | call {effect : (ν → α) → ν → α} {next : (ν → α) → Calls (ν → α) ε β} :
    (∀ inner outer, effect (splice places inner outer) = splice places (effect inner) outer) →
    (∀ inner outer, next (splice places inner outer) = next inner) → (∀ state, Uses places (next state)) →
    Uses places (.call effect next)

theorem Calls.Uses.local_run {places : List ν} {calls : Calls (ν → α) ε β} (uses : calls.Uses places) :
    LocalTo places calls.run := by
  induction uses with
  | ret value => exact fun _ _ => rfl
  | fail fault => exact fun _ _ => rfl
  | call effects follows _ ih =>
    intro inner outer
    rw [run, run, effects, follows]
    exact ih inner _ outer

/-- Nor does the number of calls depend on the other places. -/
theorem Calls.Uses.count_congr {places : List ν} {calls : Calls (ν → α) ε β} (uses : calls.Uses places)
    {state other : ν → α} (agrees : ∀ place ∈ places, other place = state place) : calls.count other = calls.count state := by
  rw [← splice_of_agrees agrees]
  clear agrees
  induction uses generalizing state other with
  | ret value => rfl
  | fail fault => rfl
  | call effects follows _ ih =>
    rw [count, count, effects, follows, ih]

/-- Other places keep what they have. -/
theorem effect_frame {places : List ν} {effect : (ν → α) → ν → α}
    (effects : ∀ inner outer, effect (splice places inner outer) = splice places (effect inner) outer) (state : ν → α)
    {place : ν} (outside : place ∉ places) : effect state place = state place := by
  have same := effects state state
  rw [splice_same] at same
  exact (congrFun same place).trans (splice_of_notMem outside ..)

/-- Of actions without common places, each does what it would do at the beginning. -/
theorem actAll_alone {ι : Type u} {act : ι → (ν → α) → Except ε ((ν → α) × β)} {places : ι → List ν}
    (isLocal : ∀ label, LocalTo (places label) (act label)) {labels : List ι} {state last : ν → α} {values : List (ι × β)}
    (apart : labels.Pairwise fun first second => (places first).Disjoint (places second))
    (acted : actAll act labels state = .ok (last, values)) (turn : Fin labels.length) :
    ∃ alone value, act (labels.get turn) state = .ok (alone, value) ∧ values[turn.val]? = some (labels.get turn, value) ∧
      ∀ place ∈ places (labels.get turn), last place = alone place := by
  induction labels generalizing state values with
  | nil => exact turn.elim0
  | cons label labels ih =>
    simp only [actAll, Except.bind_eq_ok] at acted
    obtain ⟨⟨middle, value⟩, acts, ⟨final, others⟩, behind, done⟩ := acted
    obtain ⟨rfl, rfl⟩ := Prod.mk.inj (Except.ok.inj done)
    obtain ⟨disjoint, apart⟩ := List.pairwise_cons.mp apart
    cases turn using Fin.cases with
    | zero =>
      refine ⟨middle, value, acts, rfl, fun place inside => ?_⟩
      by_contra changed
      obtain ⟨other, member, touches⟩ := actAll_frame isLocal behind changed
      exact disjoint other member inside touches
    | succ turn =>
      obtain ⟨alone, value', acts', held, ends⟩ := ih apart behind turn
      have outside : ∀ place ∈ places (labels.get turn), place ∉ places label :=
        fun place inside also => disjoint _ (labels.get_mem turn) also inside
      have first := (isLocal (labels.get turn)).congr acts' state fun place inside =>
        ((isLocal label).frame acts (outside place inside)).symm
      refine ⟨_, value', first, held, fun place inside => ?_⟩
      exact (ends place inside).trans (splice_of_mem inside ..).symm

variable [DecidableEq κ] {places : κ → List ν} {threads : κ → Calls (ν → α) ε β} {state now : ν → α}
  {alone : κ → (ν → α) × β}

/-- Each thread is still to end with this value, and with this in its places. -/
def Pending (places : κ → List ν) (alone : κ → (ν → α) × β) (threads : κ → Calls (ν → α) ε β) (state : ν → α) : Prop :=
  ∀ turn, ∃ last, (threads turn).run state = .ok (last, (alone turn).2) ∧
    ∀ place ∈ places turn, last place = (alone turn).1 place

omit [DecidableEq ν] [DecidableEq κ] in
theorem Pending.of_run (ran : ∀ turn, (threads turn).run state = .ok (alone turn)) :
    Pending places alone threads state := fun turn => ⟨_, ran turn, fun _ _ => rfl⟩

omit [DecidableEq ν] [DecidableEq κ] in
/-- A thread that has returned has ended so. -/
theorem Pending.ret (pending : Pending places alone threads state) {turn : κ} {value : β}
    (returned : (threads turn).value? = some value) :
    value = (alone turn).2 ∧ ∀ place ∈ places turn, state place = (alone turn).1 place := by
  obtain ⟨last, ran, places⟩ := pending turn
  rw [Calls.value?_eq_some.mp returned] at ran
  obtain ⟨rfl, same⟩ := Prod.mk.inj (Except.ok.inj ran)
  exact ⟨same, places⟩

omit [DecidableEq ν] [DecidableEq κ] in
/-- A thread that has no calls left has returned. -/
theorem Pending.returned (pending : Pending places alone threads state) {turn : κ}
    (spent : (threads turn).count state = 0) : (threads turn).value?.isSome := by
  obtain ⟨last, ran, -⟩ := pending turn
  cases calls : threads turn with
  | ret value => rfl
  | fail fault =>
    rw [calls] at ran
    exact absurd ran (by simp [Calls.run])
  | call effect next =>
    rw [calls, Calls.count] at spent
    exact absurd spent (Nat.succ_ne_zero _)

/-- One call. -/
theorem Pending.call {turn : κ} {effect : (ν → α) → ν → α} {next : (ν → α) → Calls (ν → α) ε β}
    (pending : Pending places alone threads state) (uses : ∀ turn, (threads turn).Uses (places turn))
    (apart : ∀ first second, first ≠ second → (places first).Disjoint (places second))
    (calls : threads turn = .call effect next)
    (effects : ∀ inner outer, effect (splice (places turn) inner outer) = splice (places turn) (effect inner) outer) :
    Pending places alone (Function.update threads turn (next state)) (effect state) := by
  intro other
  rcases eq_or_ne other turn with rfl | different
  · obtain ⟨last, ran, ends⟩ := pending other
    rw [calls] at ran
    exact ⟨last, by rwa [Function.update_self], ends⟩
  · obtain ⟨last, ran, ends⟩ := pending other
    have untouched : ∀ place ∈ places other, effect state place = state place :=
      fun place inside => effect_frame effects state (apart other turn different inside)
    refine ⟨splice (places other) last (effect state), ?_, fun place inside => ?_⟩
    · rw [Function.update_of_ne different]
      exact (uses other).local_run.congr ran _ untouched
    · rw [splice_of_mem inside, ends place inside]

/-- One call leaves the places as they are. -/
theorem Calls.Uses.update {turn : κ} {calls : Calls (ν → α) ε β} (uses : ∀ turn, (threads turn).Uses (places turn))
    (behind : calls.Uses (places turn)) (other : κ) : (Function.update threads turn calls other).Uses (places other) := by
  rcases eq_or_ne other turn with rfl | different
  · rwa [Function.update_self]
  · rw [Function.update_of_ne different]
    exact uses other

/-- It is one call less for its own thread. -/
theorem Calls.Uses.count_update {turn : κ} {effect : (ν → α) → ν → α} {next : (ν → α) → Calls (ν → α) ε β}
    (uses : ∀ turn, (threads turn).Uses (places turn))
    (apart : ∀ first second, first ≠ second → (places first).Disjoint (places second))
    (calls : threads turn = .call effect next)
    (effects : ∀ inner outer, effect (splice (places turn) inner outer) = splice (places turn) (effect inner) outer)
    (rest : List κ) (other : κ) :
    (Function.update threads turn (next state) other).count (effect state) - rest.count other =
      (threads other).count state - (turn :: rest).count other := by
  rcases eq_or_ne other turn with rfl | different
  · rw [Function.update_self, calls, Calls.count, List.count_cons_self, Nat.add_sub_add_right]
  · have same := (uses other).count_congr fun place inside => effect_frame effects state (apart other turn different inside)
    rw [Function.update_of_ne different, same, List.count_cons_of_ne different.symm]

/-- In whatever order their calls come, no thread fails, each goes on as it would alone, a call a turn, and the
places of none keep what they have. -/
theorem interleave_pending (apart : ∀ first second, first ≠ second → (places first).Disjoint (places second))
    (uses : ∀ turn, (threads turn).Uses (places turn)) (pending : Pending places alone threads state) (schedule : List κ) :
    ∃ now left, interleave schedule threads state = .ok (now, left) ∧ Pending places alone left now ∧
      (∀ turn, (left turn).count now = (threads turn).count state - schedule.count turn) ∧
      ∀ place, (∀ turn, place ∉ places turn) → now place = state place := by
  induction schedule generalizing threads state with
  | nil => exact ⟨state, threads, rfl, pending, fun _ => rfl, fun _ _ => rfl⟩
  | cons turn rest ih =>
    rw [interleave]
    have here := uses turn
    cases calls : threads turn with
    | ret value =>
      obtain ⟨now, left, ran, pending', counts, frame⟩ := ih uses pending
      refine ⟨now, left, ran, pending', fun other => ?_, frame⟩
      rw [counts other]
      rcases eq_or_ne other turn with rfl | different
      · rw [calls, Calls.count, Nat.zero_sub, Nat.zero_sub]
      · rw [List.count_cons_of_ne different.symm]
    | fail fault =>
      obtain ⟨last, ran, -⟩ := pending turn
      rw [calls] at ran
      exact absurd ran (by simp [Calls.run])
    | call effect next =>
      rw [calls] at here
      cases here with
      | call effects follows behind =>
        obtain ⟨now, left, ran, pending', counts, frame⟩ :=
          ih (Calls.Uses.update uses (behind state)) (pending.call uses apart calls effects)
        refine ⟨now, left, ran, pending', fun other => ?_, fun place outside => ?_⟩
        · exact (counts other).trans (Calls.Uses.count_update uses apart calls effects rest other)
        · rw [frame place outside, effect_frame effects state (outside turn)]

end DeltaCFS
