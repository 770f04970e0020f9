import Mathlib.Data.Nat.Basic
import Mathlib.Order.Basic

/-! # Keys with numbers from a counter

A table gives its keys numbers, a counter says how many have been given. A step takes numbers away, and may
give the next one to a key. Then a number is one key's for ever, and the numbers of a key increase.
-/

namespace DeltaCFS

structure Numbering (κ : Type*) where
  number : κ → Option ℕ
  limit : ℕ

namespace Numbering

variable {κ : Type*} {old middle new : Numbering κ} {key other : κ} {n m : ℕ}

/-- Different keys have different numbers, up to the limit. -/
structure Proper (numbering : Numbering κ) : Prop where
  bound : ∀ key n, numbering.number key = some n → n ≤ numbering.limit
  distinct : ∀ key other n, numbering.number key = some n → numbering.number other = some n → key = other

/-- One step: keys keep their numbers or lose them, and at most one key gets the next number. -/
inductive Issues (old new : Numbering κ) : Prop
  | kept : new.limit = old.limit → (∀ key n, new.number key = some n → old.number key = some n) → Issues old new
  | issued (issued : κ) : new.limit = old.limit + 1 →
    (∀ key n, new.number key = some n → (key = issued ∧ n = old.limit + 1) ∨ old.number key = some n) → Issues old new

/-- Many steps: what has a number has kept it, or got it since. -/
structure Continues (old new : Numbering κ) : Prop where
  limit : old.limit ≤ new.limit
  kept : ∀ key n, new.number key = some n → old.number key = some n ∨ old.limit < n

theorem Issues.proper (issues : Issues old new) (proper : old.Proper) : new.Proper := by
  cases issues with
  | kept limit kept =>
    refine ⟨fun key n numbered => ?_, fun key other n numbered numbered' => ?_⟩
    · rw [limit]
      exact proper.bound key n (kept key n numbered)
    · exact proper.distinct key other n (kept key n numbered) (kept other n numbered')
  | issued issued limit cases =>
    have above {key : κ} {n : ℕ} (numbered : old.number key = some n) : n ≠ old.limit + 1 := by
      have := proper.bound key n numbered
      omega
    refine ⟨fun key n numbered => ?_, fun key other n numbered numbered' => ?_⟩
    · rcases cases key n numbered with ⟨-, rfl⟩ | before
      · exact limit.ge
      · have := proper.bound key n before
        omega
    · rcases cases key n numbered with ⟨rfl, rfl⟩ | before
      · rcases cases other _ numbered' with ⟨rfl, -⟩ | before'
        · rfl
        · exact absurd rfl (above before')
      · rcases cases other n numbered' with ⟨-, rfl⟩ | before'
        · exact absurd rfl (above before)
        · exact proper.distinct key other n before before'

theorem Issues.continues (issues : Issues old new) : Continues old new := by
  cases issues with
  | kept limit kept => exact ⟨limit.ge, fun key n numbered => .inl (kept key n numbered)⟩
  | issued issued limit cases =>
    refine ⟨by omega, fun key n numbered => ?_⟩
    rcases cases key n numbered with ⟨-, rfl⟩ | before
    · exact .inr (Nat.lt_succ_self _)
    · exact .inl before

namespace Continues

theorem refl (numbering : Numbering κ) : Continues numbering numbering := ⟨le_rfl, fun _ _ => .inl⟩

theorem trans (first : Continues old middle) (second : Continues middle new) : Continues old new := by
  refine ⟨first.limit.trans second.limit, fun key n numbered => ?_⟩
  rcases second.kept key n numbered with before | above
  · exact first.kept key n before
  · exact .inr (first.limit.trans_lt above)

/-- A number does not change its key. -/
theorem eq_key (continues : Continues old new) (proper : old.Proper) (before : old.number key = some n)
    (after : new.number other = some n) : key = other := by
  rcases continues.kept other n after with kept | above
  · exact proper.distinct key other n before kept
  · exact absurd above (proper.bound key n before).not_gt

/-- A key gets greater numbers only. -/
theorem le (continues : Continues old new) (proper : old.Proper) (before : old.number key = some n)
    (after : new.number key = some m) : n ≤ m := by
  rcases continues.kept key m after with kept | above
  · exact (Option.some.inj (before.symm.trans kept)).le
  · exact (proper.bound key n before).trans above.le

end Continues

end Numbering

end DeltaCFS
