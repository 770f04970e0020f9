import DeltaCFS.Proofs.Librsync.Checksum
import DeltaCFS.ToMathlib.Bytes
import DeltaCFS.ToMathlib.WeightedSum
import Mathlib.Algebra.BigOperators.Ring.Finset
import Mathlib.Algebra.Ring.Divisibility.Basic
import Mathlib.Data.Nat.Prime.Int

/-! # What a weak sum finds

Two blocks have the same weak sum exactly if the sum of their differences and the sum of these with their
places as weights vanish modulo `2 ^ 16`. One octet that differs is always found, and so are two whose
distance is no multiple of 512.
-/

namespace DeltaCFS

open Finset

variable {before after : Bytes} {i j : ℕ}

/-- The value of an octet in the sums. -/
def weakTerm (window : Bytes) (i : ℕ) : ℕ := (window.getD i 0).toNat + 31

theorem weakTerm_succ (byte : UInt8) (window : Bytes) (i : ℕ) :
    weakTerm (byte :: window) (i + 1) = weakTerm window i := rfl

/-- The sums in closed form. -/
theorem windowSums_eq (window : Bytes) :
    windowSums window (0, 0) =
      (UInt16.ofNat (∑ i ∈ range window.length, weakTerm window i),
        UInt16.ofNat (∑ i ∈ range window.length, (window.length - i) * weakTerm window i)) := by
  induction window with
  | nil => rfl
  | cons byte window ih =>
    have term : byte.toUInt16 + 31 = UInt16.ofNat (weakTerm (byte :: window) 0) := by
      rw [weakTerm, List.getD_cons_zero, UInt16.ofNat_add, UInt16.ofNat_uInt8ToNat]
      rfl
    rw [windowSums_cons, windowSums_start, ih, term, List.length_cons, sum_range_succ', sum_range_succ']
    simp only [weakTerm_succ, Nat.add_sub_add_right, Nat.sub_zero]
    simp only [UInt16.ofNat_add, UInt16.ofNat_mul, Prod.mk.injEq]
    constructor <;> grind

/-- How the octets differ. -/
def octetErrors (before after : Bytes) (i : ℕ) : ℤ := (after.getD i 0).toNat - (before.getD i 0).toNat

theorem octetErrors_eq_zero : octetErrors before after i = 0 ↔ after.getD i 0 = before.getD i 0 := by
  rw [octetErrors, sub_eq_zero, Nat.cast_inj]
  exact UInt8.toNat_inj

theorem octetErrors_small (before after : Bytes) (i : ℕ) : |octetErrors before after i| < 2 ^ 8 := by
  have first := (before.getD i 0).toNat_lt
  have second := (after.getD i 0).toNat_lt
  rw [octetErrors, abs_lt]
  omega

/-- The differences cannot be seen in the sums. -/
structure Unseen (before after : Bytes) : Prop where
  total : (2 : ℤ) ^ 16 ∣ ∑ i ∈ range before.length, octetErrors before after i
  moment : (2 : ℤ) ^ 16 ∣ ∑ i ∈ range before.length, (i : ℤ) * octetErrors before after i

/-- Numbers with the same value in a `uint16_t`. -/
theorem ofNat_eq_iff {n m : ℕ} : UInt16.ofNat n = UInt16.ofNat m ↔ (2 : ℤ) ^ 16 ∣ m - n := by
  rw [← UInt16.toNat_inj, UInt16.toNat_ofNat', UInt16.toNat_ofNat']
  omega

theorem weakTerm_errors (before after : Bytes) (i : ℕ) :
    (weakTerm after i : ℤ) - weakTerm before i = octetErrors before after i := by
  simp only [weakTerm, octetErrors, Nat.cast_add]
  ring

theorem rsCalcWeakSum_eq_iff (same : after.length = before.length) :
    rsCalcWeakSum before = rsCalcWeakSum after ↔ Unseen before after := by
  have total : ((∑ i ∈ range before.length, weakTerm after i : ℕ) : ℤ) -
      (∑ i ∈ range before.length, weakTerm before i : ℕ) = ∑ i ∈ range before.length, octetErrors before after i := by
    rw [Nat.cast_sum, Nat.cast_sum, ← sum_sub_distrib]
    exact sum_congr rfl fun i _ => weakTerm_errors before after i
  have second : ((∑ i ∈ range before.length, (before.length - i) * weakTerm after i : ℕ) : ℤ) -
      (∑ i ∈ range before.length, (before.length - i) * weakTerm before i : ℕ) =
        before.length * ∑ i ∈ range before.length, octetErrors before after i -
          ∑ i ∈ range before.length, (i : ℤ) * octetErrors before after i := by
    rw [Nat.cast_sum, Nat.cast_sum, ← sum_sub_distrib, mul_sum, ← sum_sub_distrib]
    refine sum_congr rfl fun i inside => ?_
    have bound : i ≤ before.length := (mem_range.mp inside).le
    rw [← weakTerm_errors, Nat.cast_mul, Nat.cast_mul, Nat.cast_sub bound]
    ring
  have halves : rsCalcWeakSum before = rsCalcWeakSum after ↔
      windowSums before (0, 0) = windowSums after (0, 0) := by
    rw [← UInt32.toNat_inj, rsCalcWeakSum_toNat, rsCalcWeakSum_toNat, Prod.ext_iff, ← UInt16.toNat_inj,
      ← UInt16.toNat_inj]
    have low := (windowSums before (0, 0)).1.toNat_lt
    have low' := (windowSums after (0, 0)).1.toNat_lt
    omega
  rw [halves, windowSums_eq, windowSums_eq, same, Prod.mk.injEq, ofNat_eq_iff, ofNat_eq_iff, total, second]
  constructor
  · rintro ⟨first, last⟩
    exact ⟨first, (dvd_sub_right (first.mul_left _)).mp last⟩
  · intro unseen
    exact ⟨unseen.total, dvd_sub (unseen.total.mul_left _) unseen.moment⟩

/-- All octets that differ are at these places. -/
def DifferAt (before after : Bytes) (i j : ℕ) : Prop :=
  ∀ k < before.length, k ≠ i → k ≠ j → after.getD k 0 = before.getD k 0

/-- One octet, or two that are not a multiple of 512 apart. -/
theorem Unseen.same (unseen : Unseen before after) (places : DifferAt before after i j) (ordered : i ≤ j)
    (inside : j < before.length) (near : i < j → ¬ 512 ∣ j - i) {k : ℕ} (bound : k < before.length) :
    after.getD k 0 = before.getD k 0 := by
  have elsewhere : ∀ k < before.length, k ≠ i → k ≠ j → octetErrors before after k = 0 :=
    fun k bound first second => octetErrors_eq_zero.mpr (places k bound first second)
  have none : octetErrors before after i = 0 ∧ octetErrors before after j = 0 := by
    rcases ordered.lt_or_eq with apart | rfl
    · refine WeightedSum.errors_eq_zero (a := 8) Int.prime_two apart inside elsewhere (octetErrors_small before after)
        (by norm_num) (fun multiple => near apart ?_) unseen.total unseen.moment
      exact Int.natCast_dvd_natCast.mp (by simpa using multiple)
    · have alone := WeightedSum.error_eq_zero inside (fun k bound apart => elsewhere k bound apart apart)
        ((octetErrors_small before after i).trans (by norm_num)) unseen.total
      exact ⟨alone, alone⟩
  by_cases first : k = i
  · exact octetErrors_eq_zero.mp (first ▸ none.1)
  · by_cases second : k = j
    · exact octetErrors_eq_zero.mp (second ▸ none.2)
    · exact places k bound first second

end DeltaCFS
