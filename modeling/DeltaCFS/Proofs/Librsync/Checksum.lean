import DeltaCFS.Model.Librsync.Checksum

/-! # Rolled sums are direct sums

Modulo `2 ^ 16` every way of summing gives the same pair, so a rolled sum has the digest of the
signature's checksum of the window it stands for.
-/

namespace DeltaCFS

/-- The sums of a window modulo `2 ^ 16`. -/
def windowSums (window : Bytes) (start : UInt16 × UInt16) : UInt16 × UInt16 :=
  window.foldl (fun sums byte =>
    (sums.1 + (byte.toUInt16 + 31), sums.2 + (sums.1 + (byte.toUInt16 + 31)))) start

theorem windowSums_cons (byte : UInt8) (window : Bytes) (start : UInt16 × UInt16) :
    windowSums (byte :: window) start =
      windowSums window (start.1 + (byte.toUInt16 + 31), start.2 + (start.1 + (byte.toUInt16 + 31))) := rfl

theorem windowSums_append (first second : Bytes) (start : UInt16 × UInt16) :
    windowSums (first ++ second) start = windowSums second (windowSums first start) :=
  List.foldl_append

/-- The sums depend on their start in a linear way. -/
theorem windowSums_start (window : Bytes) (s1 s2 : UInt16) :
    windowSums window (s1, s2) =
      (s1 + (windowSums window (0, 0)).1,
        s2 + UInt16.ofNat window.length * s1 + (windowSums window (0, 0)).2) := by
  induction window generalizing s1 s2 with
  | nil => simp [windowSums]
  | cons byte window ih =>
    rw [windowSums_cons, windowSums_cons, ih, ih (0 + _) (0 + _)]
    simp only [List.length_cons, UInt16.ofNat_add, Prod.mk.injEq]
    constructor <;> grind

/-- The octets of a sum that enter the digest. -/
def Rollsum.low (sum : Rollsum) : UInt16 × UInt16 := (sum.s1.toUInt16, sum.s2.toUInt16)

/-- The rolled sum stands for a window. -/
def Rollsum.Covers (sum : Rollsum) (window : Bytes) : Prop :=
  sum.count = window.length ∧ sum.low = windowSums window (0, 0)

theorem rollsumInit_covers : rollsumInit.Covers [] := ⟨rfl, rfl⟩

private theorem foldl_do1 (buf : Bytes) (sums : UInt64 × UInt64) :
    (((buf.foldl rollsumDo1 sums).1.toUInt16 + UInt16.ofNat buf.length * 31),
      ((buf.foldl rollsumDo1 sums).2.toUInt16 +
        UInt16.ofNat (buf.length * (buf.length + 1) / 2) * 31)) =
      windowSums buf (sums.1.toUInt16, sums.2.toUInt16) := by
  induction buf using List.reverseRecOn with
  | nil => simp [windowSums]
  | append_singleton buf byte ih =>
    have triangle : (buf.length + 1) * (buf.length + 1 + 1) / 2 =
        buf.length * (buf.length + 1) / 2 + (buf.length + 1) := by
      rw [show (buf.length + 1) * (buf.length + 1 + 1) =
        buf.length * (buf.length + 1) + (buf.length + 1) * 2 by ring,
        Nat.add_mul_div_right _ _ (by decide)]
    rw [windowSums_append, ← ih, List.foldl_append, List.length_append, List.length_singleton, triangle]
    simp only [List.foldl_cons, List.foldl_nil, rollsumDo1, windowSums, UInt64.toUInt16_add, UInt16.ofNat_add,
      UInt8.toUInt16_toUInt64, Prod.mk.injEq]
    constructor <;> grind

private theorem rollsumLoop_low (fuel : ℕ) (buf : Bytes) (sums : UInt64 × UInt64) (enough : buf.length < fuel) :
    ((rollsumLoop fuel buf sums).1.toUInt16, (rollsumLoop fuel buf sums).2.toUInt16) =
      windowSums buf (sums.1.toUInt16, sums.2.toUInt16) := by
  induction fuel generalizing buf sums with
  | zero => omega
  | succ fuel ih =>
    rw [rollsumLoop]
    split
    · next long =>
      have chunk := foldl_do1 (buf.take 16) sums
      rw [List.length_take, min_eq_left long] at chunk
      rw [ih _ _ (by rw [List.length_drop]; omega)]
      conv_rhs => rw [← List.take_append_drop 16 buf, windowSums_append, ← chunk]
      simp [charOffset]
    · induction buf generalizing sums with
      | nil => rfl
      | cons byte buf ih' =>
        rw [List.foldl_cons, windowSums_cons]
        rw [ih' _ (by simp only [List.length_cons] at enough; omega)
          (by simp only [List.length_cons] at *; omega)]
        simp [charOffset]

theorem Rollsum.Covers.update {sum : Rollsum} {window : Bytes} (covers : sum.Covers window) (buf : Bytes) :
    (rollsumUpdate sum buf).Covers (window ++ buf) := by
  obtain ⟨count, low⟩ := covers
  refine ⟨by simp [rollsumUpdate, count], ?_⟩
  rw [Rollsum.low, rollsumUpdate, rollsumLoop_low _ buf (sum.s1, sum.s2) (Nat.lt_succ_self _), windowSums_append]
  exact congrArg (windowSums buf) low

theorem Rollsum.Covers.rotate {sum : Rollsum} {out : UInt8} {window : Bytes}
    (covers : sum.Covers (out :: window)) (input : UInt8) :
    (rollsumRotate sum out input).Covers (window ++ [input]) := by
  obtain ⟨count, low⟩ := covers
  refine ⟨by simpa [rollsumRotate] using count, ?_⟩
  rw [windowSums_append]
  rw [windowSums_cons, windowSums_start, Rollsum.low, Prod.mk.injEq] at low
  obtain ⟨first, second⟩ := low
  simp only [Rollsum.low, rollsumRotate, charOffset, windowSums, List.foldl_cons, List.foldl_nil, count,
    List.length_cons, UInt64.toUInt16_add, UInt64.toUInt16_sub, UInt64.toUInt16_mul, UInt64.toUInt16_ofNat',
    UInt8.toUInt16_toUInt64, UInt16.ofNat_add, Prod.mk.injEq, first, second]
  constructor <;> grind

theorem Rollsum.Covers.rollout {sum : Rollsum} {out : UInt8} {window : Bytes}
    (covers : sum.Covers (out :: window)) : (rollsumRollout sum out).Covers window := by
  obtain ⟨count, low⟩ := covers
  refine ⟨by simp [rollsumRollout, count], ?_⟩
  rw [windowSums_cons, windowSums_start, Rollsum.low, Prod.mk.injEq] at low
  obtain ⟨first, second⟩ := low
  apply Prod.ext
  all_goals
    simp only [Rollsum.low, rollsumRollout, charOffset, count, List.length_cons, UInt64.toUInt16_sub,
      UInt64.toUInt16_mul, UInt64.toUInt16_add, UInt64.toUInt16_ofNat', UInt8.toUInt16_toUInt64,
      UInt16.ofNat_add, first, second]
    grind

private theorem weakLoop_low (window : Bytes) (s1 s2 : UInt32) :
    ((weakLoop window s1 s2).1.toUInt16, (weakLoop window s1 s2).2.toUInt16) =
      windowSums window (s1.toUInt16, s2.toUInt16) := by
  fun_induction weakLoop window s1 s2 with
  | case1 b0 b1 b2 b3 b4 rest s1 s2 ih =>
    rw [ih, windowSums_cons b0, windowSums_cons b1, windowSums_cons b2, windowSums_cons b3]
    congr 1
    simp only [charOffset, UInt32.toUInt16_add, UInt32.toUInt16_mul, UInt32.toUInt16_ofNat',
      UInt8.toUInt16_toUInt32, UInt32.toUInt16_ofNat, Prod.mk.injEq]
    constructor <;> grind
  | case2 window s1 s2 few =>
    clear few
    induction window generalizing s1 s2 with
    | nil => rfl
    | cons byte window ih =>
      rw [List.foldl_cons, windowSums_cons, ih]
      simp [charOffset]

/-- The digest of two sums. -/
private theorem digest_toNat (s1 s2 : UInt64) :
    ((s2 <<< (16 : UInt64)) ||| (s1 &&& (0xffff : UInt64))).toUInt32.toNat =
      s2.toUInt16.toNat * 2 ^ 16 + s1.toUInt16.toNat := by
  have mask : (s1 &&& (0xffff : UInt64)).toNat = s1.toNat % 2 ^ 16 := by
    rw [UInt64.toNat_and]
    exact Nat.and_two_pow_sub_one_eq_mod s1.toNat 16
  have shift : (s2 <<< (16 : UInt64)).toNat = s2.toNat * 2 ^ 16 % 2 ^ 64 := by
    rw [UInt64.toNat_shiftLeft]
    exact congrArg (· % 2 ^ 64) (Nat.shiftLeft_eq _ _)
  have high : s2.toNat * 2 ^ 16 % 2 ^ 64 = (s2.toNat % 2 ^ 48) <<< 16 := by
    rw [Nat.shiftLeft_eq]
    omega
  have bound : s1.toNat % 2 ^ 16 < 2 ^ 16 := Nat.mod_lt _ (Nat.two_pow_pos 16)
  have sum := Nat.shiftLeft_add_eq_or_of_lt bound (s2.toNat % 2 ^ 48)
  rw [UInt64.toNat_toUInt32, UInt64.toNat_or, mask, shift, high, ← sum, UInt64.toNat_toUInt16,
    UInt64.toNat_toUInt16, ← high]
  omega

private theorem weak_toNat (s1 s2 : UInt32) :
    ((s1 &&& (0xffff : UInt32)) + (s2 <<< (16 : UInt32))).toNat =
      s2.toUInt16.toNat * 2 ^ 16 + s1.toUInt16.toNat := by
  have mask : (s1 &&& (0xffff : UInt32)).toNat = s1.toNat % 2 ^ 16 := by
    rw [UInt32.toNat_and]
    exact Nat.and_two_pow_sub_one_eq_mod s1.toNat 16
  have shift : (s2 <<< (16 : UInt32)).toNat = s2.toNat * 2 ^ 16 % 2 ^ 32 := by
    rw [UInt32.toNat_shiftLeft]
    exact congrArg (· % 2 ^ 32) (Nat.shiftLeft_eq _ _)
  rw [UInt32.toNat_add, mask, shift, UInt32.toNat_toUInt16, UInt32.toNat_toUInt16]
  omega

/-- The halves of a weak sum. -/
theorem rsCalcWeakSum_toNat (window : Bytes) :
    (rsCalcWeakSum window).toNat =
      (windowSums window (0, 0)).2.toNat * 2 ^ 16 + (windowSums window (0, 0)).1.toNat := by
  have low := weakLoop_low window 0 0
  rw [rsCalcWeakSum, weak_toNat]
  exact congrArg (fun sums : UInt16 × UInt16 => sums.2.toNat * 2 ^ 16 + sums.1.toNat) low

/-- A rolled sum has the digest that the signature holds for an equal block. -/
theorem Rollsum.Covers.digest {sum : Rollsum} {window : Bytes} (covers : sum.Covers window) :
    rollsumDigest sum = rsCalcWeakSum window := by
  have low := weakLoop_low window 0 0
  have same := covers.2.trans low.symm
  simp only [Rollsum.low, Prod.mk.injEq] at same
  apply UInt32.toNat_inj.mp
  rw [rollsumDigest, digest_toNat, rsCalcWeakSum, weak_toNat, same.1, same.2]

/-- A sum that was made by `RollsumInit`, `RollsumUpdate`, `RollsumRotate` and `RollsumRollout`, with the
octets that were put in and not taken out. -/
inductive Rolled : Rollsum → Bytes → Prop where
  | init : Rolled rollsumInit []
  | update {sum : Rollsum} {window : Bytes} (buf : Bytes) : Rolled sum window →
    Rolled (rollsumUpdate sum buf) (window ++ buf)
  | rotate {sum : Rollsum} {out : UInt8} {window : Bytes} (input : UInt8) : Rolled sum (out :: window) →
    Rolled (rollsumRotate sum out input) (window ++ [input])
  | rollout {sum : Rollsum} {out : UInt8} {window : Bytes} : Rolled sum (out :: window) →
    Rolled (rollsumRollout sum out) window

theorem Rolled.covers {sum : Rollsum} {window : Bytes} (rolled : Rolled sum window) : sum.Covers window := by
  induction rolled with
  | init => exact rollsumInit_covers
  | update buf _ ih => exact ih.update buf
  | rotate input _ ih => exact ih.rotate input
  | rollout _ ih => exact ih.rollout

end DeltaCFS
