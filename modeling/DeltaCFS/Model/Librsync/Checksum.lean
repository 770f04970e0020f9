import DeltaCFS.ToMathlib.Bytes

/-! # Weak checksums

`checksum.c` computes the weak sum of a block for the signature, `rollsum.c` and `rollsum.h` the
same sum incrementally for the delta. Sums are kept in `unsigned`, respectively `unsigned long`, and
only their low 16 bits enter the digest.
-/

namespace DeltaCFS

/-- `RS_CHAR_OFFSET` and `ROLLSUM_CHAR_OFFSET`. -/
def charOffset : ℕ := 31

/-- The two loops of `rs_calc_weak_sum`: four octets at a time while more than four are left. -/
def weakLoop : Bytes → UInt32 → UInt32 → UInt32 × UInt32
  | b0 :: b1 :: b2 :: b3 :: b4 :: rest, s1, s2 =>
    weakLoop (b4 :: rest)
      (s1 + (b0.toUInt32 + b1.toUInt32 + b2.toUInt32 + b3.toUInt32 + 4 * UInt32.ofNat charOffset))
      (s2 + (4 * (s1 + b0.toUInt32) + 3 * b1.toUInt32 + 2 * b2.toUInt32 + b3.toUInt32 +
        10 * UInt32.ofNat charOffset))
  | rest, s1, s2 =>
    rest.foldl (fun sums byte =>
      let s1 := sums.1 + (byte.toUInt32 + UInt32.ofNat charOffset)
      (s1, sums.2 + s1)) (s1, s2)

/-- `rs_calc_weak_sum`. -/
def rsCalcWeakSum (block : Bytes) : UInt32 :=
  let sums := weakLoop block 0 0
  (sums.1 &&& (0xffff : UInt32)) + (sums.2 <<< (16 : UInt32))

structure Rollsum where
  count : ℕ
  s1 : UInt64
  s2 : UInt64
deriving DecidableEq, Repr

/-- `RollsumInit`. -/
def rollsumInit : Rollsum := ⟨0, 0, 0⟩

/-- `DO1`. -/
def rollsumDo1 (sums : UInt64 × UInt64) (byte : UInt8) : UInt64 × UInt64 :=
  (sums.1 + byte.toUInt64, sums.2 + (sums.1 + byte.toUInt64))

/-- The loops of `RollsumUpdate`: sixteen octets at a time, with the offset added behind, then one
at a time. One unit of fuel a round. -/
def rollsumLoop : ℕ → Bytes → UInt64 × UInt64 → UInt64 × UInt64
  | 0, _, sums => sums
  | fuel + 1, buf, sums =>
    if 16 ≤ buf.length then
      let sums := (buf.take 16).foldl rollsumDo1 sums
      rollsumLoop fuel (buf.drop 16)
        (sums.1 + 16 * UInt64.ofNat charOffset, sums.2 + 136 * UInt64.ofNat charOffset)
    else
      buf.foldl (fun sums byte =>
        let s1 := sums.1 + (byte.toUInt64 + UInt64.ofNat charOffset)
        (s1, sums.2 + s1)) sums

/-- `RollsumUpdate`. -/
def rollsumUpdate (sum : Rollsum) (buf : Bytes) : Rollsum :=
  let sums := rollsumLoop (buf.length + 1) buf (sum.s1, sum.s2)
  ⟨sum.count + buf.length, sums.1, sums.2⟩

/-- `RollsumRotate`. -/
def rollsumRotate (sum : Rollsum) (out input : UInt8) : Rollsum :=
  let s1 := sum.s1 + (input.toUInt64 - out.toUInt64)
  ⟨sum.count, s1, sum.s2 + (s1 - UInt64.ofNat sum.count * (out.toUInt64 + UInt64.ofNat charOffset))⟩

/-- `RollsumRollout`. -/
def rollsumRollout (sum : Rollsum) (byte : UInt8) : Rollsum :=
  ⟨sum.count - 1, sum.s1 - (byte.toUInt64 + UInt64.ofNat charOffset),
    sum.s2 - UInt64.ofNat sum.count * (byte.toUInt64 + UInt64.ofNat charOffset)⟩

/-- `RollsumDigest`, converted to `rs_weak_sum_t`. -/
def rollsumDigest (sum : Rollsum) : UInt32 :=
  ((sum.s2 <<< (16 : UInt64)) ||| (sum.s1 &&& (0xffff : UInt64))).toUInt32

end DeltaCFS
