import Mathlib.Data.List.Basic
import Mathlib.Data.List.GetD
import Mathlib.Data.List.Range
import Mathlib.Data.List.TakeWhile
import Mathlib.Tactic.Ring

/-! # Byte strings: fixed-width integers, bounded reads, and file contents

Three things a byte-level program needs and that Mathlib does not supply: little-endian integers
of a given width, reads of a window that fail when the window leaves the string, and the effect of
`pwrite`, `pread` and `truncate` on the content of a regular file. Everything is stated over plain
lists of bytes, so that concatenation lemmas apply directly.
-/

/-- A string of octets: a message, a buffer, or the content of a file. -/
abbrev Bytes := List UInt8

namespace Bytes

/-! ## Little-endian integers -/

/-- The `w` low-order octets of `n`, least significant first. -/
def ofNatLE (w n : ℕ) : Bytes :=
  (List.range w).map fun i => UInt8.ofNat (n / 256 ^ i % 256)

/-- The number an octet string denotes, least significant first. -/
def toNatLE : Bytes → ℕ
  | [] => 0
  | byte :: rest => byte.toNat + 256 * toNatLE rest

@[simp] theorem ofNatLE_length (w n : ℕ) : (ofNatLE w n).length = w := by
  simp [ofNatLE]

theorem ofNatLE_succ (w n : ℕ) :
    ofNatLE (w + 1) n = UInt8.ofNat (n % 256) :: ofNatLE w (n / 256) := by
  simp only [ofNatLE, List.range_succ_eq_map, List.map_cons, List.map_map, pow_zero, Nat.div_one]
  congr 1
  apply List.map_congr_left
  intro i _
  simp only [Function.comp_apply, Nat.succ_eq_add_one, Nat.div_div_eq_div_mul, Nat.pow_succ']

/-- Encoding keeps exactly the low-order octets. -/
theorem toNatLE_ofNatLE (w n : ℕ) : toNatLE (ofNatLE w n) = n % 256 ^ w := by
  induction w generalizing n with
  | zero => simp [ofNatLE, toNatLE, Nat.mod_one]
  | succ w ih =>
    have low : (UInt8.ofNat (n % 256)).toNat = n % 256 := by
      simp only [UInt8.toNat_ofNat']
      omega
    rw [ofNatLE_succ, toNatLE, ih, low, Nat.pow_succ', Nat.mod_mul]

/-- A string of `w` octets denotes a number of at most `8 * w` bits. -/
theorem toNatLE_lt (bytes : Bytes) : toNatLE bytes < 256 ^ bytes.length := by
  induction bytes with
  | nil => simp [toNatLE]
  | cons byte rest ih =>
    have octet : byte.toNat < 256 := byte.toNat_lt
    simp only [toNatLE, List.length_cons, Nat.pow_succ]
    omega

/-! ## Bounded reads -/

/-- The `count` octets at `offset`, when the window lies inside the string. -/
def slice? (bytes : Bytes) (offset count : ℕ) : Option Bytes :=
  if offset + count ≤ bytes.length then some ((bytes.drop offset).take count) else none

/-- A little-endian integer of width `w` at `offset`. -/
def readLE? (w : ℕ) (bytes : Bytes) (offset : ℕ) : Option ℕ :=
  (slice? bytes offset w).map toNatLE

theorem slice?_eq_some_iff {bytes window : Bytes} {offset count : ℕ} :
    slice? bytes offset count = some window ↔
      offset + count ≤ bytes.length ∧ (bytes.drop offset).take count = window := by
  simp only [slice?, Option.ite_none_right_eq_some, Option.some.injEq]

/-- A loaded integer fits its width. -/
theorem readLE?_lt {w offset value : ℕ} {bytes : Bytes} (read : readLE? w bytes offset = some value) :
    value < 256 ^ w := by
  obtain ⟨window, sliced, rfl⟩ := Option.map_eq_some_iff.mp read
  obtain ⟨-, rfl⟩ := slice?_eq_some_iff.mp sliced
  exact (toNatLE_lt _).trans_le (Nat.pow_le_pow_right (by decide) (List.length_take_le _ _))

/-- A window is found at the length of what precedes it. -/
theorem slice?_append (offset count : ℕ) (before window after : Bytes)
    (start : offset = before.length) (size : count = window.length) :
    slice? (before ++ (window ++ after)) offset count = some window := by
  subst start size
  rw [slice?_eq_some_iff]
  simp only [List.length_append, List.drop_left, List.take_left, and_true]
  omega

/-- An encoded integer is read back, up to its width, at the length of what precedes it. -/
theorem readLE?_append (offset : ℕ) (before after : Bytes) (w n : ℕ) (start : offset = before.length) :
    readLE? w (before ++ (ofNatLE w n ++ after)) offset = some (n % 256 ^ w) := by
  rw [readLE?, slice?_append offset w before (ofNatLE w n) after start (ofNatLE_length w n).symm,
    Option.map_some, toNatLE_ofNatLE]

/-! ## File contents -/

/-- `truncate(2)`: cut, or extend with zero octets. -/
def resize (size : ℕ) (file : Bytes) : Bytes :=
  file.take size ++ List.replicate (size - file.length) 0

/-- `pread(2)` of a regular file: the octets there are. -/
def pread (file : Bytes) (offset count : ℕ) : Bytes := (file.drop offset).take count

/-- `pwrite(2)` of a regular file: a gap before the offset is filled with zero octets, and a write
of no octets changes nothing, not even the size. -/
def pwrite (file : Bytes) (offset : ℕ) (data : Bytes) : Bytes :=
  if data = [] then file
  else resize offset file ++ data ++ file.drop (offset + data.length)

@[simp] theorem resize_length (size : ℕ) (file : Bytes) : (resize size file).length = size := by
  simp only [resize, List.length_append, List.length_take, List.length_replicate]
  omega

@[simp] theorem pwrite_nil (file : Bytes) (offset : ℕ) : pwrite file offset [] = file := if_pos rfl

/-- A write extends the file exactly when it ends past the end. -/
theorem pwrite_length (file : Bytes) (offset : ℕ) {data : Bytes} (nonempty : data ≠ []) :
    (pwrite file offset data).length = max file.length (offset + data.length) := by
  rw [pwrite, if_neg nonempty]
  simp only [List.length_append, resize_length, List.length_drop]
  omega

/-- A write inside the file keeps its length. -/
theorem pwrite_length_inside {file data : Bytes} {offset : ℕ} (inside : offset + data.length ≤ file.length) :
    (pwrite file offset data).length = file.length := by
  by_cases empty : data = []
  · rw [empty, pwrite_nil]
  · rw [pwrite_length file offset empty]
    omega

theorem getD_resize (size : ℕ) (file : Bytes) (position : ℕ) :
    (resize size file).getD position 0 = if position < size then file.getD position 0 else 0 := by
  simp only [resize, List.getD_eq_getElem?_getD]
  by_cases inside : position < (file.take size).length
  · have bounds := inside
    rw [List.length_take] at bounds
    rw [List.getElem?_append_left inside, List.getElem?_take_of_lt (by omega), if_pos (by omega)]
  · rw [List.getElem?_append_right (by omega), List.getElem?_replicate]
    rw [List.length_take] at inside
    have zero : (if position - (file.take size).length < size - file.length then some (0 : UInt8) else none).getD 0 = 0 := by
      split <;> rfl
    rw [zero]
    split
    · rw [List.getElem?_eq_none (by omega), Option.getD_none]
    · rfl

/-- A write replaces the octets it covers; a gap before it reads as zeros. -/
theorem getD_pwrite (file : Bytes) (offset : ℕ) (data : Bytes) (position : ℕ) :
    (pwrite file offset data).getD position 0 =
      if offset ≤ position ∧ position < offset + data.length then data.getD (position - offset) 0
      else file.getD position 0 := by
  by_cases empty : data = []
  · rw [empty, pwrite_nil, if_neg (by simp)]
  · rw [pwrite, if_neg empty, List.append_assoc]
    by_cases before : position < offset
    · have front := getD_resize offset file position
      rw [if_pos before] at front
      rw [List.getD_append _ _ _ _ (by rwa [resize_length]), front, if_neg (by omega)]
    · rw [List.getD_append_right _ _ _ _ (by rw [resize_length]; omega), resize_length]
      by_cases here : position < offset + data.length
      · rw [List.getD_append _ _ _ _ (by omega), if_pos ⟨by omega, here⟩]
      · rw [List.getD_append_right _ _ _ _ (by omega), if_neg (by omega)]
        simp only [List.getD_eq_getElem?_getD, List.getElem?_drop]
        congr 2
        omega

theorem getD_pread (file : Bytes) (offset count position : ℕ) (inside : position < count) :
    (pread file offset count).getD position 0 = file.getD (offset + position) 0 := by
  simp only [pread, List.getD_eq_getElem?_getD, List.getElem?_take_of_lt inside, List.getElem?_drop]

theorem pread_length (file : Bytes) (offset count : ℕ) :
    (pread file offset count).length = min count (file.length - offset) := by
  rw [pread, List.length_take, List.length_drop]

/-- Files of one length with the same octets are equal. -/
theorem ext_getD {file other : Bytes} (length : file.length = other.length)
    (octets : ∀ position < other.length, file.getD position 0 = other.getD position 0) : file = other := by
  refine List.ext_getElem length fun position first second => ?_
  have same := octets position second
  rwa [List.getD_eq_getElem _ _ first, List.getD_eq_getElem _ _ second] at same

theorem resize_self (file : Bytes) : resize file.length file = file := by
  simp [resize]

end Bytes
