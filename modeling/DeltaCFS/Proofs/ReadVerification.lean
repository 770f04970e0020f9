import DeltaCFS.Proofs.BlockChecksum

/-! # Reads are verified block by block

`checksum_check` compares the stored sums of exactly the blocks that a read touches: each piece of
it looks at a range of blocks, returns -1 at the first one whose sum is not current, and looks up no
key but theirs.
-/

namespace DeltaCFS

open Bytes

variable {path : Path} {file buf : Bytes} {offset block k count : ℕ} {db : Leveldb}

/-- The sum that is stored for the block is the one of its octets. -/
def Current (path file : Bytes) (db : Leveldb) (k : ℕ) : Prop :=
  db (checksumKey path k) = some (ofNatLE 4 (rsCalcWeakSum (paddedBlock file k)).toNat)

/-- Some sum is stored for the block. -/
def HasSum (path : Path) (db : Leveldb) (k : ℕ) : Prop :=
  ∃ sum : UInt32, db (checksumKey path k) = some (ofNatLE 4 sum.toNat)

/-! ## Pieces -/

/-- A piece that looks at these blocks and no others, and hands on the value if their sums are current. -/
structure Verifies {α : Type} (path file : Bytes) (db : Leveldb) (blocks : ℕ → Prop) (value : α)
    (check : Check α) : Prop where
  keys : ∀ key ∈ check.keys, ∃ k, blocks k ∧ key = checksumKey path k
  result : (check.result = .ok value ∧ ∀ k, blocks k → Current path file db k) ∨
    (check.result = .error .mismatch ∧ ∃ k, blocks k ∧ ¬ Current path file db k)

namespace Verifies

variable {α β : Type} {blocks blocks' : ℕ → Prop} {value : α} {value' : β} {check : Check α} {rest : Check β}

theorem handOn (none : ∀ k, ¬ blocks k) (value : α) : Verifies path file db blocks value (.handOn value) where
  keys := fun _ inside => absurd inside List.not_mem_nil
  result := .inl ⟨rfl, fun k inside => absurd inside (none k)⟩

theorem congr (verifies : Verifies path file db blocks value check) (same : ∀ k, blocks' k ↔ blocks k) :
    Verifies path file db blocks' value check := by
  have equal : blocks' = blocks := funext fun k => propext (same k)
  exact equal ▸ verifies

theorem andThen (verifies : Verifies path file db blocks value check) (next : α → Option (Check β))
    (ran : next value = some rest)
    (verifies' : Verifies path file db blocks' value' rest) :
    ∃ whole, check.andThen next = some whole ∧
      Verifies path file db (fun k => blocks k ∨ blocks' k) value' whole := by
  rcases verifies.result with ⟨passed, current⟩ | ⟨failed, k, inside, stale⟩
  · refine ⟨⟨rest.result, check.keys ++ rest.keys, check.sources ++ rest.sources⟩, ?_, ?_, ?_⟩
    · simp only [Check.andThen, passed, ran, Option.map_some]
    · intro key looked
      rcases List.mem_append.mp looked with here | later
      · obtain ⟨k, inside, is⟩ := verifies.keys key here
        exact ⟨k, .inl inside, is⟩
      · obtain ⟨k, inside, is⟩ := verifies'.keys key later
        exact ⟨k, .inr inside, is⟩
    · rcases verifies'.result with ⟨passed', current'⟩ | ⟨failed', k, inside, stale⟩
      · exact .inl ⟨passed', fun k inside => inside.elim (current k) (current' k)⟩
      · exact .inr ⟨failed', k, .inr inside, stale⟩
  · refine ⟨⟨.error .mismatch, check.keys, check.sources⟩, ?_, ?_, ?_⟩
    · simp only [Check.andThen, failed]
    · intro key looked
      obtain ⟨k, inside, is⟩ := verifies.keys key looked
      exact ⟨k, .inl inside, is⟩
    · exact .inr ⟨rfl, k, .inl inside, stale⟩

end Verifies

/-! ## The pieces of `checksum_check` -/

theorem ofNatLE_toNat_inj {sum sum' : UInt32} (same : ofNatLE 4 sum.toNat = ofNatLE 4 sum'.toNat) : sum = sum' :=
  UInt32.toNat.inj (ofNatLE_inj sum.toNat_lt sum'.toNat_lt same)

/-- One comparison, with the current sum of the block. -/
theorem compareChecksum_verifies (file : Bytes) (has : HasSum path db block) (sources : List ℕ) :
    Verifies path file db (· = block) ()
      (compareChecksum path block (rsCalcWeakSum (paddedBlock file block)) sources db) where
  keys := fun key looked => ⟨block, rfl, List.mem_singleton.mp looked⟩
  result := by
    obtain ⟨sum, stored⟩ := has
    have read : (ofNatLE 4 sum.toNat).take 4 = ofNatLE 4 sum.toNat :=
      List.take_of_length_le (by rw [ofNatLE_length])
    by_cases same : sum = rsCalcWeakSum (paddedBlock file block)
    · refine .inl ⟨?_, ?_⟩
      · simp only [compareChecksum, stored, ← same, read, ↓reduceIte]
      · rintro k rfl
        exact stored.trans (by rw [same])
    · have differ : ofNatLE 4 sum.toNat ≠ ofNatLE 4 (rsCalcWeakSum (paddedBlock file block)).toNat :=
        fun equal => same (ofNatLE_toNat_inj equal)
      refine .inr ⟨?_, block, rfl, ?_⟩
      · simp only [compareChecksum, stored, read, if_neg differ]
      · intro current
        exact differ (Option.some.inj (stored.symm.trans current))

theorem checkFirst_verifies (file path : Bytes) (db : Leveldb) (small : offset + count < 2 ^ 32)
    (crosses : offset / 2048 < (offset + count) / 2048) (has : HasSum path db (offset / 2048)) :
    ∃ check first skip, checkFirst file path offset db = some check ∧
      Verifies path file db (fun k => offset / 2048 ≤ k ∧ k < first) (first, 2048 * first, skip) check ∧
      offset + skip = 2048 * first ∧ first ≤ (offset + count) / 2048 := by
  have split := Nat.div_add_mod offset 2048
  have bound : offset % 2048 < 2048 := Nat.mod_lt _ (by decide)
  rw [checkFirst]
  by_cases unaligned : offset % 2048 ≠ 0
  · have read := readTmpblk_eq (Nat.mul_comm (offset / 2048) 2048) (by omega) file
    have next : (offset / 2048 * 2048 % 2 ^ 32 + 2048) % 2 ^ 32 = 2048 * (offset / 2048 + 1) := by
      omega
    obtain ⟨check, ran, verifies⟩ := (compareChecksum_verifies file has []).andThen
      (fun _ => some (.handOn (offset / 2048 + 1, 2048 * (offset / 2048 + 1), 2048 - offset % 2048))) rfl
      (Verifies.handOn (fun _ => not_false : ∀ k, ¬ (fun _ => False) k) _)
    refine ⟨check, offset / 2048 + 1, 2048 - offset % 2048, ?_, verifies.congr fun k => ?_, by omega, crosses⟩
    · rw [if_pos unaligned, ← ran, ← read]
      simp only [next]
    · simp only [or_false]
      omega
  · refine ⟨_, offset / 2048, 0, if_neg unaligned, ?_, by omega, crosses.le⟩
    rw [show offset % 2 ^ 32 = 2048 * (offset / 2048) by omega]
    exact Verifies.handOn (fun k => by omega) _

/-- The buffer holds what was read, so its blocks are those of the file. -/
theorem paddedBlock_read {skip : ℕ} (aligned : offset + skip = 2048 * block) (there : skip + 2048 ≤ count) :
    ((pread file offset count).drop skip).take 2048 = (pread file (2048 * block) 2048) := by
  rw [pread, pread, List.drop_take, List.drop_drop, List.take_take, aligned, min_eq_left (by omega)]

theorem checkMiddle_verifies (file path : Bytes) (small : offset + count < 2 ^ 32)
    (inside : offset + count ≤ file.length) (last : ℕ) (end_ : 2048 * last ≤ offset + count)
    (has : ∀ k < last, HasSum path db k) :
    ∀ fuel block skip : ℕ, last - block < fuel → block ≤ last → offset + skip = 2048 * block →
      ∃ check skip', checkMiddle path (pread file offset count) (last * 2048) db fuel block (2048 * block) skip =
          some check ∧
        Verifies path file db (fun k => block ≤ k ∧ k < last) (last, 2048 * last, skip') check := by
  intro fuel
  induction fuel with
  | zero => intro block skip enough; omega
  | succ fuel ih =>
    intro block skip enough reached aligned
    rw [checkMiddle]
    by_cases more : block < last
    · have here : ((pread file offset count).drop skip).take 2048 = paddedBlock file block := by
        have full : (pread file (2048 * block) 2048).length = 2048 := by
          rw [pread_length]
          omega
        have whole := resize_self (pread file (2048 * block) 2048)
        rw [full] at whole
        exact (paddedBlock_read aligned (by omega)).trans whole.symm
      obtain ⟨rest, skip', ran, verifies⟩ := ih (block + 1) (skip + 2048) (by omega) more (by omega)
      obtain ⟨check, whole, verifies'⟩ := (compareChecksum_verifies file (has block more) [skip]).andThen
        (fun _ => checkMiddle path (pread file offset count) (last * 2048) db fuel (block + 1)
          (2048 * (block + 1)) (skip + 2048)) ran verifies
      refine ⟨check, skip', ?_, verifies'.congr fun k => by omega⟩
      rw [if_pos (by omega), here, Nat.mod_eq_of_lt (by omega), Nat.mod_eq_of_lt (by omega)]
      exact whole
    · obtain rfl : block = last := by omega
      exact ⟨_, skip, if_neg (by omega), Verifies.handOn (fun k => by omega) _⟩

theorem checkLast_verifies (file path : Bytes) (db : Leveldb) (last : ℕ)
    (has : last % 2048 ≠ 0 → HasSum path db (last / 2048)) :
    Verifies path file db (fun k => k = last / 2048 ∧ last % 2048 ≠ 0) ()
      (checkLast file path last (last / 2048) (2048 * (last / 2048)) db) := by
  rw [checkLast]
  by_cases unaligned : last % 2048 ≠ 0
  · rw [if_pos unaligned, if_pos (Nat.mul_comm ..)]
    exact (compareChecksum_verifies file (has unaligned) []).congr fun k => ⟨And.left, fun same => ⟨same, unaligned⟩⟩
  · rw [if_neg unaligned]
    exact Verifies.handOn (fun k both => unaligned both.2) ()

/-- The blocks that the read touches. -/
theorem checksumCheck_verifies (file path : Bytes) (small : file.length < 2 ^ 32) (positive : 1 ≤ count)
    (inside : offset + count ≤ file.length) (has : ∀ k, 2048 * k < file.length → HasSum path db k) {fuel : ℕ}
    (enough : (offset + count) / 2048 < fuel) :
    ∃ check, checksumCheck fuel file path (pread file offset count) offset db = some check ∧
      Verifies path file db (fun k => offset / 2048 ≤ k ∧ k ≤ (offset + count - 1) / 2048) () check := by
  have length : (pread file offset count).length = count := by
    rw [pread_length]
    omega
  rw [checksumCheck, length]
  by_cases same : offset / 2048 = (offset + count) / 2048
  · have read := readTmpblk_eq (Nat.mul_comm (offset / 2048) 2048) (by omega) file
    refine ⟨_, if_pos same, ?_⟩
    simp only [read]
    exact (compareChecksum_verifies file (has _ (by omega)) []).congr fun k => by omega
  · obtain ⟨check₁, first, skip, ran₁, verifies₁, aligned, reached⟩ :=
      checkFirst_verifies file path db (small.trans_le' inside) (by omega) (has (offset / 2048) (by omega))
    obtain ⟨check₂, skip₂, ran₂, verifies₂⟩ := checkMiddle_verifies file path (by omega) inside
      ((offset + count) / 2048) (by omega) (fun k before => has k (by omega)) fuel first skip (by omega) reached aligned
    have verifies₃ := checkLast_verifies file path db (offset + count) fun unaligned => has _ (by omega)
    obtain ⟨check₄, ran₄, verifies₄⟩ := verifies₂.andThen (fun counters =>
      some (checkLast file path (offset + count) counters.1 counters.2.1 db)) rfl verifies₃
    obtain ⟨check, ran, verifies⟩ := verifies₁.andThen (fun counters =>
      (checkMiddle path (pread file offset count) ((offset + count) / 2048 * 2048) db fuel counters.1 counters.2.1
        counters.2.2).bind fun middle => middle.andThen fun counters =>
          some (checkLast file path (offset + count) counters.1 counters.2.1 db))
      (by rw [ran₂]; exact ran₄) verifies₄
    refine ⟨check, ?_, verifies.congr fun k => by omega⟩
    rw [if_neg same, ran₁]
    exact ran

/-- A read of what the file holds is verified: the call returns 0 if the stored sums of all blocks from
the one of the first octet to the one of the last are current, -1 if one is not, and looks up no other
key. -/
theorem read_verified (file path : Bytes) (offset count : ℕ) (db : Leveldb) (small : file.length < 2 ^ 32)
    (positive : 1 ≤ count) (inside : offset + count ≤ file.length)
    (has : ∀ k, 2048 * k < file.length → ∃ sum : UInt32, db (checksumKey path k) = some (ofNatLE 4 sum.toNat))
    (fuel : ℕ) (enough : (offset + count) / 2048 < fuel) :
    ∃ check, checksumCheck fuel file path (pread file offset count) offset db = some check ∧
      (check.code = some 0 ∨ check.code = some (-1)) ∧
      (check.code = some 0 ↔ ∀ k, offset / 2048 ≤ k → k ≤ (offset + count - 1) / 2048 →
        db (checksumKey path k) =
          some (ofNatLE 4 (rsCalcWeakSum (resize 2048 (pread file (2048 * k) 2048))).toNat)) ∧
      ∀ key ∈ check.keys, ∃ k, offset / 2048 ≤ k ∧ k ≤ (offset + count - 1) / 2048 ∧ key = checksumKey path k := by
  obtain ⟨check, ran, verifies⟩ := checksumCheck_verifies file path small positive inside has enough
  refine ⟨check, ran, ?_, ?_, fun key looked => ?_⟩
  · rcases verifies.result with ⟨passed, -⟩ | ⟨failed, -⟩
    · exact .inl (by simp only [Check.code, passed])
    · exact .inr (by simp only [Check.code, failed])
  · rcases verifies.result with ⟨passed, current⟩ | ⟨failed, k, touched, stale⟩
    · exact ⟨fun _ k first last => current k ⟨first, last⟩, fun _ => by simp only [Check.code, passed]⟩
    · refine ⟨fun zero => ?_, fun current => absurd (current k touched.1 touched.2) stale⟩
      simp only [Check.code, failed] at zero
      exact absurd (Option.some.inj zero) (by decide)
  · obtain ⟨k, touched, is⟩ := verifies.keys key looked
    exact ⟨k, touched.1, touched.2, is⟩

/-- A read that begins in one block of a file of zeros and ends in the next. -/
theorem read_verified_across_blocks :
    ∃ check, checksumCheck 2 (List.replicate 2060 0) [47, 97] (pread (List.replicate 2060 0) 3 2050) 3
        (fun _ => some (ofNatLE 4 checksumZeroblock.toNat)) = some check ∧ check.code = some 0 := by
  obtain ⟨check, ran, -, exact_, -⟩ := read_verified (List.replicate 2060 0) [47, 97] 3 2050
    (fun _ => some (ofNatLE 4 checksumZeroblock.toNat)) (by rw [List.length_replicate]; decide) (by decide)
    (by rw [List.length_replicate]; decide) (fun _ _ => ⟨checksumZeroblock, rfl⟩) 2 (by decide)
  refine ⟨check, ran, exact_.mpr fun k _ _ => ?_⟩
  have zeros : checksumZeroblock = rsCalcWeakSum (paddedBlock (List.replicate 2060 0) k) :=
    zero_block fun position _ => by
      rw [List.getD_eq_getElem?_getD, List.getElem?_getD_replicate_default_eq]
  exact congrArg (fun sum : UInt32 => some (ofNatLE 4 sum.toNat)) zeros

end DeltaCFS
