import DeltaCFS.Model.BlockChecksum

/-! # The block checksums follow the file

Whatever is written, and however a file is cut or extended, the database holds the weak sum of every
block of it, the last one filled up with zeros. Each function of `syncchecksum.c` puts the sums of a
range of blocks and touches nothing else.
-/

namespace DeltaCFS

open Bytes

variable {path other : Path} {file buf : Bytes} {offset block k : ℕ} {db db' db'' : Leveldb}

/-! ## Keys -/

theorem ofNatLE_inj {w n m : ℕ} (first : n < 256 ^ w) (second : m < 256 ^ w) (same : ofNatLE w n = ofNatLE w m) :
    n = m := by
  have value := congrArg toNatLE same
  rwa [toNatLE_ofNatLE, toNatLE_ofNatLE, Nat.mod_eq_of_lt first, Nat.mod_eq_of_lt second] at value

/-- The number has a fixed width, so the name can be told from it. -/
theorem checksumKey_path {n m : ℕ} (same : checksumKey path n = checksumKey other m) :
    path = other ∧ ofNatLE 4 n = ofNatLE 4 m :=
  List.append_inj' same (by simp)

/-- The highest octet of the number of a block is zero, so no name is taken for a key. -/
theorem zero_mem_checksumKey (small : k < 2 ^ 21) : 0 ∈ checksumKey path k := by
  refine List.mem_append_right _ (List.mem_map.mpr ⟨3, by simp, ?_⟩)
  rw [show k / 256 ^ 3 % 256 = 0 by omega]
  rfl

/-! ## What is put -/

/-- The sums of these blocks are put, and nothing else is changed. -/
structure Puts (path : Path) (blocks : ℕ → Prop) (sum : ℕ → UInt32) (db db' : Leveldb) : Prop where
  bound : ∀ k, blocks k → k < 2 ^ 21
  put : ∀ k, blocks k → db' (checksumKey path k) = some (ofNatLE 4 (sum k).toNat)
  kept : ∀ key, (∀ k, blocks k → key ≠ checksumKey path k) → db' key = db key

namespace Puts

variable {blocks blocks' : ℕ → Prop} {sum : ℕ → UInt32}

theorem nothing (none : ∀ k, ¬ blocks k) : Puts path blocks sum db db :=
  ⟨fun k inside => absurd inside (none k), fun k inside => absurd inside (none k), fun _ _ => rfl⟩

theorem single (path : Path) (small : block < 2 ^ 21) (sum : ℕ → UInt32) (db : Leveldb) :
    Puts path (· = block) sum db (putChecksum path block (sum block) db) where
  bound := by
    rintro _ rfl
    exact small
  put := by
    rintro _ rfl
    exact Function.update_self ..
  kept := fun key apart => Function.update_of_ne (apart block rfl) ..

theorem key_ne (puts : Puts path blocks sum db db') (small : k < 2 ^ 32) (outside : ¬ blocks k) :
    ∀ i, blocks i → checksumKey path k ≠ checksumKey path i := by
  intro i inside same
  have bound := puts.bound i inside
  have equal := ofNatLE_inj (w := 4) (by omega) (by omega) (checksumKey_path same).2
  exact outside (equal ▸ inside)

/-- A block outside the range keeps its sum. -/
theorem kept_block (puts : Puts path blocks sum db db') (small : k < 2 ^ 32) (outside : ¬ blocks k) :
    db' (checksumKey path k) = db (checksumKey path k) :=
  puts.kept _ (puts.key_ne small outside)

theorem trans (first : Puts path blocks sum db db') (second : Puts path blocks' sum db' db'') :
    Puts path (fun k => blocks k ∨ blocks' k) sum db db'' where
  bound := fun k inside => inside.elim (first.bound k) (second.bound k)
  put := by
    intro k inside
    by_cases later : blocks' k
    · exact second.put k later
    · have earlier := inside.resolve_right later
      rw [second.kept_block (by have := first.bound k earlier; omega) later]
      exact first.put k earlier
  kept := fun key apart => (second.kept key fun k inside => apart k (.inr inside)).trans
    (first.kept key fun k inside => apart k (.inl inside))

theorem congr (puts : Puts path blocks sum db db') (same : ∀ k, blocks' k ↔ blocks k) :
    Puts path blocks' sum db db' := by
  have equal : blocks' = blocks := funext fun k => propext (same k)
  exact equal ▸ puts

end Puts

/-! ## Blocks -/

/-- The block, filled up with zeros. -/
def paddedBlock (file : Bytes) (k : ℕ) : Bytes := readTmpblk file (2048 * k) 2048

theorem readTmpblk_length (file : Bytes) (offset count : ℕ) :
    (readTmpblk file offset count).length = 2048 := resize_length ..

theorem readTmpblk_getD (file : Bytes) {offset count position : ℕ} (inside : position < 2048) :
    (readTmpblk file offset count).getD position 0 =
      if position < count then file.getD (offset + position) 0 else 0 := by
  rw [readTmpblk, getD_resize, if_pos inside]
  split
  · next within => exact getD_pread _ _ _ _ within
  · next behind => exact List.getD_eq_default _ _ (by rw [pread_length]; omega)

theorem paddedBlock_length (file : Bytes) (k : ℕ) : (paddedBlock file k).length = 2048 :=
  readTmpblk_length ..

theorem paddedBlock_getD (file : Bytes) {position : ℕ} (inside : position < 2048) :
    (paddedBlock file k).getD position 0 = file.getD (2048 * k + position) 0 := by
  rw [paddedBlock, readTmpblk_getD file inside, if_pos inside]

/-- A block is what its octets are. -/
theorem eq_paddedBlock {block : Bytes} (length : block.length = 2048)
    (octets : ∀ position < 2048, block.getD position 0 = file.getD (2048 * k + position) 0) :
    block = paddedBlock file k := by
  refine ext_getD (by rw [length, paddedBlock_length]) fun position inside => ?_
  rw [paddedBlock_length] at inside
  rw [octets position inside, paddedBlock_getD file inside]

theorem paddedBlock_congr {file' : Bytes}
    (octets : ∀ position < 2048, file'.getD (2048 * k + position) 0 =
      file.getD (2048 * k + position) 0) : paddedBlock file' k = paddedBlock file k := by
  refine eq_paddedBlock (paddedBlock_length ..) fun position inside => ?_
  rw [paddedBlock_getD file' inside, octets position inside]

/-- `CHECKSUM_ZEROBLOCK` is the sum of a block of zeros. -/
theorem checksumZeroblock_eq : checksumZeroblock = rsCalcWeakSum (List.replicate 2048 0) := by
  decide +kernel

theorem zero_block (zeros : ∀ position < 2048, file.getD (2048 * k + position) 0 = 0) :
    checksumZeroblock = rsCalcWeakSum (paddedBlock file k) := by
  rw [checksumZeroblock_eq]
  congr 1
  refine eq_paddedBlock (List.length_replicate ..) fun position inside => ?_
  rw [zeros position inside, List.getD_replicate _ inside]

/-! ## `checksum_update` -/

/-- Copying what was written over the block that was read changes nothing. -/
theorem pwrite_paddedBlock (file buf : Bytes) {start skip count : ℕ}
    (aligned : offset + skip = 2048 * k + start) (fits : start + count ≤ 2048)
    (there : skip + count ≤ buf.length) :
    pwrite (paddedBlock (pwrite file offset buf) k) start ((buf.drop skip).take count) =
      paddedBlock (pwrite file offset buf) k := by
  have length : ((buf.drop skip).take count).length = count := by
    rw [List.length_take, List.length_drop]
    omega
  refine eq_paddedBlock ?_ fun position inside => ?_
  · rw [pwrite_length_inside, paddedBlock_length]
    rw [length, paddedBlock_length]
    exact fits
  · rw [getD_pwrite, length]
    split
    · next covered =>
      have piece := getD_pread buf skip count (position - start) (by omega)
      rw [pread] at piece
      rw [piece, getD_pwrite, if_pos (by omega)]
      congr 1
      omega
    · rw [paddedBlock_getD _ inside]

/-- A block inside the write. -/
theorem paddedBlock_inside (file buf : Bytes) {skip : ℕ} (aligned : offset + skip = 2048 * k)
    (there : skip + 2048 ≤ buf.length) :
    (buf.drop skip).take 2048 = paddedBlock (pwrite file offset buf) k := by
  refine eq_paddedBlock ?_ fun position inside => ?_
  · rw [List.length_take, List.length_drop]
    omega
  · have piece := getD_pread buf skip 2048 position inside
    rw [pread] at piece
    rw [piece, getD_pwrite, if_pos (by omega)]
    congr 1
    omega

/-- The sums of the blocks of a file. -/
def blockSum (file : Bytes) (k : ℕ) : UInt32 := rsCalcWeakSum (paddedBlock file k)

theorem readTmpblk_eq {start : ℕ} (at_ : start = 2048 * k) (small : start < 2 ^ 32) (file : Bytes) :
    readTmpblk file (start % 2 ^ 32) 2048 = paddedBlock file k := by
  rw [Nat.mod_eq_of_lt small, at_]
  rfl

theorem checksumFirst_puts (file path buf : Bytes) (db : Leveldb) (small : offset + buf.length < 2 ^ 32)
    (crosses : offset / 2048 < (offset + buf.length) / 2048) :
    ∃ db' first skip, checksumFirst (pwrite file offset buf) path buf offset db = some (db', first, skip) ∧
      Puts path (fun k => offset / 2048 ≤ k ∧ k < first) (blockSum (pwrite file offset buf)) db db' ∧
      offset + skip = 2048 * first ∧
      first = offset / 2048 + (if offset % 2048 ≠ 0 then 1 else 0) := by
  have split := Nat.div_add_mod offset 2048
  have bound : offset % 2048 < 2048 := Nat.mod_lt _ (by decide)
  rw [checksumFirst]
  by_cases unaligned : offset % 2048 ≠ 0
  · have here : offset / 2048 * 2048 = 2048 * (offset / 2048) :=
      Nat.mul_comm ..
    have read := readTmpblk_eq here (by omega) (pwrite file offset buf)
    have copied := @pwrite_paddedBlock offset (offset / 2048) file buf (offset % 2048) 0
      (2048 - offset % 2048) (by omega) (by omega) (by omega)
    have asserted : offset - offset / 2048 * 2048 % 2 ^ 32 = offset % 2048 := by
      rw [Nat.mod_eq_of_lt (by omega)]
      omega
    rw [List.drop_zero] at copied
    refine ⟨putChecksum path (offset / 2048) (blockSum (pwrite file offset buf) (offset / 2048)) db,
      offset / 2048 + 1, 2048 - offset % 2048, ?_, ?_, ?_, by rw [if_pos unaligned]⟩
    · rw [if_pos unaligned]
      simp only [read, copied, asserted, ↓reduceIte, blockSum]
    · refine (Puts.single path (by omega) (blockSum (pwrite file offset buf)) db).congr fun k => ?_
      omega
    · omega
  · refine ⟨db, offset / 2048, 0, by rw [if_neg unaligned], ?_, by omega, by rw [if_neg unaligned, Nat.add_zero]⟩
    exact Puts.nothing fun k => by omega

theorem checksumMiddle_puts (file path buf : Bytes) (small : offset + buf.length < 2 ^ 32) (last : ℕ)
    (end_ : 2048 * last ≤ offset + buf.length) :
    ∀ (fuel block skip : ℕ) (db : Leveldb), last - block < fuel → block ≤ last →
      offset + skip = 2048 * block →
      ∃ db' skip', checksumMiddle path buf (last * 2048) fuel block (2048 * block) skip db =
          some (db', last, 2048 * last, skip') ∧
        Puts path (fun k => block ≤ k ∧ k < last) (blockSum (pwrite file offset buf)) db db' ∧
        offset + skip' = 2048 * last := by
  intro fuel
  induction fuel with
  | zero => intro block skip db enough; omega
  | succ fuel ih =>
    intro block skip db enough reached aligned
    rw [checksumMiddle]
    by_cases more : block < last
    · have inside := @paddedBlock_inside offset block file buf skip aligned (by omega)
      obtain ⟨db', skip', ran, puts, aligned'⟩ := ih (block + 1) (skip + 2048)
        (putChecksum path block (blockSum (pwrite file offset buf) block) db) (by omega) more (by omega)
      refine ⟨db', skip', ?_, ?_, aligned'⟩
      · rw [if_pos (by omega), inside, Nat.mod_eq_of_lt (by omega), Nat.mod_eq_of_lt (by omega)]
        exact ran
      · refine ((Puts.single path (by omega) (blockSum (pwrite file offset buf)) db).trans puts).congr fun k => ?_
        omega
    · obtain rfl : block = last := by omega
      exact ⟨db, skip, by rw [if_neg (by omega)], Puts.nothing fun k => by omega, aligned⟩

theorem checksumLast_puts (file path buf : Bytes) {skip : ℕ} (db : Leveldb) (small : offset + buf.length < 2 ^ 32)
    (aligned : offset + skip = 2048 * ((offset + buf.length) / 2048)) :
    ∃ db', checksumLast (pwrite file offset buf) path buf (offset + buf.length) ((offset + buf.length) / 2048)
        (2048 * ((offset + buf.length) / 2048)) skip db = some db' ∧
      Puts path (fun k => k = (offset + buf.length) / 2048 ∧ (offset + buf.length) % 2048 ≠ 0)
        (blockSum (pwrite file offset buf)) db db' := by
  rw [checksumLast]
  by_cases inside : (offset + buf.length) % 2048 ≠ 0
  · have copied := @pwrite_paddedBlock offset ((offset + buf.length) / 2048) file buf 0 skip
      ((offset + buf.length) % 2048) (by omega) (by omega) (by omega)
    refine ⟨putChecksum path ((offset + buf.length) / 2048)
      (blockSum (pwrite file offset buf) ((offset + buf.length) / 2048)) db, ?_, ?_⟩
    · rw [if_pos inside, if_pos (Nat.mul_comm ..)]
      exact congrArg (fun tmpblk => some (putChecksum path _ (rsCalcWeakSum tmpblk) db)) copied
    · refine (Puts.single path (by omega) (blockSum (pwrite file offset buf)) db).congr fun k => ?_
      exact ⟨And.left, fun same => ⟨same, inside⟩⟩
  · exact ⟨db, by rw [if_neg inside], Puts.nothing fun k both => inside both.2⟩

/-- The block the write begins in, and all behind it that it reaches. -/
theorem checksumUpdate_puts (file path buf : Bytes) (db : Leveldb) (small : offset + buf.length < 2 ^ 32) :
    ∃ db', checksumUpdate (pwrite file offset buf) path buf offset db = some db' ∧
      Puts path (fun k => k = offset / 2048 ∨ (offset / 2048 < k ∧ 2048 * k < offset + buf.length))
        (blockSum (pwrite file offset buf)) db db' := by
  rw [checksumUpdate]
  by_cases same : offset / 2048 = (offset + buf.length) / 2048
  · have read := readTmpblk_eq (Nat.mul_comm (offset / 2048) 2048) (by omega) (pwrite file offset buf)
    have copied := @pwrite_paddedBlock offset (offset / 2048) file buf (offset % 2048) 0 buf.length (by omega)
      (by omega) (by omega)
    rw [List.drop_zero, List.take_length] at copied
    refine ⟨putChecksum path (offset / 2048) (blockSum (pwrite file offset buf) (offset / 2048)) db, ?_, ?_⟩
    · simp only [same, ↓reduceIte] at read copied ⊢
      rw [read, copied, blockSum]
    · refine (Puts.single path (by omega) (blockSum (pwrite file offset buf)) db).congr fun k => ?_
      omega
  · obtain ⟨db₁, first, skip, ran₁, puts₁, aligned, first_eq⟩ := @checksumFirst_puts offset file path buf db small
      (by omega)
    have reached : first ≤ (offset + buf.length) / 2048 := by
      rw [first_eq]
      split <;> omega
    obtain ⟨db₂, skip₂, ran₂, puts₂, aligned₂⟩ := checksumMiddle_puts file path buf small
      ((offset + buf.length) / 2048) (by omega) ((offset + buf.length) / 2048 + 1) first skip db₁ (by omega) reached
      aligned
    obtain ⟨db₃, ran₃, puts₃⟩ := @checksumLast_puts offset file path buf skip₂ db₂ small aligned₂
    refine ⟨db₃, ?_, ?_⟩
    · have begins : (offset / 2048 + if offset % 2048 ≠ 0 then 1 else 0) * 2048 % 2 ^ 32 = 2048 * first := by
        rw [← first_eq]
        omega
      rw [if_neg same]
      simp only [ran₁, bind, Option.bind, begins, ran₂, ran₃]
    · refine ((puts₁.trans puts₂).trans puts₃).congr fun k => ?_
      omega

/-! ## `checksum_enlarge` and `checksum_shrink` -/

theorem putZeros_puts (path : Path) (head count : ℕ) (small : head + count ≤ 2 ^ 21) (db : Leveldb) :
    Puts path (fun k => head ≤ k ∧ k < head + count) (fun _ => checksumZeroblock) db
      ((List.range' head count).foldl (fun db i => putChecksum path i checksumZeroblock db) db) := by
  induction count generalizing head db with
  | zero => exact Puts.nothing fun k => by omega
  | succ count ih =>
    rw [List.range'_succ, List.foldl_cons]
    refine ((Puts.single path (by omega) (fun _ => checksumZeroblock) db).trans (ih (head + 1) (by omega) _)).congr
      fun k => ?_
    omega

/-- The blocks that begin in the hole. -/
theorem checksumEnlarge_puts (path : Path) {oldsize newsize : ℕ} (db : Leveldb) (grows : oldsize < newsize)
    (small : newsize < 2 ^ 32) :
    ∃ db', checksumEnlarge path oldsize newsize db = some db' ∧
      Puts path (fun k => oldsize ≤ 2048 * k ∧ 2048 * k < newsize) (fun _ => checksumZeroblock) db db' := by
  have head : (if 0 < oldsize then ((oldsize - 1) / 2048 + 1) % 2 ^ 32 else 0) = (oldsize + 2047) / 2048 := by
    split <;> omega
  have rear : (if 0 < newsize then (newsize - 1) / 2048 % 2 ^ 32 else 2 ^ 32 - 1) = (newsize - 1) / 2048 := by
    split <;> omega
  have ends : (newsize - 1) / 2048 ≠ 2 ^ 32 - 1 := by omega
  refine ⟨_, by simp only [checksumEnlarge, head, rear, if_neg ends]; rfl, ?_⟩
  refine (putZeros_puts path _ _ (by omega) db).congr fun k => ?_
  omega

/-- The block that becomes the last one. -/
theorem checksumShrink_puts (file path : Bytes) {newsize : ℕ} (db : Leveldb) (positive : 0 < newsize)
    (shrinks : newsize ≤ file.length) (small : newsize < 2 ^ 32) :
    ∃ db', checksumShrink file path newsize db = some db' ∧
      Puts path (· = (newsize - 1) / 2048) (blockSum (resize newsize file)) db db' := by
  have full : (pread file ((newsize - 1) / 2048 * 2048) (newsize - (newsize - 1) / 2048 * 2048)).length =
      newsize - (newsize - 1) / 2048 * 2048 := by
    rw [pread_length]
    omega
  have read : readTmpblk file ((newsize - 1) / 2048 * 2048) (newsize - (newsize - 1) / 2048 * 2048) =
      paddedBlock (resize newsize file) ((newsize - 1) / 2048) := by
    refine eq_paddedBlock (readTmpblk_length ..) fun position inside => ?_
    rw [readTmpblk_getD file inside, getD_resize, Nat.mul_comm]
    split <;> split <;> first | rfl | omega
  refine ⟨putChecksum path ((newsize - 1) / 2048) (blockSum (resize newsize file) ((newsize - 1) / 2048)) db, ?_,
    Puts.single path (by omega) _ db⟩
  rw [checksumShrink, if_neg (by omega)]
  simp only [full, read, ↓reduceIte, blockSum, Nat.mul_div_left _ (show 0 < 2048 by decide)]

/-! ## The invariant -/

/-- The database has the sum of every block of the file. -/
def Stored (path : Path) (state : Checked) : Prop :=
  ∀ k, 2048 * k < state.file.length →
    state.db (checksumKey path k) = some (ofNatLE 4 (rsCalcWeakSum (paddedBlock state.file k)).toNat)

/-- Keys other than those of blocks of the file are as before. -/
def KeepsOthers (path : Path) (db db' : Leveldb) : Prop :=
  ∀ key, (∀ k < 2 ^ 21, key ≠ checksumKey path k) → db' key = db key

theorem Puts.keepsOthers {blocks : ℕ → Prop} {sum : ℕ → UInt32} (puts : Puts path blocks sum db db') :
    KeepsOthers path db db' := fun key apart => puts.kept key fun k inside => apart k (puts.bound k inside)

theorem KeepsOthers.trans (first : KeepsOthers path db db') (second : KeepsOthers path db' db'') :
    KeepsOthers path db db'' := fun key apart => (second key apart).trans (first key apart)

/-- The change stays below four gibibytes. -/
def Change.Below : Change → Prop
  | .write offset data => offset + data.length < 2 ^ 32
  | .truncate size => size < 2 ^ 32

variable {state : Checked}

/-- The sums of the old blocks, and zeros for the blocks that begin in a hole. -/
theorem hole_sums {start newsize : ℕ} (small : state.file.length < 2 ^ 32) (stored : Stored path state)
    (below : newsize < 2 ^ 32) (hole : newsize = max state.file.length start) :
    ∃ db', enlargeTo path state.file.length start state.db = some db' ∧ KeepsOthers path state.db db' ∧
      ∀ k, 2048 * k < newsize →
        db' (checksumKey path k) = some (ofNatLE 4 (rsCalcWeakSum (paddedBlock state.file k)).toNat) := by
  rw [enlargeTo]
  by_cases grows : state.file.length < start
  · obtain ⟨db', ran, puts⟩ := checksumEnlarge_puts path state.db grows (by omega)
    refine ⟨db', by rw [if_pos grows, ran], puts.keepsOthers, fun k inside => ?_⟩
    by_cases old : 2048 * k < state.file.length
    · rw [puts.kept_block (by omega) (by omega)]
      exact stored k old
    · rw [puts.put k (by omega), ← zero_block fun position _ => List.getD_eq_default _ _ (by omega)]
  · exact ⟨state.db, by rw [if_neg grows], fun _ _ => rfl, fun k inside => stored k (by omega)⟩

theorem checkedWrite_stored {buf : Bytes} (small : state.file.length < 2 ^ 32) (stored : Stored path state)
    (below : offset + buf.length < 2 ^ 32) :
    ∃ after, checkedWrite path offset buf state = some after ∧ after.file = pwrite state.file offset buf ∧
      Stored path after ∧ KeepsOthers path state.db after.db := by
  obtain ⟨db₁, ran₁, kept₁, sums⟩ := hole_sums small stored (by omega) (Eq.refl (max state.file.length offset))
  obtain ⟨db₂, ran₂, puts⟩ := @checksumUpdate_puts offset state.file path buf db₁ below
  refine ⟨⟨pwrite state.file offset buf, db₂⟩, ?_, rfl, fun k inside => ?_, kept₁.trans puts.keepsOthers⟩
  · simp only [checkedWrite, ran₁, bind, Option.bind, ran₂, pure]
  · change 2048 * k < (pwrite state.file offset buf).length at inside
    by_cases touched : k = offset / 2048 ∨ (offset / 2048 < k ∧ 2048 * k < offset + buf.length)
    · exact puts.put k touched
    · -- no octet of the block was written
      have clear : ∀ position < 2048, ¬ (offset ≤ 2048 * k + position ∧ 2048 * k + position < offset + buf.length) := by
        intro position _
        omega
      have same : paddedBlock (pwrite state.file offset buf) k = paddedBlock state.file k :=
        paddedBlock_congr fun position bound => by rw [getD_pwrite, if_neg (clear position bound)]
      have length : (pwrite state.file offset buf).length ≤ max state.file.length (offset + buf.length) := by
        by_cases empty : buf = []
        · simp [empty]
        · rw [pwrite_length _ _ empty]
      exact (puts.kept_block (by omega) touched).trans (same.symm ▸ sums k (by omega))

theorem checkedTruncate_stored {size : ℕ} (small : state.file.length < 2 ^ 32) (stored : Stored path state)
    (below : size < 2 ^ 32) :
    ∃ after, checkedTruncate path size state = some after ∧ after.file = resize size state.file ∧
      Stored path after ∧ KeepsOthers path state.db after.db := by
  obtain ⟨db₁, ran₁, kept₁, sums⟩ := hole_sums small stored (by omega) (Eq.refl (max state.file.length size))
  by_cases shrinks : size < state.file.length
  · by_cases empty : size = 0
    · refine ⟨⟨resize size state.file, db₁⟩, ?_, rfl, fun k inside => ?_, kept₁⟩
      · simp only [checkedTruncate, ran₁, bind, Option.bind, pure, shrinkTo, if_pos shrinks, checksumShrink, if_pos empty]
      · change 2048 * k < (resize size state.file).length at inside
        rw [resize_length] at inside
        omega
    · obtain ⟨db₂, ran₂, puts⟩ := checksumShrink_puts state.file path db₁ (show 0 < size by omega) shrinks.le below
      refine ⟨⟨resize size state.file, db₂⟩, ?_, rfl, fun k inside => ?_, kept₁.trans puts.keepsOthers⟩
      · simp only [checkedTruncate, ran₁, bind, Option.bind, pure, shrinkTo, if_pos shrinks, ran₂]
      · change 2048 * k < (resize size state.file).length at inside
        rw [resize_length] at inside
        by_cases last : k = (size - 1) / 2048
        · exact puts.put k last
        · have same : paddedBlock (resize size state.file) k = paddedBlock state.file k :=
            paddedBlock_congr fun position bound => by rw [getD_resize, if_pos (by omega)]
          exact (puts.kept_block (by omega) last).trans (same.symm ▸ sums k (by omega))
  · refine ⟨⟨resize size state.file, db₁⟩, ?_, rfl, fun k inside => ?_, kept₁⟩
    · simp only [checkedTruncate, ran₁, bind, Option.bind, pure, shrinkTo, if_neg shrinks]
    · change 2048 * k < (resize size state.file).length at inside
      rw [resize_length] at inside
      have same : paddedBlock (resize size state.file) k = paddedBlock state.file k := by
        refine paddedBlock_congr fun position bound => ?_
        rw [getD_resize]
        split
        · rfl
        · exact (List.getD_eq_default _ _ (by omega)).symm
      exact same.symm ▸ sums k (by omega)

/-- One call. -/
theorem checkedChange_stored (change : Change) (small : state.file.length < 2 ^ 32) (stored : Stored path state)
    (below : change.Below) :
    ∃ after, checkedChange path change state = some after ∧ after.file = change.apply state.file ∧
      after.file.length < 2 ^ 32 ∧ Stored path after ∧ KeepsOthers path state.db after.db := by
  cases change with
  | write offset data =>
    obtain ⟨after, ran, file, stored', kept⟩ := checkedWrite_stored small stored below
    refine ⟨after, ran, file, ?_, stored', kept⟩
    rw [file]
    change offset + data.length < 2 ^ 32 at below
    by_cases empty : data = []
    · rw [empty, pwrite_nil]
      exact small
    · rw [pwrite_length _ _ empty]
      omega
  | truncate size =>
    obtain ⟨after, ran, file, stored', kept⟩ := checkedTruncate_stored small stored below
    exact ⟨after, ran, file, by rw [file, resize_length]; exact below, stored', kept⟩

/-- A sequence of calls. -/
theorem checkedChanges_stored (changes : List Change) (small : state.file.length < 2 ^ 32)
    (stored : Stored path state) (below : ∀ change ∈ changes, change.Below) :
    ∃ after, checkedChanges path changes state = some after ∧ after.file = changes.foldl Change.apply state.file ∧
      Stored path after ∧ KeepsOthers path state.db after.db := by
  induction changes generalizing state with
  | nil => exact ⟨state, rfl, rfl, stored, fun _ _ => rfl⟩
  | cons change rest ih =>
    obtain ⟨here, later⟩ := List.forall_mem_cons.mp below
    obtain ⟨next, ran, file, small', stored', kept⟩ := checkedChange_stored change small stored here
    obtain ⟨after, ran', file', stored'', kept'⟩ := ih small' stored' later
    refine ⟨after, ?_, by rw [file', file]; rfl, stored'', kept.trans kept'⟩
    simp only [checkedChanges, ran, bind, Option.bind, ran']

/-- After any sequence of writes and truncates below four gibibytes the database has the weak sum of
every block of the file, and the keys of other files, their names and the numbers of their blocks
behind these, are as before. -/
theorem checksums_follow_file (path : Path) (changes : List Change) (state : Checked)
    (small : state.file.length < 2 ^ 32) (stored : Stored path state) (below : ∀ change ∈ changes, change.Below) :
    ∃ after, checkedChanges path changes state = some after ∧ after.file = changes.foldl Change.apply state.file ∧
      (∀ k, 2048 * k < after.file.length → after.db (checksumKey path k) =
        some (ofNatLE 4 (rsCalcWeakSum (resize 2048 (pread after.file (2048 * k) 2048))).toNat)) ∧
      (∀ other k, other ≠ path → after.db (checksumKey other k) = state.db (checksumKey other k)) ∧
      ∀ name, 0 ∉ name → after.db name = state.db name := by
  obtain ⟨after, ran, file, stored, kept⟩ := checkedChanges_stored changes small stored below
  refine ⟨after, ran, file, stored, fun other k different => ?_, fun name string => ?_⟩
  · exact kept _ fun i _ same => different (checksumKey_path same).1
  · refine kept _ fun i bound same => string ?_
    rw [same]
    exact zero_mem_checksumKey bound

/-- A write across a hole, a write inside, a cut and an extension of a new file. -/
def holedFile : List Change := [.write 3 [7, 8], .write 0 [1], .truncate 4, .truncate 2050]

theorem checksums_follow_holed_file :
    ∃ after, checkedChanges [47, 97] holedFile ⟨[], fun _ => none⟩ = some after ∧
      after.db (checksumKey [47, 97] 1) = some (ofNatLE 4 checksumZeroblock.toNat) := by
  obtain ⟨after, ran, file, sums, -, -⟩ := checksums_follow_file [47, 97] holedFile ⟨[], fun _ => none⟩ (by decide)
    (fun k inside => absurd inside (Nat.not_lt_zero _)) (by simp [holedFile, Change.Below])
  refine ⟨after, ran, ?_⟩
  have length : after.file.length = 2050 := by
    rw [file]
    exact resize_length ..
  rw [sums 1 (by omega), file]
  decide +kernel

end DeltaCFS
