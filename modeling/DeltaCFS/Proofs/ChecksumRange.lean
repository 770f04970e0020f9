import DeltaCFS.Proofs.BlockChecksum

/-! # Where the loops over the middle blocks read

`checksum_update` and `checksum_check` count the octets they have passed in a `uint32_t` and compare
it with an end in 64 bits. Below four gibibytes the loops end and sum blocks of the buffer. From there
on the counter is always below the end: the loop of `checksum_update` never stops, that of
`checksum_check` not as long as the sums agree, and it leaves the buffer.
-/

namespace DeltaCFS

open Bytes

variable {path file buf : Bytes} {offset size limit last fuel block curOffset remainder : ℕ} {db : Leveldb}

/-! ## What the loops sum -/

/-- Where the blocks begin that the loop of `checksum_update` sums in the buffer, if it ends. -/
def middleSources (limit : ℕ) : ℕ → ℕ → ℕ → Option (List ℕ)
  | 0, _, _ => none
  | fuel + 1, curOffset, remainder =>
    if curOffset < limit then
      (middleSources limit fuel ((curOffset + 2048) % 2 ^ 32) ((remainder + 2048) % 2 ^ 32)).map (remainder :: ·)
    else some []

/-- The sums of these blocks of the buffer are put, one after the other. -/
def putSources (path buf : Bytes) : List ℕ → ℕ → Leveldb → Leveldb
  | [], _, db => db
  | source :: rest, block, db =>
    putSources path buf rest (block + 1) (putChecksum path block (rsCalcWeakSum ((buf.drop source).take 2048)) db)

/-- The loop ends when its counters do, and puts the sums of the blocks they pass. -/
theorem checksumMiddle_sources (path buf : Bytes) (limit fuel block curOffset remainder : ℕ) (db : Leveldb) :
    (checksumMiddle path buf limit fuel block curOffset remainder db).map Prod.fst =
      (middleSources limit fuel curOffset remainder).map fun sources => putSources path buf sources block db := by
  induction fuel generalizing block curOffset remainder db with
  | zero => rfl
  | succ fuel ih =>
    rw [checksumMiddle, middleSources]
    by_cases more : curOffset < limit
    · rw [if_pos more, if_pos more, ih, Option.map_map]
      rfl
    · rw [if_neg more, if_neg more]
      rfl

/-- The loop of `checksum_update`, if the call comes to it: it ends, and the blocks whose sums it puts lie
inside the buffer. -/
def UpdateInside (file path buf : Bytes) (offset : ℕ) (db : Leveldb) : Prop :=
  let limit := (offset + buf.length) / 2048 * 2048
  let curOffset := (offset / 2048 + if offset % 2048 ≠ 0 then 1 else 0) * 2048 % 2 ^ 32
  offset / 2048 ≠ (offset + buf.length) / 2048 →
  ∀ db' block remainder, checksumFirst file path buf offset db = some (db', block, remainder) →
  ∃ fuel sources, middleSources limit fuel curOffset remainder = some sources ∧
    (checksumMiddle path buf limit fuel block curOffset remainder db').map Prod.fst =
      some (putSources path buf sources block db') ∧
    ∀ source ∈ sources, source + 2048 ≤ buf.length

/-- A piece of `checksum_check` that ends, and sums blocks inside the buffer. -/
def EndsInside {α : Type} (size : ℕ) (outcome : Option (Check α)) : Prop :=
  ∃ check, outcome = some check ∧ ∀ source ∈ check.sources, source + 2048 ≤ size

/-- `checksum_check` ends, and the blocks its loop sums lie inside the buffer. -/
def CheckInside (file path buf : Bytes) (offset : ℕ) (db : Leveldb) : Prop :=
  ∃ fuel, EndsInside buf.length (checksumCheck fuel file path buf offset db)

/-! ## Below four gibibytes -/

theorem middleSources_inside (small : offset + size < 2 ^ 32) (end_ : 2048 * last ≤ offset + size) :
    ∀ fuel block skip : ℕ, last - block < fuel → block ≤ last → offset + skip = 2048 * block →
      ∃ sources, middleSources (last * 2048) fuel (2048 * block) skip = some sources ∧
        ∀ source ∈ sources, source + 2048 ≤ size := by
  intro fuel
  induction fuel with
  | zero => intro block skip enough; omega
  | succ fuel ih =>
    intro block skip enough reached aligned
    rw [middleSources]
    by_cases more : block < last
    · obtain ⟨sources, ran, inside⟩ := ih (block + 1) (skip + 2048) (by omega) more (by omega)
      refine ⟨skip :: sources, ?_, ?_⟩
      · rw [if_pos (by omega), Nat.mod_eq_of_lt (by omega), Nat.mod_eq_of_lt (by omega)]
        exact congrArg (Option.map (skip :: ·)) ran
      · exact List.forall_mem_cons.mpr ⟨by omega, inside⟩
    · exact ⟨[], if_neg (by omega), fun source none => absurd none List.not_mem_nil⟩

theorem checksumFirst_counters {db' : Leveldb} (small : offset + size < 2 ^ 32)
    (crosses : offset / 2048 < (offset + size) / 2048)
    (first : checksumFirst file path buf offset db = some (db', block, remainder)) :
    offset + remainder = 2048 * (offset / 2048 + if offset % 2048 ≠ 0 then 1 else 0) := by
  rw [checksumFirst] at first
  split at first
  · next unaligned =>
    rw [if_pos (by omega)] at first
    cases first
    rw [if_pos unaligned]
    omega
  · next aligned =>
    cases first
    rw [if_neg aligned]
    omega

theorem updateInside_of_small (small : offset + buf.length < 2 ^ 32) : UpdateInside file path buf offset db := by
  intro crosses db' block remainder first
  have aligned := checksumFirst_counters small (by omega) first
  have begins : (offset / 2048 + if offset % 2048 ≠ 0 then 1 else 0) * 2048 % 2 ^ 32 =
      2048 * (offset / 2048 + if offset % 2048 ≠ 0 then 1 else 0) := by
    split <;> omega
  have reached : (offset / 2048 + if offset % 2048 ≠ 0 then 1 else 0) ≤ (offset + buf.length) / 2048 := by
    split <;> omega
  obtain ⟨sources, ran, inside⟩ := middleSources_inside small (Nat.mul_div_le _ 2048)
    ((offset + buf.length) / 2048 + 1) _ remainder (by omega) reached aligned
  refine ⟨_, sources, by rw [begins, ran], ?_, inside⟩
  rw [checksumMiddle_sources, begins, ran, Option.map_some]

namespace EndsInside

variable {α β : Type} {check : Check α}

theorem andThen {next : α → Option (Check β)} (inside : ∀ source ∈ check.sources, source + 2048 ≤ size)
    (later : ∀ value, check.result = .ok value → EndsInside size (next value)) :
    EndsInside size (check.andThen next) := by
  rw [Check.andThen]
  cases outcome : check.result with
  | error exit => exact ⟨_, rfl, inside⟩
  | ok value =>
    obtain ⟨rest, ran, inside'⟩ := later value outcome
    refine ⟨⟨rest.result, check.keys ++ rest.keys, check.sources ++ rest.sources⟩, ?_, ?_⟩
    · simp only [ran, Option.map_some]
    · exact List.forall_mem_append.mpr ⟨inside, inside'⟩

/-- A piece that takes nothing from the buffer. -/
theorem of_nil (nothing : check.sources = []) : EndsInside size (some check) :=
  ⟨check, rfl, by rw [nothing]; exact fun source none => absurd none List.not_mem_nil⟩

end EndsInside

theorem checkLast_sources (file path : Bytes) (last block curOffset : ℕ) (db : Leveldb) :
    (checkLast file path last block curOffset db).sources = [] := by
  rw [checkLast]
  split
  · split <;> rfl
  · rfl

theorem checkMiddle_inside (small : offset + size < 2 ^ 32) (end_ : 2048 * last ≤ offset + size) :
    ∀ fuel block number skip : ℕ, last - block < fuel → block ≤ last → offset + skip = 2048 * block →
      EndsInside size (checkMiddle path buf (last * 2048) db fuel number (2048 * block) skip) := by
  intro fuel
  induction fuel with
  | zero => intro block number skip enough; omega
  | succ fuel ih =>
    intro block number skip enough reached aligned
    rw [checkMiddle]
    by_cases more : block < last
    · rw [if_pos (by omega)]
      refine EndsInside.andThen (List.forall_mem_singleton.mpr (by omega)) fun _ _ => ?_
      rw [Nat.mod_eq_of_lt (by omega), Nat.mod_eq_of_lt (by omega)]
      exact ih (block + 1) (number + 1) (skip + 2048) (by omega) more (by omega)
    · rw [if_neg (by omega)]
      exact EndsInside.of_nil rfl

theorem checkFirst_counters (file path : Bytes) (db : Leveldb) (small : offset + size < 2 ^ 32)
    (crosses : offset / 2048 < (offset + size) / 2048) :
    ∃ check, checkFirst file path offset db = some check ∧ check.sources = [] ∧
      ∀ counters, check.result = .ok counters →
        ∃ block, counters.2.1 = 2048 * block ∧ offset + counters.2.2 = 2048 * block ∧
          block ≤ (offset + size) / 2048 := by
  rw [checkFirst]
  by_cases unaligned : offset % 2048 ≠ 0
  · rw [if_pos unaligned, Check.andThen]
    cases (compareChecksum path (offset / 2048)
      (rsCalcWeakSum (readTmpblk file (offset / 2048 * 2048 % 2 ^ 32) 2048)) [] db).result with
    | error exit => exact ⟨_, rfl, rfl, fun _ impossible => by cases impossible⟩
    | ok value =>
      refine ⟨_, rfl, rfl, fun counters passed => ?_⟩
      cases passed
      exact ⟨offset / 2048 + 1, by dsimp only; omega, by dsimp only; omega, crosses⟩
  · rw [if_neg unaligned]
    refine ⟨_, rfl, rfl, fun counters passed => ?_⟩
    cases passed
    exact ⟨offset / 2048, by dsimp only; omega, by dsimp only; omega, crosses.le⟩

theorem checkInside_of_small (small : offset + buf.length < 2 ^ 32) : CheckInside file path buf offset db := by
  refine ⟨(offset + buf.length) / 2048 + 1, ?_⟩
  rw [checksumCheck]
  by_cases same : offset / 2048 = (offset + buf.length) / 2048
  · rw [if_pos same]
    exact EndsInside.of_nil rfl
  · obtain ⟨first, ran, nothing, counters⟩ := checkFirst_counters file path db small (by omega)
    rw [if_neg same, ran]
    refine EndsInside.andThen (by rw [nothing]; exact fun source none => absurd none List.not_mem_nil)
      fun value passed => ?_
    obtain ⟨number, curOffset, remainder⟩ := value
    obtain ⟨block, rfl, aligned, reached⟩ := counters _ passed
    obtain ⟨middle, ran', inside⟩ := @checkMiddle_inside path buf offset buf.length _ db small (Nat.mul_div_le _ 2048)
      ((offset + buf.length) / 2048 + 1) block number remainder (by omega) reached aligned
    simp only [ran', bind, Option.bind]
    exact EndsInside.andThen inside fun _ _ => EndsInside.of_nil (checkLast_sources ..)

/-! ## From four gibibytes on -/

namespace Check

variable {α β : Type} {check : Check α} {whole : Check β} {value : α} {next : α → Option (Check β)}

theorem andThen_ok (ran : check.andThen next = some whole) (passed : check.result = .ok value) :
    ∃ rest, next value = some rest ∧ whole.sources = check.sources ++ rest.sources := by
  simp only [andThen, passed] at ran
  obtain ⟨rest, ran', rfl⟩ := Option.map_eq_some_iff.mp ran
  exact ⟨rest, ran', rfl⟩

theorem sources_subset_andThen (ran : check.andThen next = some whole) : check.sources ⊆ whole.sources := by
  cases outcome : check.result with
  | error exit =>
    simp only [andThen, outcome] at ran
    cases ran
    exact List.Subset.refl _
  | ok value =>
    obtain ⟨rest, -, joined⟩ := andThen_ok ran outcome
    rw [joined]
    exact List.subset_append_left ..

end Check

/-- A counter of 32 bits never reaches an end that needs more. -/
theorem middleSources_none (large : 2 ^ 32 ≤ limit) (fuel : ℕ) (below : curOffset < 2 ^ 32) :
    middleSources limit fuel curOffset remainder = none := by
  induction fuel generalizing curOffset remainder with
  | zero => rfl
  | succ fuel ih =>
    rw [middleSources, if_pos (by omega), ih (Nat.mod_lt _ (by decide))]
    rfl

theorem not_updateInside {db' : Leveldb} (large : 2 ^ 32 ≤ offset + buf.length)
    (crosses : offset / 2048 ≠ (offset + buf.length) / 2048)
    (first : checksumFirst file path buf offset db = some (db', block, remainder)) :
    ¬ UpdateInside file path buf offset db := by
  intro inside
  obtain ⟨fuel, sources, ran, -⟩ := inside crosses db' block remainder first
  rw [middleSources_none (by omega) fuel (Nat.mod_lt _ (by decide))] at ran
  cases ran

/-- The sum of a block of zeros under every key. -/
def zeroSums : Leveldb := fun _ => some (ofNatLE 4 checksumZeroblock.toNat)

theorem compareChecksum_zeroSums (path : Path) (block : ℕ) (sources : List ℕ) :
    (compareChecksum path block checksumZeroblock sources zeroSums).result = .ok () := by
  have read : (ofNatLE 4 checksumZeroblock.toNat).take 4 = ofNatLE 4 checksumZeroblock.toNat :=
    List.take_of_length_le (by rw [ofNatLE_length])
  simp only [compareChecksum, zeroSums, read, ↓reduceIte]

/-- The loop goes on until it has left the buffer. -/
theorem checkMiddle_leaves (large : 2 ^ 32 ≤ limit) {check : Check (ℕ × ℕ × ℕ)} (below : curOffset < 2 ^ 32)
    (ran : checkMiddle path (List.replicate size 0) limit zeroSums fuel block curOffset remainder = some check) :
    ∃ source ∈ check.sources, size < source + 2048 := by
  induction fuel generalizing block curOffset remainder check with
  | zero => cases ran
  | succ fuel ih =>
    rw [checkMiddle, if_pos (by omega)] at ran
    by_cases inside : remainder + 2048 ≤ size
    · have zeros : ((List.replicate size (0 : UInt8)).drop remainder).take 2048 = List.replicate 2048 0 := by
        rw [List.drop_replicate, List.take_replicate, min_eq_left (by omega)]
      rw [zeros, ← checksumZeroblock_eq] at ran
      obtain ⟨rest, ran', joined⟩ := Check.andThen_ok ran (compareChecksum_zeroSums ..)
      obtain ⟨source, mem, outside⟩ := ih (Nat.mod_lt _ (by decide)) ran'
      exact ⟨source, joined ▸ List.mem_append_right _ mem, outside⟩
    · exact ⟨remainder, Check.sources_subset_andThen ran (List.mem_singleton_self remainder), by omega⟩

/-- The blocks of a file of zeros. -/
theorem rsCalcWeakSum_zeros (length offset : ℕ) :
    rsCalcWeakSum (readTmpblk (List.replicate length 0) offset 2048) = checksumZeroblock := by
  rw [checksumZeroblock_eq]
  congr 1
  refine ext_getD (by rw [readTmpblk_length, List.length_replicate]) fun position inside => ?_
  rw [List.length_replicate] at inside
  rw [readTmpblk_getD _ inside, if_pos inside, List.getD_replicate _ inside]
  by_cases there : offset + position < length
  · rw [List.getD_replicate _ there]
  · rw [List.getD_eq_default _ _ (by rw [List.length_replicate]; omega)]

theorem checkFirst_zeroSums (length : ℕ) (path : Path) (offset : ℕ) :
    ∃ check counters, checkFirst (List.replicate length 0) path offset zeroSums = some check ∧
      check.result = .ok counters ∧ counters.2.1 < 2 ^ 32 := by
  rw [checkFirst]
  by_cases unaligned : offset % 2048 ≠ 0
  · rw [if_pos unaligned, Check.andThen]
    simp only [rsCalcWeakSum_zeros, compareChecksum_zeroSums]
    exact ⟨_, _, rfl, rfl, Nat.mod_lt _ (by decide)⟩
  · rw [if_neg unaligned]
    exact ⟨_, _, rfl, rfl, Nat.mod_lt _ (by decide)⟩

/-- Over zeros whose sums are right `checksum_check` does not come to an end inside the buffer. -/
theorem not_checkInside (length : ℕ) (large : 2 ^ 32 ≤ offset + size)
    (crosses : offset / 2048 ≠ (offset + size) / 2048) :
    ¬ CheckInside (List.replicate length 0) path (List.replicate size 0) offset zeroSums := by
  rintro ⟨fuel, check, ran, inside⟩
  obtain ⟨first, counters, ran₁, passed, below⟩ := checkFirst_zeroSums length path offset
  rw [List.length_replicate] at inside
  rw [checksumCheck, List.length_replicate, if_neg crosses, ran₁] at ran
  obtain ⟨number, curOffset, remainder⟩ := counters
  obtain ⟨rest, ran₂, joined⟩ := Check.andThen_ok ran passed
  obtain ⟨middle, ran₃, ran₄⟩ := Option.bind_eq_some_iff.mp ran₂
  obtain ⟨source, mem, outside⟩ := checkMiddle_leaves (by omega) below ran₃
  have bound := inside source (joined ▸ List.mem_append_right _ (Check.sources_subset_andThen ran₄ mem))
  omega

/-- The loops of both functions end inside the buffer, whatever the file, the buffer and the sums, if the
range lies in one block or below four gibibytes, and not otherwise. -/
theorem range_loops_inside_iff (offset size : ℕ) :
    (∀ (file path buf : Bytes) (db : Leveldb), buf.length = size →
      UpdateInside file path buf offset db ∧ CheckInside file path buf offset db) ↔
      offset / 2048 = (offset + size) / 2048 ∨ offset + size < 2 ^ 32 := by
  constructor
  · intro inside
    by_contra fails
    obtain ⟨crosses, large⟩ := not_or.mp fails
    exact not_checkInside 0 (by omega) crosses (inside [] [] (List.replicate size 0) zeroSums (List.length_replicate ..)).2
  · rintro (same | small) file path buf db rfl
    · refine ⟨fun crosses => absurd same crosses, 0, ?_⟩
      rw [checksumCheck, if_pos same]
      exact EndsInside.of_nil rfl
    · exact ⟨updateInside_of_small small, checkInside_of_small small⟩

/-- Two blocks around the end of the first four gibibytes of a file of zeros. -/
theorem four_gibibytes_never_end :
    ¬ UpdateInside (List.replicate (2 ^ 32 + 2048) 0) [47, 97] (List.replicate 4096 0) (2 ^ 32 - 2048) zeroSums ∧
      ¬ CheckInside (List.replicate (2 ^ 32 + 2048) 0) [47, 97] (List.replicate 4096 0) (2 ^ 32 - 2048) zeroSums := by
  have large : 2 ^ 32 ≤ 2 ^ 32 - 2048 + 4096 := by decide
  have crosses : (2 ^ 32 - 2048) / 2048 ≠ (2 ^ 32 - 2048 + 4096) / 2048 := by decide
  have length : (List.replicate 4096 (0 : UInt8)).length = 4096 := List.length_replicate ..
  exact ⟨not_updateInside (by rw [length]; exact large) (by rw [length]; exact crosses) (if_neg (by decide)),
    not_checkInside _ large crosses⟩

end DeltaCFS
