import DeltaCFS.Model.Librsync.Delta
import DeltaCFS.Proofs.Librsync.Signature
import DeltaCFS.ToMathlib.TagTable

/-! # What a search hit means

A hit names a block of the old file with the weak sum of the window. That the window is also the
content of the old file there does not follow: the comparison covers what was in the buffer before
when the block is shorter than the window, and it is with another place of the old file when the offset
of the block does not fit an `int`.
-/

namespace DeltaCFS

open Bytes

/-- The environment in which `compute_delta` runs the delta job on the old file. -/
def deltaEnv (qsort : Qsort) (sigStack searchStack : Stack) (old : Bytes) : DeltaEnv :=
  rsBuildHashTable qsort (loadedSignature sigStack old) old searchStack

variable {qsort : Qsort} {sigStack searchStack : Stack} {old window : Bytes}

theorem blockSigs_getD {i : ℕ} (bound : i < blockCount old) :
    (deltaEnv qsort sigStack searchStack old).sig.blockSigs.getD i default =
      ⟨i + 1, rsCalcWeakSum (blockAt old i), sigStack.octets i defaultStrongLen⟩ := by
  simp [deltaEnv, rsBuildHashTable, loadedSignature, loadedSigs, bound]

/-! ## The candidates

Tags and sorting only save time: the search goes through the blocks with the weak sum of the window,
in the order that `qsort` has given them. -/

/-- The target of a block. -/
def blockTarget (old : Bytes) (i : ℕ) : Target := ⟨gettag (rsCalcWeakSum (blockAt old i)), i⟩

/-- The blocks in the order of their targets. -/
def sortedBlocks (qsort : Qsort) (old : Bytes) : List ℕ :=
  (qsort.run ((List.range (blockCount old)).map (blockTarget old))).map Target.i

/-- The blocks with the weak sum. -/
def candidates (qsort : Qsort) (old : Bytes) (weakSum : UInt32) : List ℕ :=
  (sortedBlocks qsort old).filter fun i => rsCalcWeakSum (blockAt old i) = weakSum

theorem mem_sortedBlocks {i : ℕ} : i ∈ sortedBlocks qsort old ↔ i < blockCount old := by
  rw [sortedBlocks, ((qsort.perm _).map Target.i).mem_iff, List.map_map]
  simp [blockTarget]

theorem mem_candidates {weakSum : UInt32} {i : ℕ} :
    i ∈ candidates qsort old weakSum ↔ i < blockCount old ∧ rsCalcWeakSum (blockAt old i) = weakSum := by
  simp [candidates, mem_sortedBlocks]

/-- The table holds the targets of the blocks. -/
theorem deltaEnv_targets :
    (deltaEnv qsort sigStack searchStack old).targets = (sortedBlocks qsort old).map (blockTarget old) := by
  have targets : (deltaEnv qsort sigStack searchStack old).targets =
      qsort.run ((List.range (blockCount old)).map (blockTarget old)) := by
    simp only [deltaEnv, rsBuildHashTable, loadedSignature]
    congr 1
    apply List.ext_getElem
    · simp [loadedSigs]
    · intro i first second
      simp [loadedSigs, blockTarget]
  rw [targets, sortedBlocks, List.map_map]
  refine (List.map_id _).symm.trans (List.map_congr_left fun target member => ?_)
  obtain ⟨i, -, rfl⟩ := List.mem_map.mp ((qsort.perm _).mem_iff.mp member)
  rfl

/-- `fseek` and `fread` of a block: the buffer and the position of the file. -/
def readBlock (old : Bytes) (i : ℕ) (state : Bytes × ℕ) : Bytes × ℕ :=
  let pos := seekBlock i defaultBlockLen state.2
  let got := pread old pos defaultBlockLen
  (got ++ state.1.drop got.length, pos + got.length)

/-- The search through the candidates. -/
def blockLoop (old window : Bytes) : List ℕ → Bytes × ℕ → Option ℕ × ℕ
  | [], state => (none, state.2)
  | i :: rest, state =>
    let state := readBlock old i state
    if state.1.take window.length = window then (some (defaultBlockLen * i), state.2)
    else blockLoop old window rest state

/-- The loop ends where the tag changes. -/
theorem rsSearchLoop_takeWhile (env : DeltaEnv) (weakSum : UInt32) (window : Bytes) (targets : List Target)
    (oldbuf : Bytes) (pos : ℕ) :
    rsSearchLoop env weakSum window targets oldbuf pos =
      rsSearchLoop env weakSum window (targets.takeWhile fun target => target.t = gettag weakSum) oldbuf pos := by
  induction targets generalizing oldbuf pos with
  | nil => rfl
  | cons target rest ih =>
    by_cases same : target.t = gettag weakSum
    · rw [List.takeWhile_cons_of_pos (by simpa using same)]
      simp only [rsSearchLoop, same, ne_eq, not_true_eq_false, ↓reduceIte, ih]
    · rw [List.takeWhile_cons_of_neg (by simpa using same)]
      simp only [rsSearchLoop, same, ne_eq, not_false_eq_true, ↓reduceIte]

/-- Among targets of one tag it compares those with the weak sum. -/
theorem rsSearchLoop_blocks {weakSum : UInt32} (indices : List ℕ) (known : ∀ i ∈ indices, i < blockCount old)
    (tagged : ∀ i ∈ indices, gettag (rsCalcWeakSum (blockAt old i)) = gettag weakSum) (oldbuf : Bytes) (pos : ℕ) :
    rsSearchLoop (deltaEnv qsort sigStack searchStack old) weakSum window (indices.map (blockTarget old)) oldbuf pos =
      blockLoop old window (indices.filter fun i => rsCalcWeakSum (blockAt old i) = weakSum) (oldbuf, pos) := by
  induction indices generalizing oldbuf pos with
  | nil => rfl
  | cons i rest ih =>
    have blockLen : (deltaEnv qsort sigStack searchStack old).sig.blockLen = defaultBlockLen := rfl
    have oldFile : (deltaEnv qsort sigStack searchStack old).oldFile = old := rfl
    obtain ⟨bound, known⟩ := List.forall_mem_cons.mp known
    obtain ⟨tag, tagged⟩ := List.forall_mem_cons.mp tagged
    have further := ih known tagged
    have target : (blockTarget old i).t = gettag weakSum := tag
    have number : (blockTarget old i).i = i := rfl
    simp only [List.map_cons, rsSearchLoop, target, number, ne_eq, not_true_eq_false, ↓reduceIte, blockSigs_getD bound,
      blockLen, oldFile, further]
    by_cases weak : rsCalcWeakSum (blockAt old i) = weakSum
    · rw [List.filter_cons_of_pos (by simpa using weak), if_neg (by simp [weak]), blockLoop]
      simp only [readBlock, Nat.add_sub_cancel, Nat.mul_comm i]
      rfl
    · rw [List.filter_cons_of_neg (by simpa using weak), if_pos (Ne.symm weak)]

/-- `rs_search_for_block` compares the window with every candidate until one is equal. -/
theorem rsSearchForBlock_eq (qsort : Qsort) (sigStack searchStack : Stack) (old window : Bytes) (weakSum : UInt32)
    (call pos : ℕ) :
    rsSearchForBlock (deltaEnv qsort sigStack searchStack old) call weakSum window pos =
      blockLoop old window (candidates qsort old weakSum) (searchStack.octets call bufLen, pos) := by
  have sorted : (deltaEnv qsort sigStack searchStack old).targets.Pairwise fun t1 t2 => t1.t ≤ t2.t := by
    refine (qsort.sorted _).imp fun less => ?_
    simp only [rsCompareTargets] at less
    omega
  have row : (deltaEnv qsort sigStack searchStack old).targets.filter (fun target => target.t = gettag weakSum) =
      ((sortedBlocks qsort old).filter fun i => gettag (rsCalcWeakSum (blockAt old i)) = gettag weakSum).map
        (blockTarget old) := by
    rw [deltaEnv_targets, List.filter_map]
    rfl
  have table : (deltaEnv qsort sigStack searchStack old).tagTable (gettag weakSum) =
      (deltaEnv qsort sigStack searchStack old).targets.findIdx? fun target => target.t = gettag weakSum := by
    have filled := TagTable.foldr_update_eq_findIdx Target.t (gettag weakSum)
      (deltaEnv qsort sigStack searchStack old).targets 0
    simp only [Nat.add_zero, Option.map_id_fun'] at filled
    exact filled
  have among : ((sortedBlocks qsort old).filter fun i =>
      gettag (rsCalcWeakSum (blockAt old i)) = gettag weakSum).filter
        (fun i => rsCalcWeakSum (blockAt old i) = weakSum) = candidates qsort old weakSum := by
    rw [List.filter_filter, candidates]
    refine List.filter_congr fun i _ => ?_
    by_cases weak : rsCalcWeakSum (blockAt old i) = weakSum <;> simp [weak]
  rw [rsSearchForBlock, table]
  cases found : (deltaEnv qsort sigStack searchStack old).targets.findIdx? fun target => target.t = gettag weakSum with
  | none =>
    have none : (deltaEnv qsort sigStack searchStack old).targets.filter (fun target => target.t = gettag weakSum) = [] :=
      List.filter_eq_nil_iff.mpr fun target member => by simpa using List.findIdx?_eq_none_iff.mp found target member
    rw [row, List.map_eq_nil_iff] at none
    rw [← among, none]
    rfl
  | some j =>
    simp only []
    rw [rsSearchLoop_takeWhile, TagTable.takeWhile_drop_findIdx sorted found, row, rsSearchLoop_blocks, among]
    · rfl
    · intro i member
      exact mem_sortedBlocks.mp (List.mem_filter.mp member).1
    · intro i member
      simpa using (List.mem_filter.mp member).2

/-! ## The buffer -/

section Buffer

variable (old : Bytes) (blocks : List ℕ) (oldbuf : Bytes) (pos : ℕ)

/-- Where the `k`-th of these blocks is read: at its offset or, if that is negative as an `int`, where the
read before it ended. -/
def readAt : ℕ → ℕ
  | 0 => seekBlock (blocks.getD 0 0) defaultBlockLen pos
  | k + 1 =>
    seekBlock (blocks.getD (k + 1) 0) defaultBlockLen (readAt k + (pread old (readAt k) defaultBlockLen).length)

/-- An octet of the buffer once `k` blocks have been read: the last read that reaches so far has left it. -/
def bufferOctet : ℕ → ℕ → UInt8
  | 0, place => oldbuf.getD place 0
  | k + 1, place => (pread old (readAt old blocks pos k) defaultBlockLen).getD place (bufferOctet k place)

/-- With the `k`-th block in it, the buffer looks like the window. -/
def Resembles (window : Bytes) (k : ℕ) : Prop :=
  ∀ place < window.length, bufferOctet old blocks oldbuf pos (k + 1) place = window.getD place 0

/-- The buffer does not hold the first `len` octets of the `k`-th block: the block is shorter, or its offset
does not fit an `int` and another place has been read. -/
def Misread (len k : ℕ) : Prop :=
  old.length < defaultBlockLen * blocks.getD k 0 + len ∨
    (2 ^ 31 ≤ defaultBlockLen * blocks.getD k 0 ∧
      ∃ place < len, old.getD (defaultBlockLen * blocks.getD k 0 + place) 0 ≠
        bufferOctet old blocks oldbuf pos (k + 1) place)

/-- A block that is misread makes the buffer look like the window, and none of those before it that are read
is the window. -/
def FalseHit (window : Bytes) : Prop :=
  ∃ k < blocks.length, Misread old blocks oldbuf pos window.length k ∧ Resembles old blocks oldbuf pos window k ∧
    ∀ m < k, ¬ Misread old blocks oldbuf pos window.length m →
      pread old (defaultBlockLen * blocks.getD m 0) window.length ≠ window

end Buffer

variable {blocks : List ℕ} {oldbuf : Bytes} {pos : ℕ}

/-- The buffer begins with the window when the blocks have been read in turn. -/
def ComparesEqual (old window : Bytes) (state : Bytes × ℕ) (blocks : List ℕ) : Prop :=
  (blocks.foldl (fun state i => readBlock old i state) state).1.take window.length = window

/-- The buffer and the position of the file when `k` blocks have been read. -/
def blocksRead (old : Bytes) (blocks : List ℕ) (state : Bytes × ℕ) (k : ℕ) : Bytes × ℕ :=
  (blocks.take k).foldl (fun state i => readBlock old i state) state

theorem blocksRead_succ (state : Bytes × ℕ) {k : ℕ} (bound : k < blocks.length) :
    blocksRead old blocks state (k + 1) = readBlock old (blocks.getD k 0) (blocksRead old blocks state k) := by
  rw [blocksRead, List.take_add_one, List.getElem?_eq_getElem bound, List.foldl_append, List.getD_eq_getElem _ _ bound]
  rfl

theorem blocksRead_pos {k : ℕ} (bound : k < blocks.length) :
    (blocksRead old blocks (oldbuf, pos) (k + 1)).2 =
      readAt old blocks pos k + (pread old (readAt old blocks pos k) defaultBlockLen).length := by
  induction k with
  | zero =>
    rw [blocksRead_succ _ bound]
    rfl
  | succ k ih =>
    rw [blocksRead_succ _ bound]
    simp only [readBlock, ih (Nat.lt_of_succ_lt bound), readAt]

theorem blocksRead_octets {k : ℕ} (bound : k < blocks.length) :
    (blocksRead old blocks (oldbuf, pos) (k + 1)).1 = pread old (readAt old blocks pos k) defaultBlockLen ++
      (blocksRead old blocks (oldbuf, pos) k).1.drop (pread old (readAt old blocks pos k) defaultBlockLen).length := by
  have place : seekBlock (blocks.getD k 0) defaultBlockLen (blocksRead old blocks (oldbuf, pos) k).2 =
      readAt old blocks pos k := by
    cases k with
    | zero => rfl
    | succ k => rw [blocksRead_pos (Nat.lt_of_succ_lt bound), readAt]
  rw [blocksRead_succ _ bound, readBlock, place]

theorem blocksRead_getD {k : ℕ} (bound : k ≤ blocks.length) (place : ℕ) :
    (blocksRead old blocks (oldbuf, pos) k).1.getD place 0 = bufferOctet old blocks oldbuf pos k place := by
  induction k with
  | zero => rfl
  | succ k ih =>
    rw [blocksRead_octets bound, bufferOctet, ← ih (Nat.le_of_succ_le bound)]
    simp only [List.getD_eq_getElem?_getD]
    by_cases reached : place < (pread old (readAt old blocks pos k) defaultBlockLen).length
    · rw [List.getElem?_append_left reached, List.getElem?_eq_getElem reached]
      rfl
    · rw [Nat.not_lt] at reached
      rw [List.getElem?_append_right reached, List.getElem?_drop, Nat.add_sub_cancel' reached,
        List.getElem?_eq_none reached, Option.getD_none]

theorem blocksRead_length {k : ℕ} (bound : k ≤ blocks.length) :
    oldbuf.length ≤ (blocksRead old blocks (oldbuf, pos) k).1.length := by
  induction k with
  | zero => exact le_rfl
  | succ k ih =>
    have before := ih (Nat.le_of_succ_le bound)
    rw [blocksRead_octets bound, List.length_append, List.length_drop]
    omega

/-- Lists of one length with the same octets. -/
theorem eq_iff_getD {first second : Bytes} (same : first.length = second.length) :
    first = second ↔ ∀ place < second.length, first.getD place 0 = second.getD place 0 := by
  refine ⟨fun equal _ _ => equal ▸ rfl, fun octets => List.ext_getElem same fun place bound bound' => ?_⟩
  have octet := octets place bound'
  rwa [List.getD_eq_getElem _ _ bound, List.getD_eq_getElem _ _ bound'] at octet

/-- What is compared is what the buffer holds. -/
theorem comparesEqual_iff {k : ℕ} (bound : k < blocks.length) (room : window.length ≤ oldbuf.length) :
    ComparesEqual old window (oldbuf, pos) (blocks.take (k + 1)) ↔ Resembles old blocks oldbuf pos window k := by
  have size := room.trans (@blocksRead_length old blocks oldbuf pos (k + 1) bound)
  change (blocksRead old blocks (oldbuf, pos) (k + 1)).1.take window.length = window ↔ _
  rw [eq_iff_getD (List.length_take_of_le size), Resembles]
  refine forall₂_congr fun place inside => ?_
  rw [← blocksRead_getD bound, List.getD_eq_getElem?_getD, List.getElem?_take_of_lt inside, ← List.getD_eq_getElem?_getD]

theorem pread_eq_iff {offset : ℕ} (inside : offset + window.length ≤ old.length) :
    pread old offset window.length = window ↔ ∀ place < window.length, old.getD (offset + place) 0 = window.getD place 0 := by
  rw [eq_iff_getD (by rw [pread_length]; omega)]
  refine forall₂_congr fun place bound => ?_
  rw [getD_pread _ _ _ _ bound]

/-- A block that is not misread is in the buffer. -/
theorem bufferOctet_of_read {len k place : ℕ} (short : len ≤ defaultBlockLen)
    (read : ¬ Misread old blocks oldbuf pos len k) (inside : place < len) :
    bufferOctet old blocks oldbuf pos (k + 1) place = old.getD (defaultBlockLen * blocks.getD k 0 + place) 0 := by
  obtain ⟨whole, right⟩ := not_or.mp read
  by_cases small : defaultBlockLen * blocks.getD k 0 < 2 ^ 31
  · have sought (pos : ℕ) : seekBlock (blocks.getD k 0) defaultBlockLen pos = defaultBlockLen * blocks.getD k 0 := by
      rw [seekBlock, Nat.mul_comm (blocks.getD k 0), Nat.mod_eq_of_lt (by omega), if_pos small]
    have there : readAt old blocks pos k = defaultBlockLen * blocks.getD k 0 := by
      cases k with
      | zero => exact sought _
      | succ k => exact sought _
    have reached : place < (pread old (defaultBlockLen * blocks.getD k 0) defaultBlockLen).length := by
      rw [pread_length]
      omega
    rw [bufferOctet, there, ← getD_pread old _ defaultBlockLen place (by omega), List.getD_eq_getElem _ _ reached,
      List.getD_eq_getElem _ _ reached]
  · by_contra differs
    exact right ⟨Nat.not_lt.mp small, place, inside, fun same => differs same.symm⟩

theorem resembles_iff_of_read {k : ℕ} (short : window.length ≤ defaultBlockLen)
    (read : ¬ Misread old blocks oldbuf pos window.length k) :
    Resembles old blocks oldbuf pos window k ↔ pread old (defaultBlockLen * blocks.getD k 0) window.length = window := by
  rw [pread_eq_iff (Nat.not_lt.mp (not_or.mp read).1), Resembles]
  refine forall₂_congr fun place inside => ?_
  rw [bufferOctet_of_read short read inside]

/-- A block that is misread and looks like the window is not there. -/
theorem not_there_of_misread {k : ℕ} (misread : Misread old blocks oldbuf pos window.length k)
    (resembles : Resembles old blocks oldbuf pos window k) :
    ¬ (defaultBlockLen * blocks.getD k 0 + window.length ≤ old.length ∧
      pread old (defaultBlockLen * blocks.getD k 0) window.length = window) := by
  rintro ⟨whole, there⟩
  rcases misread with short | ⟨-, place, inside, differs⟩
  · exact absurd whole (Nat.not_le.mpr short)
  · exact differs (((pread_eq_iff whole).mp there place inside).trans (resembles place inside).symm)

/-! ## Hits -/

variable {state : Bytes × ℕ}

/-- The search stops at the first comparison that succeeds. -/
theorem blockLoop_eq_some_iff {matchPos : ℕ} :
    (blockLoop old window blocks state).1 = some matchPos ↔
      ∃ k < blocks.length, matchPos = defaultBlockLen * blocks.getD k 0 ∧
        ComparesEqual old window state (blocks.take (k + 1)) ∧
        ∀ m < k, ¬ ComparesEqual old window state (blocks.take (m + 1)) := by
  induction blocks generalizing state with
  | nil => simp [blockLoop]
  | cons i rest ih =>
    by_cases equal : ComparesEqual old window state [i]
    · have value : (blockLoop old window (i :: rest) state).1 = some (defaultBlockLen * i) := by
        rw [blockLoop]
        exact congrArg Prod.fst (if_pos equal)
      rw [value]
      constructor
      · intro same
        exact ⟨0, Nat.zero_lt_succ _, (Option.some.inj same).symm, equal, fun m less => absurd less (Nat.not_lt_zero m)⟩
      · rintro ⟨k, -, rfl, -, first⟩
        cases k with
        | zero => rfl
        | succ k => exact absurd equal (first 0 (Nat.zero_lt_succ k))
    · have value : (blockLoop old window (i :: rest) state).1 =
          (blockLoop old window rest (readBlock old i state)).1 := by
        conv_lhs => rw [blockLoop]
        exact congrArg Prod.fst (if_neg equal)
      rw [value, ih]
      constructor
      · rintro ⟨k, bound, rfl, here, first⟩
        refine ⟨k + 1, Nat.succ_lt_succ bound, rfl, here, fun m less => ?_⟩
        cases m with
        | zero => exact equal
        | succ m => exact first m (Nat.lt_of_succ_lt_succ less)
      · rintro ⟨k, bound, rfl, here, first⟩
        cases k with
        | zero => exact absurd here equal
        | succ k =>
          exact ⟨k, Nat.lt_of_succ_lt_succ bound, rfl, here, fun m less => first (m + 1) (Nat.succ_lt_succ less)⟩

/-- Without a comparison that succeeds it finds nothing. -/
theorem blockLoop_eq_none (missed : (blockLoop old window blocks state).1 = none) {k : ℕ} (bound : k < blocks.length) :
    ¬ ComparesEqual old window state (blocks.take (k + 1)) := by
  intro equal
  classical
  have some_ : ∃ k, k < blocks.length ∧ ComparesEqual old window state (blocks.take (k + 1)) := ⟨k, bound, equal⟩
  have found := blockLoop_eq_some_iff.mpr ⟨Nat.find some_, (Nat.find_spec some_).1, rfl, (Nat.find_spec some_).2,
    fun m less here => Nat.find_min some_ less ⟨less.trans (Nat.find_spec some_).1, here⟩⟩
  rw [missed] at found
  cases found

theorem length_oldbuf (call : ℕ) (short : window.length ≤ defaultBlockLen) :
    window.length ≤ (searchStack.octets call bufLen).length := by
  rw [Stack.octets_length]
  exact short.trans (by decide)

/-- `rs_search_for_block` reports the first candidate with which the buffer looks like the window. -/
theorem rsSearchForBlock_eq_some_iff {weakSum : UInt32} {call matchPos : ℕ} (short : window.length ≤ defaultBlockLen) :
    (rsSearchForBlock (deltaEnv qsort sigStack searchStack old) call weakSum window pos).1 = some matchPos ↔
      ∃ k < (candidates qsort old weakSum).length,
        matchPos = defaultBlockLen * (candidates qsort old weakSum).getD k 0 ∧
        Resembles old (candidates qsort old weakSum) (searchStack.octets call bufLen) pos window k ∧
        ∀ m < k, ¬ Resembles old (candidates qsort old weakSum) (searchStack.octets call bufLen) pos window m := by
  rw [rsSearchForBlock_eq, blockLoop_eq_some_iff]
  refine exists_congr fun k => and_congr_right fun bound => and_congr_right fun _ => ?_
  rw [comparesEqual_iff bound (length_oldbuf call short)]
  refine and_congr_right fun _ => forall₂_congr fun m less => ?_
  rw [comparesEqual_iff (less.trans bound) (length_oldbuf call short)]

theorem rsSearchForBlock_none {weakSum : UInt32} {call k : ℕ} (short : window.length ≤ defaultBlockLen)
    (missed : (rsSearchForBlock (deltaEnv qsort sigStack searchStack old) call weakSum window pos).1 = none)
    (bound : k < (candidates qsort old weakSum).length) :
    ¬ Resembles old (candidates qsort old weakSum) (searchStack.octets call bufLen) pos window k := by
  rw [rsSearchForBlock_eq] at missed
  exact (comparesEqual_iff bound (length_oldbuf call short)).not.mp (blockLoop_eq_none missed bound)

/-- The candidates of the window as a call meets them make no false hit. -/
def Confirmed (qsort : Qsort) (searchStack : Stack) (old window : Bytes) (call pos : ℕ) : Prop :=
  ¬ FalseHit old (candidates qsort old (rsCalcWeakSum window)) (searchStack.octets call bufLen) pos window

/-- Without a false hit every match is the window, and a false hit is a match that is not. -/
theorem confirmed_iff {call pos : ℕ} (short : window.length ≤ defaultBlockLen) :
    Confirmed qsort searchStack old window call pos ↔ ∀ matchPos,
      (rsSearchForBlock (deltaEnv qsort sigStack searchStack old) call (rsCalcWeakSum window) window pos).1 =
          some matchPos →
        matchPos + window.length ≤ old.length ∧ pread old matchPos window.length = window := by
  constructor
  · intro confirmed matchPos found
    obtain ⟨k, bound, rfl, resembles, first⟩ := (rsSearchForBlock_eq_some_iff short).mp found
    have read : ¬ Misread old (candidates qsort old (rsCalcWeakSum window)) (searchStack.octets call bufLen) pos
        window.length k := fun misread => confirmed ⟨k, bound, misread, resembles, fun m less read there =>
      first m less ((resembles_iff_of_read short read).mpr there)⟩
    exact ⟨Nat.not_lt.mp (not_or.mp read).1, (resembles_iff_of_read short read).mp resembles⟩
  · rintro sound ⟨k, bound, misread, resembles, before⟩
    classical
    have some_ : ∃ m, Resembles old (candidates qsort old (rsCalcWeakSum window)) (searchStack.octets call bufLen) pos
      window m := ⟨k, resembles⟩
    have least : Nat.find some_ ≤ k := Nat.find_min' some_ resembles
    have found := (@rsSearchForBlock_eq_some_iff qsort sigStack _ _ _ _ _ _ _ short).mpr
      ⟨Nat.find some_, least.trans_lt bound, rfl, Nat.find_spec some_, fun m less => Nat.find_min some_ less⟩
    have there := sound _ found
    rcases least.lt_or_eq with less | same
    · refine before _ less (fun wrong => ?_) there.2
      exact not_there_of_misread wrong (Nat.find_spec some_) there
    · rw [same] at there
      exact not_there_of_misread misread resembles there

/-- A match is in the old file where it is reported, exactly if no block that is too short or out of the reach
of an `int` looks like the window before a block that is the window. -/
theorem search_sound_iff (qsort : Qsort) (sigStack searchStack : Stack) (old window : Bytes)
    (short : window.length ≤ defaultBlockLen) (call pos : ℕ) :
    (∀ matchPos pos', rsSearchForBlock (deltaEnv qsort sigStack searchStack old) call (rsCalcWeakSum window) window pos =
        (some matchPos, pos') →
      matchPos + window.length ≤ old.length ∧ pread old matchPos window.length = window) ↔
      Confirmed qsort searchStack old window call pos := by
  refine .trans ?_ (@confirmed_iff qsort sigStack searchStack old window call pos short).symm
  exact ⟨fun sound matchPos found => sound matchPos _ (Prod.ext found rfl),
    fun sound matchPos pos' found => sound matchPos (congrArg Prod.fst found)⟩

/-- With a single block there is one order. -/
theorem deltaEnv_single (single : blockCount old = 1) (qsort' : Qsort) :
    deltaEnv qsort sigStack searchStack old = deltaEnv qsort' sigStack searchStack old := by
  obtain ⟨block, only⟩ : ∃ block, (loadedSignature sigStack old).blockSigs = [block] :=
    List.length_eq_one_iff.mp (by simp [loadedSignature, loadedSigs, single])
  have alone (qsort : Qsort) : qsort.run [⟨gettag block.weakSum, 0⟩] = [⟨gettag block.weakSum, 0⟩] :=
    List.perm_singleton.mp (qsort.perm _)
  simp only [deltaEnv, rsBuildHashTable, only, List.mapIdx_cons, List.mapIdx_nil, alone]

/-- Octets that add nothing to either sum of a window of 2048 octets that they end. -/
def neutralTail : Bytes := List.replicate 1620 1 ++ (2 :: List.replicate 60 1) ++ (96 :: List.replicate 363 1)

/-- A window with the weak sum of its first three octets. -/
def collidingNew : Bytes := [0, 2, 0] ++ neutralTail

/-- Memory in which a window like that has been left. -/
def collidingStack : Stack := fun _ place => if place = 1623 then 2 else if place = 1684 then 96 else 1

/-- The search finds a short block that has the sum and the first octets of its window. -/
theorem colliding_found : rsSearchForBlock (deltaEnv .stable (fun _ _ => 0) collidingStack [0, 2, 0]) 0
    (rsCalcWeakSum collidingNew) collidingNew 3 = (some 0, 3) := by
  decide +kernel

/-- The only block, which is short, is compared with the octets behind it in the buffer. -/
theorem short_block_hit :
    ¬ ∃ qsort : Qsort, ∀ matchPos pos',
      rsSearchForBlock (deltaEnv qsort (fun _ _ => 0) collidingStack [0, 2, 0]) 0 (rsCalcWeakSum collidingNew)
          collidingNew 3 = (some matchPos, pos') →
        matchPos + collidingNew.length ≤ ([0, 2, 0] : Bytes).length ∧
          pread [0, 2, 0] matchPos collidingNew.length = collidingNew := by
  rintro ⟨qsort, sound⟩
  obtain ⟨inside, -⟩ := sound 0 3 ((congrArg (rsSearchForBlock · 0 _ _ 3) (deltaEnv_single rfl _)).trans colliding_found)
  exact absurd inside (by decide +kernel)

/-- The block that is the window is confirmed, the short block is not. -/
theorem search_sound_single :
    (∀ matchPos pos', rsSearchForBlock (deltaEnv .stable (fun _ _ => 0) (fun _ _ => 0) [1, 2, 3]) 0
        (rsCalcWeakSum [1, 2, 3]) [1, 2, 3] 3 = (some matchPos, pos') →
      matchPos + 3 ≤ 3 ∧ pread [1, 2, 3] matchPos 3 = [1, 2, 3]) ∧
      ¬ Confirmed .stable collidingStack [0, 2, 0] collidingNew 0 3 := by
  constructor
  · refine (search_sound_iff .stable (fun _ _ => 0) (fun _ _ => 0) [1, 2, 3] [1, 2, 3] (by decide) 0 3).mpr ?_
    have only : candidates .stable [1, 2, 3] (rsCalcWeakSum [1, 2, 3]) = [0] := by decide
    rintro ⟨k, bound, misread, -⟩
    rw [only] at bound misread
    obtain rfl : k = 0 := Nat.lt_one_iff.mp bound
    rcases misread with short | ⟨far, -⟩
    · exact absurd short (by decide)
    · exact absurd far (by decide)
  · intro confirmed
    have inside := ((search_sound_iff .stable (fun _ _ => 0) collidingStack [0, 2, 0] collidingNew (by decide +kernel) 0
      3).mpr confirmed _ _ colliding_found).1
    exact absurd inside (by decide +kernel)

/-! ## Files whose offsets fit an `int` -/

theorem offset_lt {i : ℕ} (small : old.length < 2 ^ 31) (bound : i < blockCount old) : defaultBlockLen * i < 2 ^ 31 := by
  simp only [blockCount, defaultBlockLen] at bound ⊢
  omega

theorem getD_mem {k : ℕ} (bound : k < blocks.length) : blocks.getD k 0 ∈ blocks :=
  List.getD_eq_getElem _ _ bound ▸ List.getElem_mem bound

/-- Only a block that is too short is misread. -/
theorem misread_iff_short {len k : ℕ} (small : old.length < 2 ^ 31) (known : ∀ i ∈ blocks, i < blockCount old)
    (bound : k < blocks.length) :
    Misread old blocks oldbuf pos len k ↔ old.length < defaultBlockLen * blocks.getD k 0 + len := by
  refine or_iff_left fun far => ?_
  exact absurd (offset_lt small (known _ (getD_mem bound))) (Nat.not_lt.mpr far.1)

/-- The place of the first block that has the weak sum of the window, and where the old file holds the
window. -/
def firstMatch (qsort : Qsort) (old window : Bytes) : Option ℕ :=
  ((candidates qsort old (rsCalcWeakSum window)).find? fun i =>
    pread old (defaultBlockLen * i) window.length = window).map (defaultBlockLen * ·)

theorem read_of_there {k : ℕ} (small : old.length < 2 ^ 31) (known : ∀ i ∈ blocks, i < blockCount old)
    (bound : k < blocks.length) (there : pread old (defaultBlockLen * blocks.getD k 0) window.length = window)
    (nonempty : window ≠ []) : ¬ Misread old blocks oldbuf pos window.length k := by
  rw [misread_iff_short small known bound, Nat.not_lt]
  have size := congrArg List.length there
  have some_ := List.length_pos_of_ne_nil nonempty
  rw [pread_length] at size
  omega

/-- Without a false hit `rs_search_for_block` finds the first match, whatever its buffer held. -/
theorem rsSearchForBlock_first {call : ℕ} (small : old.length < 2 ^ 31) (short : window.length ≤ defaultBlockLen)
    (nonempty : window ≠ []) (confirmed : Confirmed qsort searchStack old window call pos) :
    (rsSearchForBlock (deltaEnv qsort sigStack searchStack old) call (rsCalcWeakSum window) window pos).1 =
      firstMatch qsort old window := by
  have known : ∀ i ∈ candidates qsort old (rsCalcWeakSum window), i < blockCount old := fun i member =>
    (mem_candidates.mp member).1
  have resembles {k : ℕ} (bound : k < (candidates qsort old (rsCalcWeakSum window)).length)
      (there : pread old (defaultBlockLen * (candidates qsort old (rsCalcWeakSum window)).getD k 0) window.length = window) :
      Resembles old (candidates qsort old (rsCalcWeakSum window)) (searchStack.octets call bufLen) pos window k :=
    (resembles_iff_of_read short (read_of_there small known bound there nonempty)).mpr there
  cases found : (rsSearchForBlock (deltaEnv qsort sigStack searchStack old) call (rsCalcWeakSum window) window pos).1 with
  | none =>
    refine (Option.map_eq_none_iff.mpr (List.find?_eq_none.mpr fun i member => ?_)).symm
    obtain ⟨k, bound, rfl⟩ := List.getElem_of_mem member
    rw [← List.getD_eq_getElem _ 0 bound, decide_eq_true_iff]
    exact fun there => rsSearchForBlock_none short found bound (resembles bound there)
  | some matchPos =>
    obtain ⟨k, bound, rfl, looks, first⟩ := (rsSearchForBlock_eq_some_iff short).mp found
    have read : ¬ Misread old (candidates qsort old (rsCalcWeakSum window)) (searchStack.octets call bufLen) pos
        window.length k := fun misread => confirmed ⟨k, bound, misread, looks, fun m less _ there =>
      first m less (resembles (less.trans bound) there)⟩
    have there := (resembles_iff_of_read short read).mp looks
    refine (Option.map_eq_some_iff.mpr ⟨_, List.find?_eq_some_iff_getElem.mpr ⟨by simpa using there, k, bound,
      (List.getD_eq_getElem _ 0 bound).symm, fun m less => ?_⟩, rfl⟩).symm
    have different := fun there => first m less (resembles (less.trans bound) there)
    rw [List.getD_eq_getElem _ 0 (less.trans bound)] at different
    simpa using different

theorem pread_blockAt (old : Bytes) (i : ℕ) :
    pread old (defaultBlockLen * i) (blockAt old i).length = blockAt old i := by
  rw [blockAt, pread, List.length_take, ← List.take_eq_take_min]

theorem blockAt_ne_nil {i : ℕ} (bound : i < blockCount old) : blockAt old i ≠ [] := by
  rw [blockAt, ne_eq, List.take_eq_nil_iff, List.drop_eq_nil_iff]
  simp only [blockCount, defaultBlockLen] at bound ⊢
  omega

/-- No block of the old file is the window. -/
def Unmatched (old window : Bytes) : Prop := ∀ i < blockCount old, blockAt old i ≠ window

/-- No equal block is missed. -/
theorem unmatched_of_none {call : ℕ} (small : old.length < 2 ^ 31)
    (missed : (rsSearchForBlock (deltaEnv qsort sigStack searchStack old) call (rsCalcWeakSum window) window pos).1 = none) :
    Unmatched old window := by
  rintro i bound rfl
  have short : (blockAt old i).length ≤ defaultBlockLen := List.length_take_le ..
  obtain ⟨k, inside, here⟩ := List.getElem_of_mem (mem_candidates.mpr ⟨bound, rfl⟩ :
    i ∈ candidates qsort old (rsCalcWeakSum (blockAt old i)))
  have there : pread old (defaultBlockLen * (candidates qsort old (rsCalcWeakSum (blockAt old i))).getD k 0)
      (blockAt old i).length = blockAt old i := by
    rw [List.getD_eq_getElem _ 0 inside, here]
    exact pread_blockAt old i
  have read := @read_of_there old (blockAt old i) (candidates qsort old (rsCalcWeakSum (blockAt old i)))
    (searchStack.octets call bufLen) pos k small (fun j member => (mem_candidates.mp member).1) inside there
    (blockAt_ne_nil bound)
  exact rsSearchForBlock_none short missed inside ((resembles_iff_of_read short read).mpr there)

end DeltaCFS
