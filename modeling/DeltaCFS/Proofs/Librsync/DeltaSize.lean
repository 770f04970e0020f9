import DeltaCFS.Proofs.Librsync.Pipeline

/-! # How long a delta is

A literal costs its octets and a header, once for a full buffer of them, and a copy its parameters. So a delta is
hardly longer than the new file, and blocks of the old file cost next to nothing, wherever they have moved.
-/

namespace DeltaCFS

open Bytes Command

variable {σ : Type} {old new rest : Bytes} {search : σ → Bytes → Option ℕ × σ} {state : σ} {held : Held}

/-- How many literals it takes for so many octets. -/
def literals (octets : ℕ) : ℕ := (octets + (bufLen - 1)) / bufLen

namespace Held

/-- What there is still to emit with so many octets left: at most one window is shorter than a block, the
last one, so that every other copy saves more than the literals around it cost. -/
def bound (left : ℕ) : Held → ℕ
  | missed data => data.length + left + 3 * literals (data.length + left) + 17
  | matched _ _ => if left = 0 then 17 else 17 + left + 3 * literals left + 17

/-- What flushing costs. -/
def cost : Held → ℕ
  | missed data => if data = [] then 0 else data.length + 3
  | matched _ _ => 17

theorem commands_length (formed : held.Formed) : (encodeAll held.commands).length ≤ held.cost := by
  cases held with
  | missed data =>
    simp only [commands, cost]
    split
    · simp
    · have small : data.length ≤ bufLen := formed
      rw [encodeAll_singleton, encode, List.length_append, literalHeader_length, rsIntLen]
      simp only [bufLen] at small
      split_ifs <;> omega
  | matched position len =>
    simp only [commands, encodeAll_singleton, cost]
    exact copyHeader_le _ _

/-- With nothing left the rest is flushed. -/
theorem bound_done (formed : held.Formed) : held.cost ≤ held.bound 0 := by
  cases held with
  | missed data =>
    have small : data.length ≤ bufLen := formed
    simp only [cost, bound, literals, bufLen] at small ⊢
    split
    · omega
    · next some_ =>
      have positive := List.length_pos_of_ne_nil some_
      omega
  | matched position len => simp [cost, bound]

theorem bound_miss (octet : UInt8) {left : ℕ} (formed : held.Formed) (more : 0 < left) :
    (encodeAll (held.miss octet).1).length + (held.miss octet).2.bound (left - 1) ≤ held.bound left := by
  have paid := commands_length formed
  cases held with
  | missed data =>
    have small : data.length ≤ bufLen := formed
    rw [miss]
    split
    · simp only [bound, encodeAll_nil, List.length_nil, List.length_append, List.length_singleton]
      rw [show data.length + 1 + (left - 1) = data.length + left by omega]
      omega
    · next full =>
      have size : data.length = bufLen := by omega
      have some_ : data ≠ [] := by
        rintro rfl
        simp [bufLen] at size
      simp only [cost, if_neg some_] at paid
      simp only [bound, literals, bufLen, List.length_singleton] at size ⊢
      omega
  | matched position len =>
    simp only [cost] at paid
    simp only [miss, bound, literals, bufLen, List.length_singleton, if_neg (Nat.ne_of_gt more)]
    rw [show 1 + (left - 1) = left by omega]
    omega

theorem bound_match (matchPos : ℕ) {left len : ℕ} (formed : held.Formed) (positive : 0 < len)
    (window : len = min defaultBlockLen left) :
    (encodeAll (held.match_ matchPos len).1).length + (held.match_ matchPos len).2.bound (left - len) ≤
      held.bound left := by
  have paid := commands_length formed
  simp only [defaultBlockLen] at window
  cases held with
  | missed data =>
    simp only [match_, bound, literals, bufLen]
    simp only [cost] at paid
    by_cases none : data = []
    · rw [if_pos none] at paid
      split <;> omega
    · rw [if_neg none] at paid
      have some_ := List.length_pos_of_ne_nil none
      split <;> omega
  | matched position before =>
    have more : left ≠ 0 := by omega
    simp only [cost] at paid
    rw [match_]
    split
    · simp only [bound, literals, bufLen, encodeAll_nil, List.length_nil, if_neg more]
      split <;> omega
    · simp only [bound, literals, bufLen, if_neg more]
      split <;> omega

/-- A search costs no more than it takes off the bound. -/
theorem next_bound (found : Option ℕ) (formed : held.Formed) (more : rest ≠ []) :
    (encodeAll (held.next found rest).1).length + (held.next found rest).2.bound (rest.length - reach found rest) ≤
      held.bound rest.length := by
  cases found with
  | some matchPos => exact bound_match matchPos formed (nextWindow_pos more) (nextWindow_length rest)
  | none => exact bound_miss _ formed (List.length_pos_of_ne_nil more)

/-- A search that finds something costs what was held. -/
theorem next_cost {found : Option ℕ} (formed : held.Formed) (hit : found ≠ none) :
    (encodeAll (held.next found rest).1).length ≤ held.cost ∧ (held.next found rest).2.cost = 17 := by
  have paid := commands_length formed
  obtain ⟨matchPos, rfl⟩ := Option.ne_none_iff_exists'.mp hit
  cases held with
  | missed data => exact ⟨paid, rfl⟩
  | matched position len =>
    rw [next, match_]
    split
    · exact ⟨Nat.zero_le _, rfl⟩
    · exact ⟨paid, rfl⟩

end Held

theorem greedyFrom_length (search : σ → Bytes → Option ℕ × σ) (state : σ) (rest : Bytes) (formed : held.Formed) :
    (encodeAll (greedyFrom search state rest held)).length ≤ held.bound rest.length := by
  induction state, rest, held using greedyFrom.induct search with
  | case1 state held =>
    rw [greedyFrom_nil]
    exact (Held.commands_length formed).trans (Held.bound_done formed)
  | case2 state rest held more found ih =>
    have shrinks := ih (Held.next_formed (search state (nextWindow rest)).1 formed more).2
    have pays := Held.next_bound (search state (nextWindow rest)).1 formed more
    rw [greedyFrom_more more, encodeAll_append, List.length_append]
    rw [List.length_drop] at shrinks
    exact (Nat.add_le_add_left shrinks _).trans pays

/-! ## Blocks of the old file -/

/-- The file is put together from such blocks of the old file; only the last one may be the short one. -/
inductive Blocks (old : Bytes) : ℕ → Bytes → Prop where
  | nil : Blocks old 0 []
  | last (i : ℕ) : i < blockCount old → Blocks old 1 (blockAt old i)
  | cons (i : ℕ) {count : ℕ} {rest : Bytes} : (blockAt old i).length = defaultBlockLen → Blocks old count rest →
    Blocks old (count + 1) (blockAt old i ++ rest)

theorem lt_blockCount_of_full {i : ℕ} (full : (blockAt old i).length = defaultBlockLen) : i < blockCount old := by
  simp only [blockAt, blockCount, defaultBlockLen, List.length_take, List.length_drop] at full ⊢
  omega

/-- If the searches miss no block, each block costs a copy at most. -/
theorem greedyFrom_blocks {count : ℕ} (blocks : Blocks old count rest) (formed : held.Formed)
    (unmatched : ∀ place ∈ scanned search state rest, (search place.1 place.2).1 = none → Unmatched old place.2) :
    (encodeAll (greedyFrom search state rest held)).length ≤ held.cost + 17 * count := by
  induction blocks generalizing held state with
  | nil =>
    rw [greedyFrom_nil]
    exact Held.commands_length formed
  | last i bound =>
    have more := blockAt_ne_nil bound
    have window : nextWindow (blockAt old i) = blockAt old i := List.take_take.trans (by rw [min_self, blockAt])
    have hit : (search state (nextWindow (blockAt old i))).1 ≠ none := fun missed =>
      ((forall_scanned more).mp unmatched).1 missed i bound window.symm
    obtain ⟨written, kept⟩ := @Held.next_cost (blockAt old i) held _ formed hit
    have flushed := Held.commands_length (Held.next_formed (search state (nextWindow (blockAt old i))).1 formed more).2
    have all : reach (search state (nextWindow (blockAt old i))).1 (blockAt old i) = (blockAt old i).length := by
      rw [reach, if_pos (Option.isSome_iff_ne_none.mpr hit), window]
    rw [greedyFrom_more more, all, List.drop_length, greedyFrom_nil, encodeAll_append, List.length_append]
    omega
  | @cons i count rest full _ ih =>
    have bound := lt_blockCount_of_full full
    have more : blockAt old i ++ rest ≠ [] := List.append_ne_nil_of_left_ne_nil (blockAt_ne_nil bound) _
    have window : nextWindow (blockAt old i ++ rest) = blockAt old i := List.take_left' full
    obtain ⟨here, behind⟩ := (forall_scanned more).mp unmatched
    have hit : (search state (nextWindow (blockAt old i ++ rest))).1 ≠ none := fun missed => here missed i bound window.symm
    obtain ⟨written, kept⟩ := @Held.next_cost (blockAt old i ++ rest) held _ formed hit
    have formed' := (Held.next_formed (search state (nextWindow (blockAt old i ++ rest))).1 formed more).2
    have one : reach (search state (nextWindow (blockAt old i ++ rest))).1 (blockAt old i ++ rest) =
        (blockAt old i).length := by
      rw [reach, if_pos (Option.isSome_iff_ne_none.mpr hit), window]
    rw [one, List.drop_left] at behind
    have further := ih formed' behind
    rw [greedyFrom_more more, one, List.drop_left, encodeAll_append, List.length_append]
    omega

/-- A delta is no more than 0.02 % and 22 octets longer than the new file, and if the new file is made of blocks
of the old one, it has at most 17 octets for each of them, even where a hit is false. -/
theorem delta_length (qsort : Qsort) (sigStack searchStack : Stack) (old new : Bytes) (small : old.length < 2 ^ 31)
    (fuel : ℕ) (enough : pipelineFuel old new ≤ fuel) :
    ∃ delta, deltaPipeline qsort sigStack searchStack fuel old new = .ok (some delta) ∧
      delta.length ≤ new.length + 3 * literals new.length + 22 ∧
      ∀ count, Blocks old count new → delta.length ≤ 17 * count + 5 := by
  refine ⟨_, deltaPipeline_done qsort sigStack searchStack new (blockCount_lt small) enough, ?_, fun count blocks => ?_⟩
  · have longest := @greedyFrom_length _ (.missed []) (jobSearch (deltaEnv qsort sigStack searchStack old))
      (0, old.length) new (Nat.zero_le _)
    simp only [Held.bound, List.length_nil, Nat.zero_add] at longest
    simp only [deltaOctets, deltaCommands, List.length_append, netint_length, List.length_singleton]
    exact (Nat.add_le_add_left (Nat.add_le_add_right longest 1) 4).trans (by omega)
  · have longest := @greedyFrom_blocks _ old new (jobSearch (deltaEnv qsort sigStack searchStack old)) (0, old.length)
      (.missed []) count blocks (Nat.zero_le _) fun place _ missed => unmatched_of_none small missed
    simp only [Held.cost, ↓reduceIte, Nat.zero_add] at longest
    simp only [deltaOctets, deltaCommands, List.length_append, netint_length, List.length_singleton]
    exact (Nat.add_le_add_left (Nat.add_le_add_right longest 1) 4).trans (by omega)

/-- An unchanged file. -/
theorem delta_length_unchanged :
    ∃ delta, deltaPipeline .stable (fun _ _ => 0) (fun _ _ => 0) (pipelineFuel [1, 2, 3] [1, 2, 3]) [1, 2, 3] [1, 2, 3] =
      .ok (some delta) ∧ delta.length ≤ 22 := by
  obtain ⟨delta, computed, -, blocks⟩ := delta_length .stable (fun _ _ => 0) (fun _ _ => 0) [1, 2, 3] [1, 2, 3]
    (by decide) _ le_rfl
  exact ⟨delta, computed, blocks 1 (.last 0 (by decide))⟩

end DeltaCFS
