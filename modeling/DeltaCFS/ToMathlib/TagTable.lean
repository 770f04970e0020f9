import Mathlib.Data.List.Sort

/-! # Runs of equal keys in a sorted list

A list that is sorted by a key holds the items of one key in a row, and a table from keys to
positions that is filled from the back leads to the first of them.
-/

namespace TagTable

variable {α κ : Type*} [LinearOrder κ] (key : α → κ) (k : κ)

/-- A table that is filled from the back holds first positions. -/
theorem foldr_update_eq_findIdx (items : List α) (start : ℕ) :
    (items.zipIdx start).foldr (fun entry table => Function.update table (key entry.1) (some entry.2))
        (fun _ => none) k =
      (items.findIdx? fun a => key a = k).map (· + start) := by
  induction items generalizing start with
  | nil => rfl
  | cons first rest ih =>
    rw [List.zipIdx_cons, List.foldr_cons, List.findIdx?_cons]
    by_cases same : key first = k
    · simp [same]
    · rw [Function.update_of_ne (Ne.symm same), ih]
      simp only [same, decide_false, Bool.false_eq_true, ↓reduceIte, Option.map_map]
      congr 1
      funext i
      simp only [Function.comp_apply]
      omega

variable {key k}

/-- From a position on where no key is smaller, the items of the key come first. -/
theorem takeWhile_eq_filter {items : List α} (sorted : items.Pairwise fun a b => key a ≤ key b)
    (least : ∀ a ∈ items, k ≤ key a) :
    items.takeWhile (fun a => key a = k) = items.filter fun a => key a = k := by
  induction items with
  | nil => rfl
  | cons first rest ih =>
    obtain ⟨above, sorted⟩ := List.pairwise_cons.mp sorted
    by_cases same : key first = k
    · rw [List.takeWhile_cons_of_pos (by simpa using same), List.filter_cons_of_pos (by simpa using same),
        ih sorted fun a member => least a (List.mem_cons_of_mem _ member)]
    · rw [List.takeWhile_cons_of_neg (by simpa using same), List.filter_cons_of_neg (by simpa using same)]
      refine (List.filter_eq_nil_iff.mpr fun a member => ?_).symm
      have larger : k < key first := lt_of_le_of_ne (least first (List.mem_cons_self ..)) (Ne.symm same)
      simpa using (larger.trans_le (above a member)).ne'

/-- The row of a key begins at the first item with it. -/
theorem takeWhile_drop_findIdx {items : List α} (sorted : items.Pairwise fun a b => key a ≤ key b) {j : ℕ}
    (found : items.findIdx? (fun a => key a = k) = some j) :
    (items.drop j).takeWhile (fun a => key a = k) = items.filter fun a => key a = k := by
  induction items generalizing j with
  | nil => simp at found
  | cons first rest ih =>
    obtain ⟨above, sorted'⟩ := List.pairwise_cons.mp sorted
    rw [List.findIdx?_cons] at found
    by_cases same : key first = k
    · obtain rfl : 0 = j := by simpa [same] using found
      refine takeWhile_eq_filter sorted fun a member => ?_
      rcases List.mem_cons.mp member with rfl | later
      · exact same.ge
      · exact same ▸ above a later
    · simp only [same, decide_false, Bool.false_eq_true, ↓reduceIte, Option.map_eq_some_iff] at found
      obtain ⟨i, found, rfl⟩ := found
      rw [List.drop_succ_cons, ih sorted' found, List.filter_cons_of_neg (by simpa using same)]

end TagTable
