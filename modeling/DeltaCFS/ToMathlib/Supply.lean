import Mathlib.Data.Set.Card
import Mathlib.Order.BooleanAlgebra.Set

/-! # Sequences of consumers and producers

Every item of a list needs some values, takes some away and gives others. A list is supplied from a
set of values if every item finds what it needs when its turn comes. The rules say what happens to a
supplied list when an item is added at its end, replaced by one that takes less and gives more, or
dropped together with a value that nobody needs.
-/

universe u v

/-- What an item needs, takes away and gives. -/
structure Supply (ι : Type u) (ν : Type v) where
  needs : ι → Set ν
  takes : ι → Set ν
  gives : ι → Set ν

namespace Supply

variable {ι : Type u} {ν : Type v} (supply : Supply ι ν) {held held' : Set ν} {first second before rest items : List ι}
  {item item' : ι} {value gone : ν}

/-- What is held after an item. -/
def after (held : Set ν) (item : ι) : Set ν := held \ supply.takes item ∪ supply.gives item

/-- What is held after a list of items. -/
def stock (held : Set ν) (items : List ι) : Set ν := items.foldl supply.after held

/-- Every item finds what it needs when its turn comes. -/
def Supplied : Set ν → List ι → Prop
  | _, [] => True
  | held, item :: rest => supply.needs item ⊆ held ∧ Supplied (supply.after held item) rest

variable {supply}

@[simp] theorem stock_nil : supply.stock held [] = held := rfl

@[simp] theorem stock_cons : supply.stock held (item :: rest) = supply.stock (supply.after held item) rest := rfl

theorem stock_append : supply.stock held (first ++ second) = supply.stock (supply.stock held first) second :=
  List.foldl_append

theorem stock_concat : supply.stock held (items ++ [item]) = supply.after (supply.stock held items) item :=
  stock_append

theorem after_mono (more : held ⊆ held') : supply.after held item ⊆ supply.after held' item :=
  Set.union_subset_union_left _ (Set.sdiff_subset_sdiff_left more)

theorem stock_mono (more : held ⊆ held') : supply.stock held items ⊆ supply.stock held' items := by
  induction items generalizing held held' with
  | nil => exact more
  | cons item rest ih => exact ih (after_mono more)

/-- A value that the later items do not give was there before them. -/
theorem mem_stock_of_not_given (here : value ∈ supply.stock held (first ++ second))
    (notGiven : ∀ item ∈ second, value ∉ supply.gives item) : value ∈ supply.stock held first := by
  rw [stock_append] at here
  generalize supply.stock held first = reached at here ⊢
  induction second generalizing reached with
  | nil => exact here
  | cons item rest ih =>
    rcases ih (fun other member => notGiven other (List.mem_cons_of_mem item member)) _ here with kept | given
    · exact kept.1
    · exact absurd given (notGiven item List.mem_cons_self)

/-- What holds of the values at the start and of those that are given holds of the stock. -/
theorem stock_subset {known : Set ν} (start : held ⊆ known) (given : ∀ item ∈ items, supply.gives item ⊆ known) :
    supply.stock held items ⊆ known := by
  induction items generalizing held with
  | nil => exact start
  | cons item rest ih =>
    refine ih (Set.union_subset (Set.sdiff_subset.trans start) (given item List.mem_cons_self)) fun other member => ?_
    exact given other (List.mem_cons_of_mem item member)

/-- An item that takes less and gives more leaves more. -/
theorem after_subset_after (takes : supply.takes item' ⊆ supply.takes item)
    (gives : supply.gives item ⊆ supply.gives item') : supply.after held item ⊆ supply.after held item' :=
  Set.union_subset_union (Set.sdiff_subset_sdiff_right takes) gives

theorem stock_replace (takes : supply.takes item' ⊆ supply.takes item)
    (gives : supply.gives item ⊆ supply.gives item') :
    supply.stock held (before ++ item :: rest) ⊆ supply.stock held (before ++ item' :: rest) := by
  simp only [stock_append, stock_cons]
  exact stock_mono (after_subset_after takes gives)

theorem after_without : supply.after held item \ {gone} ⊆ supply.after (held \ {gone}) item := by
  rintro value ⟨kept | given, different⟩
  · exact .inl ⟨⟨kept.1, different⟩, kept.2⟩
  · exact .inr given

theorem stock_without : supply.stock held items \ {gone} ⊆ supply.stock (held \ {gone}) items := by
  induction items generalizing held with
  | nil => exact subset_rfl
  | cons item rest ih => exact ih.trans (stock_mono after_without)

/-- An item that gives at most one value is dropped. -/
theorem after_drop (takes : supply.takes item' = ∅) (gives : supply.gives item ⊆ {gone}) :
    supply.after held item \ {gone} ⊆ supply.after held item' := by
  rintro value ⟨kept | given, different⟩
  · exact .inl ⟨kept.1, by simp [takes]⟩
  · exact absurd (gives given) different

theorem mem_stock_drop (takes : supply.takes item' = ∅) (gives : supply.gives item ⊆ {gone})
    (here : value ∈ supply.stock held (before ++ item :: rest)) (different : value ≠ gone) :
    value ∈ supply.stock held (before ++ item' :: rest) := by
  simp only [stock_append, stock_cons] at here ⊢
  exact stock_mono (after_drop takes gives) (stock_without ⟨here, different⟩)

/-- An item that takes what is there and gives what is new. -/
theorem ncard_after [Finite ν] (takes : supply.takes item ⊆ held) (gives : ∀ value ∈ held, value ∉ supply.gives item) :
    (supply.after held item).ncard + (supply.takes item).ncard = held.ncard + (supply.gives item).ncard := by
  have apart (value : ν) (kept : value ∈ held \ supply.takes item) : value ∉ supply.gives item := gives value kept.1
  have finite (values : Set ν) : values.Finite := Set.finite_univ.subset (Set.subset_univ values)
  rw [after, Set.ncard_union_eq (Set.disjoint_left.mpr apart) (finite _) (finite _), add_right_comm,
    Set.ncard_sdiff_add_ncard_of_subset takes (finite _)]

namespace Supplied

theorem append_iff : supply.Supplied held (first ++ second) ↔
    supply.Supplied held first ∧ supply.Supplied (supply.stock held first) second := by
  induction first generalizing held with
  | nil => simp [Supplied]
  | cons item rest ih => simp [Supplied, ih, and_assoc]

theorem mono (supplied : supply.Supplied held items) (more : held ⊆ held') : supply.Supplied held' items := by
  induction items generalizing held held' with
  | nil => trivial
  | cons item rest ih => exact ⟨supplied.1.trans more, ih supplied.2 (after_mono more)⟩

theorem concat (supplied : supply.Supplied held items) (needs : supply.needs item ⊆ supply.stock held items) :
    supply.Supplied held (items ++ [item]) :=
  append_iff.mpr ⟨supplied, needs, trivial⟩

theorem replace (supplied : supply.Supplied held (before ++ item :: rest))
    (needs : supply.needs item' ⊆ supply.stock held before) (takes : supply.takes item' ⊆ supply.takes item)
    (gives : supply.gives item ⊆ supply.gives item') : supply.Supplied held (before ++ item' :: rest) := by
  obtain ⟨first, -, second⟩ := append_iff.mp supplied
  exact append_iff.mpr ⟨first, needs, second.mono (after_subset_after takes gives)⟩

/-- Nobody misses a value that nobody needs. -/
theorem without (supplied : supply.Supplied held items) (unused : ∀ item ∈ items, gone ∉ supply.needs item) :
    supply.Supplied (held \ {gone}) items := by
  induction items generalizing held with
  | nil => trivial
  | cons item rest ih =>
    refine ⟨fun value needed => ⟨supplied.1 needed, ?_⟩, ?_⟩
    · rintro rfl
      exact unused item List.mem_cons_self needed
    · have later := ih supplied.2 fun other member => unused other (List.mem_cons_of_mem item member)
      exact later.mono after_without

theorem drop (supplied : supply.Supplied held (before ++ item :: rest)) (needs : supply.needs item' = ∅)
    (takes : supply.takes item' = ∅) (gives : supply.gives item ⊆ {gone})
    (unused : ∀ other ∈ rest, gone ∉ supply.needs other) : supply.Supplied held (before ++ item' :: rest) := by
  obtain ⟨first, -, second⟩ := append_iff.mp supplied
  refine append_iff.mpr ⟨first, by simp [needs], ?_⟩
  exact (second.without unused).mono (after_drop takes gives)

/-- What holds of the values at the start and of those that are given holds of those that are
needed. -/
theorem needs_subset {known : Set ν} (supplied : supply.Supplied held items) (start : held ⊆ known)
    (given : ∀ item ∈ items, supply.gives item ⊆ known) (member : item ∈ items) : supply.needs item ⊆ known := by
  obtain ⟨before, rest, rfl⟩ := List.append_of_mem member
  obtain ⟨-, needs, -⟩ := append_iff.mp supplied
  exact needs.trans (stock_subset start fun other inside => given other (List.mem_append_left _ inside))

end Supplied

end Supply
