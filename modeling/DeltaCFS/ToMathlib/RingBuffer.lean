import Mathlib.Data.List.Basic
import Mathlib.Data.List.Range
import Mathlib.Data.List.Nodup
import Mathlib.Data.Nat.ModEq
import Mathlib.Logic.Function.Basic

/-! # Circular queues with an occupancy flag in every slot

A ring of `N` slots is a head, a tail and the slot contents; a slot is free when its own flag says
so. Head and tail alone cannot tell an empty ring from a full one, so the relation between a ring
and the queue it stands for lists the occupied slots in queue order. Producers write at the tail,
one consumer clears the head, and everybody may rewrite occupied slots in place.
-/

structure RingBuffer (α : Type*) where
  head : ℕ
  tail : ℕ
  node : ℕ → α

namespace RingBuffer

variable {α : Type*} (N : ℕ) (isEmpty : α → Bool)

/-- Write the slot at the tail and advance the tail. -/
def push (ring : RingBuffer α) (value : α) : RingBuffer α :=
  { ring with tail := (ring.tail + 1) % N, node := Function.update ring.node ring.tail value }

/-- Overwrite the slot at the head and advance the head. -/
def pop (ring : RingBuffer α) (value : α) : RingBuffer α :=
  { ring with head := (ring.head + 1) % N, node := Function.update ring.node ring.head value }

/-- Rewrite one slot in place. -/
def modify (ring : RingBuffer α) (slot : ℕ) (change : α → α) : RingBuffer α :=
  { ring with node := Function.update ring.node slot (change (ring.node slot)) }

/-- The first `count` slots from the head on. -/
def slots (ring : RingBuffer α) (count : ℕ) : List ℕ :=
  (List.range count).map fun i => (ring.head + i) % N

/-- The ring stands for the queue `fifo` of occupied slots. -/
structure Queued (ring : RingBuffer α) (fifo : List ℕ) : Prop where
  bound : fifo.length ≤ N
  head_lt : ring.head < N
  tail_eq : ring.tail = (ring.head + fifo.length) % N
  order : fifo = ring.slots N fifo.length
  flags : ∀ slot < N, isEmpty (ring.node slot) = false ↔ slot ∈ fifo

@[simp] theorem modify_head (ring : RingBuffer α) (slot : ℕ) (change : α → α) :
    (ring.modify slot change).head = ring.head := rfl

@[simp] theorem modify_tail (ring : RingBuffer α) (slot : ℕ) (change : α → α) :
    (ring.modify slot change).tail = ring.tail := rfl

theorem modify_node (ring : RingBuffer α) (slot other : ℕ) (change : α → α) :
    (ring.modify slot change).node other =
      if other = slot then change (ring.node slot) else ring.node other := by
  simp [modify, Function.update_apply]

/-- Two offsets below the capacity that meet in a slot are equal. -/
theorem offset_inj {N head i j : ℕ} (first : i < N) (second : j < N)
    (same : (head + i) % N = (head + j) % N) : i = j := by
  have congruent : Nat.ModEq N i j := Nat.ModEq.add_left_cancel' head same
  rwa [Nat.ModEq, Nat.mod_eq_of_lt first, Nat.mod_eq_of_lt second] at congruent

variable {N isEmpty} {ring : RingBuffer α} {fifo : List ℕ}

namespace Queued

theorem capacity_pos (queued : ring.Queued N isEmpty fifo) : 0 < N :=
  Nat.zero_lt_of_lt queued.head_lt

theorem slot_lt (queued : ring.Queued N isEmpty fifo) {slot : ℕ} (member : slot ∈ fifo) : slot < N := by
  rw [queued.order] at member
  obtain ⟨i, -, rfl⟩ := List.mem_map.mp member
  exact Nat.mod_lt _ queued.capacity_pos

theorem tail_lt (queued : ring.Queued N isEmpty fifo) : ring.tail < N := by
  rw [queued.tail_eq]
  exact Nat.mod_lt _ queued.capacity_pos

theorem nodup (queued : ring.Queued N isEmpty fifo) : fifo.Nodup := by
  rw [queued.order]
  refine (List.nodup_map_iff_inj_on List.nodup_range).mpr fun i first j second same => ?_
  rw [List.mem_range] at first second
  have bound := queued.bound
  exact offset_inj (by omega) (by omega) same

/-- The flags determine the queue. -/
theorem unique {other : List ℕ} (queued : ring.Queued N isEmpty fifo) (queued' : ring.Queued N isEmpty other) :
    fifo = other := by
  have same : fifo.Perm other := (List.perm_ext_iff_of_nodup queued.nodup queued'.nodup).mpr fun slot =>
    ⟨fun member => (queued'.flags slot (queued.slot_lt member)).mp
        ((queued.flags slot (queued.slot_lt member)).mpr member),
      fun member => (queued.flags slot (queued'.slot_lt member)).mp
        ((queued'.flags slot (queued'.slot_lt member)).mpr member)⟩
  rw [queued.order, queued'.order, same.length_eq]

/-- The tail is occupied exactly when the ring is full. -/
theorem tail_mem_iff (queued : ring.Queued N isEmpty fifo) : ring.tail ∈ fifo ↔ fifo.length = N := by
  have bound := queued.bound
  constructor
  · intro member
    by_contra notFull
    rw [queued.order, queued.tail_eq] at member
    obtain ⟨i, inRange, same⟩ := List.mem_map.mp member
    rw [List.mem_range] at inRange
    have := offset_inj (by omega) (by omega) same
    omega
  · intro full
    rw [queued.order, queued.tail_eq, full]
    exact List.mem_map.mpr ⟨0, List.mem_range.mpr queued.capacity_pos, by simp⟩

theorem isEmpty_tail (queued : ring.Queued N isEmpty fifo) :
    isEmpty (ring.node ring.tail) = true ↔ fifo.length < N := by
  have bound := queued.bound
  have flag := (queued.flags ring.tail queued.tail_lt).trans queued.tail_mem_iff
  rw [← not_iff_not, Bool.not_eq_true, flag]
  omega

theorem head_eq {slot : ℕ} (queued : ring.Queued N isEmpty (slot :: fifo)) : ring.head = slot := by
  have order := queued.order
  simp only [slots, List.length_cons, List.range_succ_eq_map, List.map_cons, Nat.add_zero,
    Nat.mod_eq_of_lt queued.head_lt, List.cons.injEq] at order
  exact order.1.symm

theorem isEmpty_head (queued : ring.Queued N isEmpty fifo) :
    isEmpty (ring.node ring.head) = true ↔ fifo = [] := by
  rw [← not_iff_not, Bool.not_eq_true, queued.flags ring.head queued.head_lt]
  constructor
  · exact List.ne_nil_of_mem
  · intro nonempty
    obtain ⟨slot, rest, rfl⟩ := List.exists_cons_of_ne_nil nonempty
    rw [queued.head_eq]
    exact List.mem_cons_self

/-- A change that leaves head, tail and flags alone leaves the queue alone. -/
theorem of_same_flags {ring' : RingBuffer α} (queued : ring.Queued N isEmpty fifo)
    (head : ring'.head = ring.head) (tail : ring'.tail = ring.tail)
    (flags : ∀ slot < N, isEmpty (ring'.node slot) = isEmpty (ring.node slot)) :
    ring'.Queued N isEmpty fifo where
  bound := queued.bound
  head_lt := head ▸ queued.head_lt
  tail_eq := by rw [tail, head, queued.tail_eq]
  order := by simpa only [slots, head] using queued.order
  flags := fun slot bound => by rw [flags slot bound, queued.flags slot bound]

theorem modify (queued : ring.Queued N isEmpty fifo) (slot : ℕ) (change : α → α)
    (flag : isEmpty (change (ring.node slot)) = isEmpty (ring.node slot)) :
    (ring.modify slot change).Queued N isEmpty fifo := by
  refine queued.of_same_flags rfl rfl fun other _ => ?_
  rw [modify_node]
  split
  · next same => rw [flag, same]
  · rfl

/-- Pushing an occupied value appends the old tail. -/
theorem push (queued : ring.Queued N isEmpty fifo) (room : fifo.length < N) {value : α}
    (occupied : isEmpty value = false) :
    (ring.push N value).Queued N isEmpty (fifo ++ [ring.tail]) where
  bound := by simpa using Nat.succ_le_of_lt room
  head_lt := queued.head_lt
  tail_eq := by simp only [RingBuffer.push, queued.tail_eq, Nat.mod_add_mod, List.length_append,
    List.length_singleton, Nat.add_assoc]
  order := by
    have order := queued.order
    simp only [slots] at order
    simp only [slots, RingBuffer.push, List.length_append, List.length_singleton, List.range_succ,
      List.map_append, List.map_singleton, ← order, ← queued.tail_eq]
  flags := by
    intro slot bound
    simp only [RingBuffer.push, Function.update_apply, List.mem_append, List.mem_singleton]
    split
    · next same => simp [same, occupied]
    · next other => simp [other, queued.flags slot bound]

/-- Popping with a free value removes the oldest slot. -/
theorem pop {slot : ℕ} (queued : ring.Queued N isEmpty (slot :: fifo)) {value : α}
    (free : isEmpty value = true) : (ring.pop N value).Queued N isEmpty fifo where
  bound := by
    have := queued.bound
    simp only [List.length_cons] at this
    omega
  head_lt := Nat.mod_lt _ queued.capacity_pos
  tail_eq := by
    have tail := queued.tail_eq
    simp only [RingBuffer.pop, Nat.mod_add_mod]
    rw [tail, List.length_cons]
    congr 1
    omega
  order := by
    have order := queued.order
    simp only [slots, List.length_cons, List.range_succ_eq_map, List.map_cons, List.map_map,
      List.cons.injEq] at order
    rw [order.2]
    simp only [slots, RingBuffer.pop, List.length_map, List.length_range]
    apply List.map_congr_left
    intro i _
    simp only [Function.comp_apply, Nat.mod_add_mod]
    congr 1
    omega
  flags := by
    intro other bound
    have head := queued.head_eq
    have distinct := (List.nodup_cons.mp queued.nodup).1
    simp only [RingBuffer.pop, Function.update_apply, head]
    split
    · next same => simp [same, free, distinct]
    · next different => simp [queued.flags other bound, different]

end Queued

/-- A ring whose slots are all free is empty. -/
theorem queued_nil (positive : 0 < N) (node : ℕ → α) (free : ∀ slot, isEmpty (node slot) = true) :
    (RingBuffer.mk 0 0 node).Queued N isEmpty [] where
  bound := Nat.zero_le _
  head_lt := positive
  tail_eq := by simp
  order := rfl
  flags := by simp [free]

/-! ## Consumer passes -/

/-- The tail a consumer records, unwrapped past the head when it has wrapped around. -/
def recordTail (N : ℕ) (ring : RingBuffer α) : ℕ :=
  if ring.tail ≥ ring.head then ring.tail else ring.tail + N

/-- The recorded tail lies one queue length behind the head unless the ring is full. -/
theorem Queued.recordTail_sub_head (queued : ring.Queued N isEmpty fifo) :
    ring.recordTail N - ring.head = if fifo.length < N then fifo.length else 0 := by
  have bound := queued.bound
  have head := queued.head_lt
  rw [recordTail, queued.tail_eq]
  rcases lt_or_ge (ring.head + fifo.length) N with fits | wraps
  · rw [Nat.mod_eq_of_lt fits]
    split <;> split <;> omega
  · have wrapped : (ring.head + fifo.length) % N = ring.head + fifo.length - N := by
      rw [Nat.mod_eq_sub_mod wraps, Nat.mod_eq_of_lt (by omega)]
    rw [wrapped]
    split <;> split <;> omega

section Pass

variable {σ ε : Type*} (view : σ → RingBuffer α)

/-- `for (i = start; rounds--; i++)`: each round asserts that the slot `i % N` is occupied, fails
with `unoccupied` if not, and runs the body on it. The visited slots are returned. -/
def pass (N : ℕ) (isEmpty : α → Bool) (unoccupied : ε) (body : ℕ → σ → Except ε σ) :
    ℕ → ℕ → σ → Except ε (List ℕ × σ)
  | 0, _, state => .ok ([], state)
  | rounds + 1, i, state =>
    if isEmpty ((view state).node (i % N)) then .error unoccupied
    else do
      let next ← body (i % N) state
      let (visited, final) ← pass N isEmpty unoccupied body rounds (i + 1) next
      return (i % N :: visited, final)

variable {Good : σ → List ℕ → Prop}
  (good : ∀ {state fifo}, Good state fifo → (view state).Queued N isEmpty fifo)
include good

/-- When every body run on the head slot pops it or fails with an error in `Stopped`, a pass of as
many rounds as there are slots in `snapshot` visits these, or fails with an error in `Stopped`. -/
theorem pass_visits (unoccupied : ε) (body : ℕ → σ → Except ε σ) (Stopped : ε → Prop)
    (step : ∀ {state slot rest}, Good state (slot :: rest) →
      match body slot state with
      | .ok next => Good next rest ∧ (view next).head = (slot + 1) % N
      | .error stop => Stopped stop)
    (snapshot later : List ℕ) (i : ℕ) (state : σ) (start : Good state (snapshot ++ later))
    (index : (view state).head = i % N) :
    match pass view N isEmpty unoccupied body snapshot.length i state with
    | .ok (visited, final) => visited = snapshot ∧ Good final later
    | .error stop => Stopped stop := by
  induction snapshot generalizing i state with
  | nil => exact ⟨rfl, start⟩
  | cons slot snapshot ih =>
    have queued := good start
    obtain rfl : slot = i % N := queued.head_eq.symm.trans index
    have occupied : isEmpty ((view state).node (i % N)) = false :=
      (queued.flags _ (queued.slot_lt List.mem_cons_self)).mpr List.mem_cons_self
    have stepped := step start
    simp only [List.length_cons, pass, occupied, Bool.false_eq_true, ↓reduceIte, bind, Except.bind]
    cases ran : body (i % N) state with
    | error stop => simpa only [ran] using stepped
    | ok next =>
      simp only [ran, Nat.mod_add_mod] at stepped
      have rest := ih (i + 1) next stepped.1 stepped.2
      simp only
      cases passed : pass view N isEmpty unoccupied body snapshot.length (i + 1) next with
      | error stop => simpa only [passed] using rest
      | ok result => simpa [passed, pure, Except.pure] using rest

/-- A pass whose body always pops completes. -/
theorem pass_completes {unoccupied : ε} {body : ℕ → σ → σ}
    (step : ∀ {state slot rest}, Good state (slot :: rest) →
      Good (body slot state) rest ∧ (view (body slot state)).head = (slot + 1) % N)
    (snapshot later : List ℕ) (state : σ) (start : Good state (snapshot ++ later)) :
    ∃ final, pass view N isEmpty unoccupied (fun slot state => .ok (body slot state)) snapshot.length
      (view state).head state = .ok (snapshot, final) ∧ Good final later := by
  have index : (view state).head = (view state).head % N := (Nat.mod_eq_of_lt (good start).head_lt).symm
  have visits := pass_visits view good unoccupied (fun slot state => .ok (body slot state))
    (fun _ => False) step snapshot later _ state start index
  split at visits
  · next visited final passed => exact ⟨final, visits.1 ▸ passed, visits.2⟩
  · exact visits.elim

end Pass

end RingBuffer
