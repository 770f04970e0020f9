import Mathlib.Data.List.Basic
import Mathlib.Data.List.Nodup

/-! # Maps whose bindings expire in insertion order

A binding is live until it is replaced by a later one of the same key, removed by its key or by a
property of its value, or until it is the oldest binding when the map expires one. Dead bindings
keep their place in the queue until their turn.
-/

structure Binding (κ ν : Type*) where
  key : κ
  value : ν
  live : Bool

/-- The outstanding bindings, the oldest first. -/
abbrev ExpiringMap (κ ν : Type*) := List (Binding κ ν)

namespace ExpiringMap

variable {κ ν : Type*} [DecidableEq κ]

/-- The bindings selected by `dead` are dead from now on. -/
def kill (dead : κ → ν → Bool) (map : ExpiringMap κ ν) : ExpiringMap κ ν :=
  map.map fun binding => { binding with live := binding.live && !dead binding.key binding.value }

/-- Remove the binding of a key. -/
def remove (key : κ) (map : ExpiringMap κ ν) : ExpiringMap κ ν := kill (fun other _ => decide (other = key)) map

/-- Bind a key, replacing its binding. -/
def bind (key : κ) (value : ν) (map : ExpiringMap κ ν) : ExpiringMap κ ν :=
  remove key map ++ [⟨key, value, true⟩]

/-- The oldest binding, live or dead, has its turn. -/
def expire (map : ExpiringMap κ ν) : ExpiringMap κ ν := map.tail

/-- The value of the live binding of a key. -/
def find (key : κ) (map : ExpiringMap κ ν) : Option ν :=
  (map.find? fun binding => binding.live && decide (binding.key = key)).map Binding.value

omit [DecidableEq κ] in
@[simp] theorem kill_length (dead : κ → ν → Bool) (map : ExpiringMap κ ν) :
    (kill dead map).length = map.length := List.length_map _

omit [DecidableEq κ] in
@[simp] theorem kill_cons (dead : κ → ν → Bool) (binding : Binding κ ν) (map : ExpiringMap κ ν) :
    kill dead (binding :: map) =
      { binding with live := binding.live && !dead binding.key binding.value } :: kill dead map := rfl

omit [DecidableEq κ] in
theorem kill_kill (first second : κ → ν → Bool) (map : ExpiringMap κ ν) :
    kill second (kill first map) = kill (fun key value => first key value || second key value) map := by
  simp only [kill, List.map_map]
  apply List.map_congr_left
  intro binding _
  simp [Bool.and_assoc]

theorem find_nil (key : κ) : find key ([] : ExpiringMap κ ν) = none := rfl

theorem find_cons (key : κ) (binding : Binding κ ν) (map : ExpiringMap κ ν) :
    find key (binding :: map) =
      if binding.live && decide (binding.key = key) then some binding.value else find key map := by
  simp only [find, List.find?_cons]
  split <;> simp_all

/-- Removing a key makes it unbound. -/
theorem find_remove_self (key : κ) (map : ExpiringMap κ ν) : find key (remove key map) = none := by
  simp only [find, remove, kill, Option.map_eq_none_iff, List.find?_eq_none, List.mem_map,
    forall_exists_index, and_imp, forall_apply_eq_imp_iff₂]
  intro binding _
  by_cases same : binding.key = key <;> simp [same]

theorem find_remove_of_ne {key other : κ} (different : other ≠ key) (map : ExpiringMap κ ν) :
    find other (remove key map) = find other map := by
  induction map with
  | nil => rfl
  | cons binding map ih =>
    rw [remove] at ih ⊢
    rw [kill_cons, find_cons, find_cons, ih]
    by_cases same : binding.key = other
    · simp [same, different]
    · simp [same]

/-- The last binding of a key is the one that counts. -/
theorem find_bind (key other : κ) (value : ν) (map : ExpiringMap κ ν) :
    find other (bind key value map) = if other = key then some value else find other map := by
  have append (first second : ExpiringMap κ ν) :
      find other (first ++ second) = (find other first).or (find other second) := by
    simp only [find, List.find?_append]
    cases first.find? fun binding => binding.live && decide (binding.key = other) <;> rfl
  rw [bind, append]
  split
  · next same =>
    subst same
    rw [find_remove_self, Option.none_or, find_cons, if_pos (by simp)]
  · next different =>
    rw [find_remove_of_ne different, find_cons, if_neg (by simp [Ne.symm different]), find_nil, Option.or_none]

end ExpiringMap
