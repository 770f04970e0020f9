import DeltaCFS.ToMathlib.Transition
import Mathlib.Data.List.Nodup

/-! # Actions that concern a part of the state

The state is a map from places. An action is local to some places when it neither looks at nor changes the
others. Actions without a common place commute, so a sequence of actions may be carried out in any order that
keeps the order of those that share a place.
-/

namespace DeltaCFS

universe u

variable {ν α β : Type u} {ε ι : Type u} [DecidableEq ν]

/-- Some places from one state, the others from another. -/
def splice (places : List ν) (inner outer : ν → α) : ν → α :=
  fun place => if place ∈ places then inner place else outer place

theorem splice_of_mem {places : List ν} {place : ν} (inside : place ∈ places) (inner outer : ν → α) :
    splice places inner outer place = inner place := if_pos inside

theorem splice_of_notMem {places : List ν} {place : ν} (outside : place ∉ places) (inner outer : ν → α) :
    splice places inner outer place = outer place := if_neg outside

/-- States that agree in these places. -/
theorem splice_of_agrees {places : List ν} {inner outer : ν → α} (agrees : ∀ place ∈ places, outer place = inner place) :
    splice places inner outer = outer := by
  funext place
  by_cases inside : place ∈ places
  · rw [splice_of_mem inside, agrees place inside]
  · rw [splice_of_notMem inside]

@[simp] theorem splice_same (places : List ν) (state : ν → α) : splice places state state = state := by
  funext place
  simp [splice]

/-- Replacing the other places changes nothing else about the action. -/
def LocalTo (places : List ν) (act : (ν → α) → Except ε ((ν → α) × β)) : Prop :=
  ∀ inner outer, act (splice places inner outer) =
    (act inner).map fun result => (splice places result.1 outer, result.2)

namespace LocalTo

variable {places places' : List ν} {act act' : (ν → α) → Except ε ((ν → α) × β)} {state middle last : ν → α}
  {value value' : β}

/-- Other places keep what they have. -/
theorem frame (isLocal : LocalTo places act) (acted : act state = .ok (middle, value)) {place : ν}
    (outside : place ∉ places) : middle place = state place := by
  have same := isLocal state state
  rw [splice_same, acted] at same
  have after := congrArg Prod.fst (Except.ok.inj same)
  exact (congrFun after place).trans (splice_of_notMem outside ..)

/-- What an action does depends on its own places only. -/
theorem congr (isLocal : LocalTo places act) (acted : act state = .ok (middle, value)) (other : ν → α)
    (agrees : ∀ place ∈ places, other place = state place) :
    act other = .ok (splice places middle other, value) := by
  have moved := isLocal state other
  rwa [acted, splice_of_agrees agrees] at moved

/-- So does whether it fails. -/
theorem congr_error {fault : ε} (isLocal : LocalTo places act) (failed : act state = .error fault) (other : ν → α)
    (agrees : ∀ place ∈ places, other place = state place) : act other = .error fault := by
  have moved := isLocal state other
  rwa [failed, splice_of_agrees agrees] at moved

/-- An action that has nothing to do has nothing to do whatever the other places are. -/
theorem still (isLocal : LocalTo places act) (acted : act state = .ok (state, value)) (other : ν → α)
    (agrees : ∀ place ∈ places, other place = state place) : act other = .ok (other, value) := by
  rw [isLocal.congr acted other agrees, splice_of_agrees agrees]

/-- Actions without a common place can be exchanged. -/
theorem comm (first : LocalTo places act) (second : LocalTo places' act') (apart : places.Disjoint places')
    (acted : act state = .ok (middle, value)) (acted' : act' middle = .ok (last, value')) :
    ∃ middle', act' state = .ok (middle', value') ∧ act middle' = .ok (last, value) := by
  have outside {place : ν} (inside : place ∈ places') : place ∉ places := fun also => apart also inside
  have before := second.congr acted' state fun place inside => (first.frame acted (outside inside)).symm
  have behind := first.congr acted (splice places' last state) fun place inside => splice_of_notMem (apart inside) ..
  refine ⟨_, before, behind.trans ?_⟩
  congr 2
  funext place
  by_cases inside : place ∈ places
  · rw [splice_of_mem inside, second.frame acted' (apart inside)]
  · rw [splice_of_notMem inside]
    by_cases also : place ∈ places'
    · rw [splice_of_mem also]
    · rw [splice_of_notMem also, second.frame acted' also, first.frame acted inside]

end LocalTo

/-! ## Sequences -/

section Sequences

variable (act : ι → (ν → α) → Except ε ((ν → α) × β)) (places : ι → List ν)

/-- Carry out the actions one after the other, and collect what each of them gives back. -/
def actAll : List ι → (ν → α) → Except ε ((ν → α) × List (ι × β))
  | [], state => .ok (state, [])
  | label :: rest, state => do
    let (state, value) ← act label state
    let (state, values) ← actAll rest state
    return (state, (label, value) :: values)

/-- Exchanges of neighbours without a common place. -/
inductive Reorders : List ι → List ι → Prop where
  | refl (labels : List ι) : Reorders labels labels
  | swap (first second : ι) (rest : List ι) : (places first).Disjoint (places second) →
    Reorders (first :: second :: rest) (second :: first :: rest)
  | cons (label : ι) {labels labels' : List ι} : Reorders labels labels' → Reorders (label :: labels) (label :: labels')
  | trans {first second third : List ι} : Reorders first second → Reorders second third → Reorders first third

variable {act places} {labels labels' : List ι} {state last : ν → α} {values : List (ι × β)}

/-- What changes belongs to an action. -/
theorem actAll_frame (isLocal : ∀ label, LocalTo (places label) (act label))
    (acted : actAll act labels state = .ok (last, values)) {place : ν} (changed : last place ≠ state place) :
    ∃ label ∈ labels, place ∈ places label := by
  induction labels generalizing state values with
  | nil =>
    obtain ⟨rfl, -⟩ := Prod.mk.inj (Except.ok.inj acted)
    exact absurd rfl changed
  | cons label labels ih =>
    simp only [actAll, Except.bind_eq_ok] at acted
    obtain ⟨⟨middle, value⟩, acts, ⟨two, others⟩, behind, done⟩ := acted
    obtain ⟨rfl, -⟩ := Prod.mk.inj (Except.ok.inj done)
    by_cases inside : place ∈ places label
    · exact ⟨label, List.mem_cons_self, inside⟩
    · have before := (isLocal label).frame acts inside
      obtain ⟨other, member, inside'⟩ := ih behind fun same => changed (same.trans before)
      exact ⟨other, List.mem_cons_of_mem _ member, inside'⟩

/-- Every order of this kind leaves the same state, and gives every action the same value. -/
theorem actAll_reorders (isLocal : ∀ label, LocalTo (places label) (act label)) (reorders : Reorders places labels labels')
    (acted : actAll act labels state = .ok (last, values)) :
    ∃ values', actAll act labels' state = .ok (last, values') ∧ values.Perm values' := by
  induction reorders generalizing state values with
  | refl labels => exact ⟨values, acted, .refl _⟩
  | swap first second rest apart =>
    simp only [actAll, Except.bind_eq_ok] at acted
    obtain ⟨⟨one, value⟩, acts, ⟨two, more⟩, ⟨⟨three, value'⟩, acts', ⟨four, left⟩, behind, same⟩, done⟩ := acted
    obtain ⟨rfl, rfl⟩ := Prod.mk.inj (Except.ok.inj same)
    obtain ⟨rfl, rfl⟩ := Prod.mk.inj (Except.ok.inj done)
    obtain ⟨middle, before, after⟩ := (isLocal first).comm (isLocal second) apart acts acts'
    refine ⟨_, ?_, .swap _ _ _⟩
    simp only [actAll, before, after, behind, bind, Except.bind]
    rfl
  | cons label _ ih =>
    simp only [actAll, Except.bind_eq_ok] at acted
    obtain ⟨⟨one, value⟩, acts, ⟨two, more⟩, behind, done⟩ := acted
    obtain ⟨rfl, rfl⟩ := Prod.mk.inj (Except.ok.inj done)
    obtain ⟨values', behind', perm⟩ := ih behind
    refine ⟨_, ?_, perm.cons _⟩
    simp only [actAll, acts, behind', bind, Except.bind]
    rfl
  | trans _ _ ih ih' =>
    obtain ⟨values', acted', perm⟩ := ih acted
    obtain ⟨values'', acted'', perm'⟩ := ih' acted'
    exact ⟨values'', acted'', perm.trans perm'⟩

omit [DecidableEq ν] in
theorem Reorders.symm (reorders : Reorders places labels labels') : Reorders places labels' labels := by
  induction reorders with
  | refl labels => exact .refl _
  | swap first second rest apart => exact .swap _ _ _ fun _ inside also => apart also inside
  | cons label _ ih => exact .cons label ih
  | trans _ _ ih ih' => exact .trans ih' ih

/-- If one order of this kind fails, so does every other one. -/
theorem actAll_reorders_error (isLocal : ∀ label, LocalTo (places label) (act label))
    (reorders : Reorders places labels labels') {fault : ε} (failed : actAll act labels state = .error fault) :
    ∃ fault', actAll act labels' state = .error fault' := by
  cases other : actAll act labels' state with
  | error fault' => exact ⟨fault', rfl⟩
  | ok result =>
    obtain ⟨values, acted, -⟩ := actAll_reorders isLocal reorders.symm other
    exact absurd (failed.symm.trans acted) (by simp)

omit [DecidableEq ν] in
/-- An action that shares no place with those before it comes first. -/
theorem Reorders.front {label : ι} {before rest : List ι}
    (apart : ∀ other ∈ before, (places other).Disjoint (places label)) :
    Reorders places (before ++ label :: rest) (label :: (before ++ rest)) := by
  induction before with
  | nil => exact .refl _
  | cons other before ih =>
    have behind := ih fun inside member => apart inside (List.mem_cons_of_mem _ member)
    exact (behind.cons other).trans (.swap other label _ (apart other List.mem_cons_self))

omit [DecidableEq ν] in
/-- A rearrangement that keeps the order of the actions that share a place is made of such exchanges. -/
theorem Reorders.of_perm (nodup : labels.Nodup) (perm : labels.Perm labels')
    (kept : ∀ first second, [first, second].Sublist labels → ¬ (places first).Disjoint (places second) →
      [first, second].Sublist labels') : Reorders places labels labels' := by
  induction labels' generalizing labels with
  | nil =>
    obtain rfl := List.perm_nil.mp perm
    exact .refl _
  | cons label rest ih =>
    obtain ⟨before, behind, rfl⟩ := List.append_of_mem (perm.mem_iff.mpr List.mem_cons_self)
    have nodup' : (label :: rest).Nodup := perm.nodup_iff.mp nodup
    have left : (before ++ behind).Perm rest := (List.perm_middle.symm.trans perm).cons_inv
    have distinct : (before ++ behind).Nodup := left.nodup_iff.mpr (List.nodup_cons.mp nodup').2
    have outside : label ∉ before ++ behind := fun inside => (List.nodup_cons.mp nodup').1 (left.mem_iff.mp inside)
    refine .trans (.front fun other member => ?_) (.cons label (ih distinct left fun first second both shares => ?_))
    · by_contra shares
      -- the other action would have to stay before
      have pair : [other, label].Sublist (before ++ label :: behind) :=
        (List.singleton_sublist.mpr member).append (List.singleton_sublist.mpr List.mem_cons_self)
      rcases List.sublist_cons_iff.mp (kept other label pair shares) with inside | ⟨tail, same, -⟩
      · exact (List.nodup_cons.mp nodup').1 (inside.subset (by simp))
      · obtain ⟨rfl, -⟩ := List.cons.inj same
        exact outside (List.mem_append_left _ member)
    · have whole : (before ++ behind).Sublist (before ++ label :: behind) :=
        (List.Sublist.refl _).append (List.sublist_cons_self _ _)
      rcases List.sublist_cons_iff.mp (kept first second (both.trans whole) shares) with inside | ⟨tail, same, -⟩
      · exact inside
      · obtain ⟨rfl, -⟩ := List.cons.inj same
        exact absurd (both.subset (by simp)) outside

end Sequences

/-! ## Repetitions -/

section Repetitions

variable {κ : Type u} (act : ι → (ν → α) → Except ε ((ν → α) × β)) (places : ι → List ν) (key : ι → κ)
  (Again : ι → ι → Prop)

/-- The first action once more: where it has just been carried out there is nothing left to do. -/
structure Repeats (label again : ι) : Prop where
  key_eq : key again = key label
  places_eq : places again = places label
  done : ∀ state middle value, act label state = .ok (middle, value) → act again middle = .ok (middle, value)

/-- Actions are repeated, each before one that shares a place with it. -/
inductive Redelivers : List ι → List ι → Prop where
  | refl (labels : List ι) : Redelivers labels labels
  | again {label again : ι} (before between behind : List ι) : Again label again →
    (∀ other ∈ between, (places other).Disjoint (places label)) →
    Redelivers (before ++ label :: between ++ behind) (before ++ label :: between ++ again :: behind)
  | trans {first second third : List ι} : Redelivers first second → Redelivers second third → Redelivers first third

variable {act places key Again} {labels labels' before between : List ι} {label again : ι} {state last : ν → α}
  {values : List (ι × β)}

omit [DecidableEq ν] in
theorem actAll_append (labels labels' : List ι) (state : ν → α) :
    actAll act (labels ++ labels') state = do
      let (state, values) ← actAll act labels state
      let (state, values') ← actAll act labels' state
      return (state, values ++ values') := by
  induction labels generalizing state with
  | nil => cases other : actAll act labels' state <;> simp [actAll, other, bind, Except.bind, pure, Except.pure]
  | cons label labels ih =>
    simp only [List.cons_append, actAll, ih, bind, Except.bind, pure, Except.pure]
    cases act label state with
    | error fault => rfl
    | ok first =>
      dsimp only
      cases actAll act labels first.1 with
      | error fault => rfl
      | ok second =>
        dsimp only
        cases actAll act labels' second.1 with
        | error fault => rfl
        | ok third => rfl

/-- As long as no action shares a place with it, the places of an action stay as it has left them. -/
theorem actAll_behind (isLocal : ∀ label, LocalTo (places label) (act label))
    (apart : ∀ other ∈ between, (places other).Disjoint (places label))
    (acted : actAll act (before ++ label :: between) state = .ok (last, values)) :
    ∃ first middle value, act label first = .ok (middle, value) ∧ (label, value) ∈ values ∧
      ∀ place ∈ places label, last place = middle place := by
  simp only [actAll_append, actAll, Except.bind_eq_ok] at acted
  obtain ⟨⟨first, ahead⟩, -, ⟨second, rest⟩, ⟨⟨middle, value⟩, acts, ⟨third, more⟩, behind, same⟩, done⟩ := acted
  obtain ⟨rfl, rfl⟩ := Prod.mk.inj (Except.ok.inj same)
  obtain ⟨rfl, rfl⟩ := Prod.mk.inj (Except.ok.inj done)
  refine ⟨first, middle, value, acts, by simp, fun place inside => ?_⟩
  by_contra changed
  obtain ⟨other, member, touches⟩ := actAll_frame isLocal behind changed
  exact apart other member touches inside

/-- Nothing is left to do. -/
theorem actAll_still (isLocal : ∀ label, LocalTo (places label) (act label)) (repeats : Repeats act places key label again)
    (apart : ∀ other ∈ between, (places other).Disjoint (places label))
    (acted : actAll act (before ++ label :: between) state = .ok (last, values)) :
    ∃ value, (label, value) ∈ values ∧ act again last = .ok (last, value) := by
  obtain ⟨first, middle, value, acts, member, left⟩ := actAll_behind isLocal apart acted
  exact ⟨value, member, (isLocal again).still (repeats.done _ _ _ acts) _ fun place inside =>
    left place (repeats.places_eq ▸ inside)⟩

/-- Repetitions change neither the state nor a value, and give every repetition the value of its action; and they
fail where the actions fail. -/
theorem actAll_redelivers (isLocal : ∀ label, LocalTo (places label) (act label))
    (repeats : ∀ label again, Again label again → Repeats act places key label again)
    (redelivers : Redelivers places Again labels labels') (state : ν → α) :
    (∀ last values, actAll act labels state = .ok (last, values) →
      ∃ values', actAll act labels' state = .ok (last, values') ∧ values.Sublist values' ∧
        ∀ entry ∈ values', ∃ entry' ∈ values, key entry.1 = key entry'.1 ∧ entry.2 = entry'.2) ∧
      ∀ fault, actAll act labels state = .error fault → actAll act labels' state = .error fault := by
  induction redelivers with
  | refl labels =>
    exact ⟨fun last values acted => ⟨values, acted, .refl _, fun entry inside => ⟨entry, inside, rfl, rfl⟩⟩,
      fun _ failed => failed⟩
  | @again label again before between behind related apart =>
    have repeats := repeats label again related
    rw [actAll_append (before ++ label :: between) behind, actAll_append (before ++ label :: between) (again :: behind)]
    cases ahead : actAll act (before ++ label :: between) state with
    | error fault => exact ⟨fun _ _ acted => absurd acted (by simp [bind, Except.bind]), fun _ failed => failed⟩
    | ok result =>
      obtain ⟨middle, values⟩ := result
      obtain ⟨value, member, still⟩ := actAll_still isLocal repeats apart ahead
      cases rest : actAll act behind middle with
      | error fault =>
        refine ⟨fun _ _ acted => absurd acted (by simp [bind, Except.bind, rest]), fun other failed => ?_⟩
        simpa [actAll, still, rest, bind, Except.bind] using failed
      | ok result =>
        obtain ⟨final, others⟩ := result
        refine ⟨fun last all acted => ?_, fun _ failed => absurd failed (by simp [bind, Except.bind, rest, pure, Except.pure])⟩
        obtain ⟨rfl, rfl⟩ : final = last ∧ values ++ others = all := by
          simpa [bind, Except.bind, rest, pure, Except.pure] using acted
        refine ⟨values ++ (again, value) :: others, ?_, (List.Sublist.refl _).append (List.sublist_cons_self _ _), ?_⟩
        · simp [actAll, still, rest, bind, Except.bind, pure, Except.pure]
        · intro entry inside
          rcases List.mem_append.mp inside with inside | inside
          · exact ⟨entry, List.mem_append_left _ inside, rfl, rfl⟩
          · rcases List.mem_cons.mp inside with rfl | inside
            · exact ⟨(label, value), List.mem_append_left _ member, repeats.key_eq, rfl⟩
            · exact ⟨entry, List.mem_append_right _ inside, rfl, rfl⟩
  | trans _ _ ih ih' =>
    refine ⟨fun last values acted => ?_, fun fault failed => ih'.2 fault (ih.2 fault failed)⟩
    obtain ⟨values', acted', sublist, replies⟩ := ih.1 last values acted
    obtain ⟨values'', acted'', sublist', replies'⟩ := ih'.1 last values' acted'
    refine ⟨values'', acted'', sublist.trans sublist', fun entry inside => ?_⟩
    obtain ⟨entry', inside', key', same'⟩ := replies' entry inside
    obtain ⟨first, inside'', key'', same''⟩ := replies entry' inside'
    exact ⟨first, inside'', key'.trans key'', same'.trans same''⟩

/-- An action that would fail right behind itself fails. -/
theorem actAll_again_error (isLocal : ∀ label, LocalTo (places label) (act label)) {fault : ε}
    (places_eq : places again = places label)
    (fails : ∀ state middle value, act label state = .ok (middle, value) → act again middle = .error fault)
    (apart : ∀ other ∈ between, (places other).Disjoint (places label))
    (acted : actAll act (before ++ label :: between) state = .ok (last, values)) (behind : List ι) :
    actAll act (before ++ label :: between ++ again :: behind) state = .error fault := by
  obtain ⟨first, middle, value, acts, -, left⟩ := actAll_behind isLocal apart acted
  have refused := (isLocal again).congr_error (fails _ _ _ acts) last fun place inside => left place (places_eq ▸ inside)
  rw [actAll_append (before ++ label :: between) (again :: behind), acted]
  simp only [actAll, refused, bind, Except.bind]

end Repetitions

end DeltaCFS
