import DeltaCFS.Proofs.ReadVerification
import DeltaCFS.Proofs.Librsync.WeakSum
import DeltaCFS.Proofs.Mirror

/-! # Damaged reads are found

Whatever calls have been made on whatever files, a read returns -1 if the octets of a file have changed
under the mount in a way that a weak sum can see, and 0 if not. Only files that a rename has moved are left
out: `xmp_rename` does not move their sums.
-/

namespace DeltaCFS

open Bytes

variable {path other : Path} {file damaged : Bytes} {db : Leveldb} {call : Call} {calls : List Call}
  {summed : Path → Prop}

/-! ## Calls on many files -/

/-- The files of the mount, and the sums of their blocks. -/
structure CheckedFiles where
  files : Files
  db : Leveldb

/-- The file that is changed in place, and how. -/
def Call.change? : Call → Option (Path × Change)
  | .write path offset data => some (path, .write offset data)
  | .truncate path size => some (path, .truncate size)
  | _ => none

/-- Only `xmp_write` and `xmp_truncate` put sums. -/
def CheckedFiles.next (call : Call) (state : CheckedFiles) : Option CheckedFiles :=
  match call.change? with
  | none => some ⟨state.files.after call, state.db⟩
  | some (path, change) => do
    let file ← state.files path
    let after ← checkedChange path change ⟨file, state.db⟩
    return ⟨Function.update state.files path (some after.file), after.db⟩

def CheckedFiles.replay : List Call → CheckedFiles → Option CheckedFiles
  | [], state => some state
  | call :: rest, state => state.next call >>= CheckedFiles.replay rest

/-- A file that is changed is there and stays below four gibibytes, and no file gets a second name. -/
def Call.Changes (call : Call) (files : Files) : Prop :=
  (∀ source target, call ≠ .link source target) ∧
    ∀ path change, call.change? = some (path, change) → (files path).isSome ∧ change.Below

def AllFit : List Call → Files → Prop
  | [], _ => True
  | call :: rest, files => call.Changes files ∧ AllFit rest (files.after call)

/-- Which paths have sums: a new file and one that is emptied need none, and one that a rename brings has none. -/
def Call.leavesSums (summed : Path → Prop) (call : Call) (path : Path) : Prop :=
  match call with
  | .mknod made _ _ => path = made ∨ summed path
  | .truncate emptied 0 => path = emptied ∨ summed path
  | .rename _ target => path ≠ target ∧ summed path
  | _ => summed path

/-- The paths with sums after these calls on an empty mount. -/
def Summed (calls : List Call) : Path → Prop := calls.foldl Call.leavesSums fun _ => True

/-! ## One change -/

theorem enlargeTo_keeps (path : Path) (oldsize : ℕ) {newsize : ℕ} (below : newsize < 2 ^ 32) (db : Leveldb) :
    ∃ db', enlargeTo path oldsize newsize db = some db' ∧ KeepsOthers path db db' := by
  rw [enlargeTo]
  split
  · next grows =>
    obtain ⟨db', ran, puts⟩ := checksumEnlarge_puts path db grows below
    exact ⟨db', ran, puts.keepsOthers⟩
  · exact ⟨db, rfl, fun _ _ => rfl⟩

theorem shrinkTo_keeps (file path : Bytes) {newsize : ℕ} (below : newsize < 2 ^ 32) (db : Leveldb) :
    ∃ db', shrinkTo file path newsize db = some db' ∧ KeepsOthers path db db' := by
  rw [shrinkTo]
  split
  · next shrinks =>
    cases newsize with
    | zero => exact ⟨db, if_pos rfl, fun _ _ => rfl⟩
    | succ size =>
      obtain ⟨db', ran, puts⟩ := checksumShrink_puts file path db (Nat.succ_pos size) shrinks.le below
      exact ⟨db', ran, puts.keepsOthers⟩
  · exact ⟨db, rfl, fun _ _ => rfl⟩

/-- A change comes to its end even where there are no sums. -/
theorem checkedChange_ran (change : Change) (state : Checked) (below : change.Below) :
    ∃ after, checkedChange path change state = some after ∧ after.file = change.apply state.file ∧
      KeepsOthers path state.db after.db := by
  cases change with
  | write offset data =>
    change offset + data.length < 2 ^ 32 at below
    obtain ⟨db₁, ran₁, kept₁⟩ := enlargeTo_keeps path state.file.length (show offset < 2 ^ 32 by omega) state.db
    obtain ⟨db₂, ran₂, puts⟩ := @checksumUpdate_puts offset state.file path data db₁ below
    refine ⟨⟨pwrite state.file offset data, db₂⟩, ?_, rfl, kept₁.trans puts.keepsOthers⟩
    simp only [checkedChange, checkedWrite, ran₁, bind, Option.bind, ran₂, pure]
  | truncate size =>
    obtain ⟨db₁, ran₁, kept₁⟩ := enlargeTo_keeps path state.file.length below state.db
    obtain ⟨db₂, ran₂, kept₂⟩ := shrinkTo_keeps state.file path below db₁
    refine ⟨⟨resize size state.file, db₂⟩, ?_, rfl, kept₁.trans kept₂⟩
    simp only [checkedChange, checkedTruncate, ran₁, bind, Option.bind, ran₂, pure]

theorem Change.apply_small {change : Change} (small : file.length < 2 ^ 32) (below : change.Below) :
    (change.apply file).length < 2 ^ 32 := by
  cases change with
  | write offset data =>
    change offset + data.length < 2 ^ 32 at below
    by_cases empty : data = []
    · rw [Change.apply, empty, pwrite_nil]
      exact small
    · rw [Change.apply, pwrite_length _ _ empty]
      omega
  | truncate size =>
    rw [Change.apply, resize_length]
    exact below

/-- Another file has its sums as before. -/
theorem Stored.elsewhere {state : Checked} {db' : Leveldb} (stored : Stored path state) (kept : KeepsOthers other state.db db')
    (apart : path ≠ other) : Stored path ⟨state.file, db'⟩ := by
  intro k inside
  exact (kept _ fun _ _ same => apart (checksumKey_path same).1).trans (stored k inside)

theorem stored_empty (path : Path) (db : Leveldb) : Stored path ⟨[], db⟩ :=
  fun _ inside => absurd inside (Nat.not_lt_zero _)

/-! ## Any calls -/

theorem Files.after_change {files : Files} {change : Change} (changed : call.change? = some (path, change))
    (held : files path = some file) : files.after call = Function.update files path (some (change.apply file)) := by
  cases call with
  | write _ _ _ =>
    cases changed
    rw [Files.after, held]
    rfl
  | truncate _ _ =>
    cases changed
    rw [Files.after, held]
    rfl
  | _ => simp [Call.change?] at changed

/-- The sums a change leaves were there before, unless it has emptied the file. -/
theorem Call.leavesSums_change {change : Change} (changed : call.change? = some (path, change))
    (has : call.leavesSums summed other) : summed other ∨ (other = path ∧ change = .truncate 0) := by
  cases call with
  | write _ _ _ => exact .inl has
  | truncate _ size =>
    cases changed
    cases size with
    | zero => exact has.symm.imp_right fun same => ⟨same, rfl⟩
    | succ size => exact .inl has
  | _ => simp [Call.change?] at changed

/-- Every file is small, and the database has the sums of these. -/
structure CheckedFiles.Sound (summed : Path → Prop) (state : CheckedFiles) : Prop where
  small : ∀ path file, state.files path = some file → file.length < 2 ^ 32
  stored : ∀ path file, summed path → state.files path = some file → Stored path ⟨file, state.db⟩

namespace CheckedFiles.Sound

variable {state : CheckedFiles}

/-- The database has the sums of another set of files. -/
theorem update (sound : state.Sound summed) (path : Path) {content : Option Bytes} {db' : Leveldb}
    {summed' : Path → Prop} (small : ∀ file, content = some file → file.length < 2 ^ 32)
    (stored : ∀ file, summed' path → content = some file → Stored path ⟨file, db'⟩)
    (kept : KeepsOthers path state.db db') (fewer : ∀ other, other ≠ path → summed' other → summed other) :
    Sound summed' ⟨Function.update state.files path content, db'⟩ where
  small := by
    intro other file held
    rcases eq_or_ne other path with rfl | apart
    · exact small file (by simpa using held)
    · exact sound.small other file (by simpa [apart] using held)
  stored := by
    intro other file has held
    rcases eq_or_ne other path with rfl | apart
    · exact stored file has (by simpa using held)
    · have before := sound.stored other file (fewer other apart has) (by simpa [apart] using held)
      exact before.elsewhere kept apart

/-- A call that changes no file in place puts no sums. -/
theorem after (sound : state.Sound summed) (plain : call.change? = none)
    (single : ∀ source target, call ≠ .link source target) :
    Sound (call.leavesSums summed) ⟨state.files.after call, state.db⟩ := by
  cases call with
  | mknod path mode rdev =>
    refine sound.update path ?_ ?_ (fun _ _ => rfl) fun other apart has => has.resolve_left apart
    · rintro file ⟨⟩
      exact Nat.two_pow_pos 32
    · rintro file - ⟨⟩
      exact stored_empty path state.db
  | unlink path => exact sound.update path (by simp) (by simp) (fun _ _ => rfl) fun _ _ has => has
  | rename source target =>
    have without : Sound summed ⟨Function.update state.files source none, state.db⟩ :=
      sound.update source (by simp) (by simp) (fun _ _ => rfl) fun _ _ has => has
    refine without.update target (fun file held => sound.small source file held) ?_ (fun _ _ => rfl)
      fun other _ has => has.2
    exact fun _ has => absurd rfl has.1
  | link source target => exact absurd rfl (single source target)
  | truncate path size => simp [Call.change?] at plain
  | write path offset data => simp [Call.change?] at plain
  | _ => exact sound

/-- One call. -/
theorem next (sound : state.Sound summed) (fits : call.Changes state.files) :
    ∃ after, state.next call = some after ∧ after.files = state.files.after call ∧
      after.Sound (call.leavesSums summed) := by
  obtain ⟨single, fits⟩ := fits
  cases changed : call.change? with
  | none => exact ⟨_, by rw [CheckedFiles.next, changed], rfl, sound.after changed single⟩
  | some place =>
    obtain ⟨path, change⟩ := place
    obtain ⟨there, below⟩ := fits path change changed
    obtain ⟨file, held⟩ := Option.isSome_iff_exists.mp there
    obtain ⟨after, ran, content, kept⟩ := @checkedChange_ran path change ⟨file, state.db⟩ below
    have small := sound.small path file held
    refine ⟨⟨Function.update state.files path (some after.file), after.db⟩, ?_, ?_, ?_⟩
    · simp only [CheckedFiles.next, changed, held, bind, Option.bind, ran, pure]
    · rw [content, Files.after_change changed held]
    · refine sound.update path ?_ ?_ kept fun other apart has =>
        (Call.leavesSums_change changed has).resolve_right fun both => apart both.1
      · rintro _ ⟨⟩
        rw [content]
        exact Change.apply_small small below
      · rintro _ has ⟨⟩
        rcases Call.leavesSums_change changed has with before | ⟨-, rfl⟩
        · obtain ⟨after', ran', -, -, stored, -⟩ := checkedChange_stored change small (sound.stored path file before held) below
          exact Option.some.inj (ran.symm.trans ran') ▸ stored
        · have empty : after.file = [] := List.eq_nil_of_length_eq_zero (by rw [content]; exact resize_length ..)
          exact empty ▸ stored_empty path after.db

/-- Any calls. -/
theorem replay (sound : state.Sound summed) (fit : AllFit calls state.files) :
    ∃ after, CheckedFiles.replay calls state = some after ∧ after.files = calls.foldl Files.after state.files ∧
      after.Sound (calls.foldl Call.leavesSums summed) := by
  induction calls generalizing state summed with
  | nil => exact ⟨state, rfl, rfl, sound⟩
  | cons call rest ih =>
    obtain ⟨next, ran, files, sound'⟩ := sound.next fit.1
    obtain ⟨after, ran', files', sound''⟩ := ih sound' (files ▸ fit.2)
    refine ⟨after, ?_, by rw [files', files]; rfl, sound''⟩
    simp only [CheckedFiles.replay, ran, bind, Option.bind, ran']

theorem empty (db : Leveldb) : Sound summed ⟨fun _ => none, db⟩ where
  small := by simp
  stored := by simp

end CheckedFiles.Sound

/-! ## The mount -/

variable {env : Env} {server : ServerEnv} {client after : Client} {origin : UInt64 → Bytes} {traced last : Traced}

/-- A call that succeeds finds the file it changes. -/
theorem Client.changes {event : Event} (mounted : Mounted client) (regular : RegularCall event client)
    (sound : event.call.Sound event.env server client origin) (stepped : client.next event = .ok after)
    (below : ∀ path change, event.call.change? = some (path, change) → change.Below) :
    event.call.Changes client.files := by
  obtain ⟨env, call⟩ := event
  obtain ⟨onFiles, succeeds⟩ := regular
  obtain ⟨outcome, ran, -⟩ := next_eq_ok stepped
  have done := succeeds outcome ran
  refine ⟨fun source target same => ?_, fun path change changed => ⟨?_, below path change changed⟩⟩
  · obtain rfl : call = .link source target := same
    simp [Call.onFiles] at onFiles
  · cases call with
    | write other offset data =>
      cases changed
      obtain ⟨handled, -⟩ := ofHandled_eq_ok ran
      obtain ⟨content, held, -⟩ := mounted.plain.xmpWrite handled done
      rw [Client.files_user sound, held, Option.isSome_some]
    | truncate other size =>
      cases changed
      obtain ⟨handled, -⟩ := ofHandled_eq_ok ran
      obtain ⟨content, held, -⟩ := mounted.plain.xmpTruncate handled done
      rw [Client.files_user sound.1, held, Option.isSome_some]
    | _ => simp [Call.change?] at changed

def SystemEvent.call? : SystemEvent → Option Call
  | .call event _ => some event.call
  | .restart _ => none

/-- The changes that an event makes in place stay below four gibibytes. -/
def SystemEvent.Below (event : SystemEvent) : Prop :=
  ∀ call path change, event.call? = some call → call.change? = some (path, change) → change.Below

/-- The calls of a run are such calls, and the files of the mount are what they make. -/
theorem Faithfully.fit {events : List SystemEvent} (faithfully : Faithfully traced)
    (allowed : Transition.AllAllowed Traced.next Faithful events traced)
    (replayed : Transition.replay Traced.next events traced = .ok last) (below : ∀ event ∈ events, event.Below) :
    AllFit (events.filterMap SystemEvent.call?) traced.system.client.files ∧
      last.system.client.files = (events.filterMap SystemEvent.call?).foldl Files.after traced.system.client.files := by
  induction events generalizing traced with
  | nil => exact ⟨trivial, by rw [Except.ok.inj replayed]; rfl⟩
  | cons event rest ih =>
    obtain ⟨next, stepped, replayed⟩ := Transition.replay_cons.mp replayed
    obtain ⟨here, later⟩ := List.forall_mem_cons.mp below
    have files := faithfully.files_next allowed.1 stepped
    obtain ⟨fit, made⟩ := ih (faithfully.step allowed.1 stepped) (allowed.2 next stepped) replayed later
    obtain ⟨keeps, sound⟩ := allowed.1
    cases event with
    | restart memory => exact absurd keeps.1 id
    | call event server =>
      obtain ⟨system, ran, -⟩ := Except.bind_eq_ok.mp stepped
      have changes : event.call.Changes traced.system.client.files :=
        Client.changes faithfully.chain.state.mounted keeps.1 sound (ChainState.client_next ran)
          fun path change => here event.call path change rfl
      rw [files] at fit made
      exact ⟨⟨changes, fit⟩, made⟩

/-! ## Reads -/

/-- A stored sum is the one of the block as it is now exactly if the damage cannot be seen. -/
theorem current_iff_unseen {k : ℕ} (stored : db (checksumKey path k) = some (ofNatLE 4 (blockSum file k).toNat)) :
    Current path damaged db k ↔ Unseen (paddedBlock file k) (paddedBlock damaged k) := by
  rw [← rsCalcWeakSum_eq_iff (by rw [paddedBlock_length, paddedBlock_length]), Current, stored, Option.some.injEq]
  exact ⟨ofNatLE_toNat_inj, fun same => by rw [blockSum, same]⟩

/-- The blocks that a read touches. -/
def Touches (offset count k : ℕ) : Prop := offset / 2048 ≤ k ∧ k ≤ (offset + count - 1) / 2048

/-- After any calls on an empty mount, a read of a file that no rename has moved returns 0 if no block that it
touches has damage that can be seen, and -1 if one has; one octet, or two that are not a multiple of 512 apart,
can always be seen. -/
theorem damage_found (db : Leveldb) (calls : List Call) (fit : AllFit calls fun _ => none) :
    ∃ after, CheckedFiles.replay calls ⟨fun _ => none, db⟩ = some after ∧
      after.files = calls.foldl Files.after (fun _ => none) ∧
      ∀ path file damaged offset count fuel, Summed calls path → after.files path = some file →
        damaged.length = file.length → 1 ≤ count → offset + count ≤ file.length → (offset + count) / 2048 < fuel →
        ∃ check, checksumCheck fuel damaged path (pread damaged offset count) offset after.db = some check ∧
          (check.code = some 0 ∨ check.code = some (-1)) ∧
          (check.code = some 0 ↔ ∀ k, Touches offset count k → Unseen (paddedBlock file k) (paddedBlock damaged k)) ∧
          ∀ k i j, Touches offset count k → i ≤ j → j < 2048 → (i < j → ¬ 512 ∣ j - i) →
            DifferAt (paddedBlock file k) (paddedBlock damaged k) i j → paddedBlock file k ≠ paddedBlock damaged k →
            check.code = some (-1) := by
  obtain ⟨after, ran, files, sound⟩ := (CheckedFiles.Sound.empty db).replay fit
  refine ⟨after, ran, files, fun path file damaged offset count fuel summed held sized positive inside enough => ?_⟩
  have small := sound.small path file held
  have stored := sound.stored path file summed held
  obtain ⟨check, checked, verifies⟩ := checksumCheck_verifies damaged path (sized ▸ small) positive
    (sized ▸ inside) (fun k there => ⟨_, stored k (sized ▸ there)⟩) enough
  have seen : ∀ k, Touches offset count k →
      (Current path damaged after.db k ↔ Unseen (paddedBlock file k) (paddedBlock damaged k)) := by
    intro k touched
    exact current_iff_unseen (stored k (by have := touched.2; change 2048 * k < file.length; omega))
  have codes : (check.code = some 0 ∧ ∀ k, Touches offset count k → Current path damaged after.db k) ∨
      (check.code = some (-1) ∧ ∃ k, Touches offset count k ∧ ¬ Current path damaged after.db k) := by
    rcases verifies.result with ⟨passed, current⟩ | ⟨failed, stale⟩
    · exact .inl ⟨by simp only [Check.code, passed], current⟩
    · exact .inr ⟨by simp only [Check.code, failed], stale⟩
  refine ⟨check, checked, codes.imp And.left And.left, ?_, fun k i j touched ordered bound near places differ => ?_⟩
  · rcases codes with ⟨zero, current⟩ | ⟨minus, k, touched, stale⟩
    · exact ⟨fun _ k touched => (seen k touched).mp (current k touched), fun _ => zero⟩
    · refine ⟨fun zero => ?_, fun unseen => absurd ((seen k touched).mpr (unseen k touched)) stale⟩
      rw [minus] at zero
      exact absurd (Option.some.inj zero) (by decide)
  · rcases codes with ⟨-, current⟩ | ⟨minus, -⟩
    · refine absurd (ext_getD ?_ fun position inside => ?_) differ
      · rw [paddedBlock_length, paddedBlock_length]
      · have unseen := (seen k touched).mp (current k touched)
        rw [paddedBlock_length] at inside
        exact (unseen.same places ordered (by rwa [paddedBlock_length]) near (by rwa [paddedBlock_length])).symm
    · exact minus

/-- A new file that is written once. -/
def writtenOnce : List Call := [.mknod [47, 97] 33188 0, .write [47, 97] 0 [1, 2, 3]]

theorem damage_found_written :
    ∃ after check, CheckedFiles.replay writtenOnce ⟨fun _ => none, fun _ => none⟩ = some after ∧
      checksumCheck 1 [1, 7, 3] [47, 97] (pread [1, 7, 3] 0 3) 0 after.db = some check ∧ check.code = some (-1) := by
  have fit : AllFit writtenOnce fun _ => none := by
    simp [writtenOnce, AllFit, Call.Changes, Call.change?, Files.after, Change.Below]
  obtain ⟨after, ran, files, reads⟩ := damage_found (fun _ => none) writtenOnce fit
  have held : after.files [47, 97] = some [1, 2, 3] := by
    rw [files]
    decide +kernel
  obtain ⟨check, checked, -, -, found⟩ := reads [47, 97] [1, 2, 3] [1, 7, 3] 0 3 1 (.inl rfl) held rfl (by decide)
    (by decide) (by decide)
  refine ⟨after, check, ran, checked, found 0 1 1 ⟨by decide, by decide⟩ le_rfl (by decide) (by decide) ?_ ?_⟩
  · intro k inside apart _
    rw [paddedBlock_length] at inside
    rw [paddedBlock_getD _ inside, paddedBlock_getD _ inside]
    rcases k with _ | _ | _ | k
    · rfl
    · exact absurd rfl apart
    · rfl
    · simp
  · intro same
    have octet := congrArg (fun block : Bytes => block.getD 1 0) same
    simp only [paddedBlock_getD _ (show 1 < 2048 by decide)] at octet
    exact absurd octet (by decide)

/-- Behind a rename no sum is found, and the read is one of a null pointer. -/
example : ((CheckedFiles.replay (writtenOnce ++ [.rename [47, 97] [47, 98]]) ⟨fun _ => none, fun _ => none⟩).bind
    fun after => (checksumCheck 1 [1, 2, 3] [47, 98] [1, 2, 3] 0 after.db).map (·.result)) = some (.error .missing) := by
  decide +kernel

end DeltaCFS
