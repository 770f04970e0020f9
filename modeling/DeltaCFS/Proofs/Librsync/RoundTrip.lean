import DeltaCFS.Proofs.Librsync.AnyDelta
import DeltaCFS.Proofs.Librsync.Pipeline

/-! # The round trip

What the delta of `compute_delta` says is told by its commands, and what these rebuild by the searches of the
delta job. So the patch job gives the new file back exactly if none of the searches has a false hit.
-/

namespace DeltaCFS

open Bytes Job Command

variable {old new before content : Bytes} {commands left : List Command}

/-! ## What the commands of a delta say -/

namespace Command

def param1 : Command → ℕ
  | literal data => data.length
  | copy position _ => position

def param2 : Command → ℕ
  | literal _ => 0
  | copy _ len => len

/-- The parameters are read as they were written. -/
theorem interpretCommands_encoded (command : Command) (small : command.param1 < 2 ^ 63) (small' : command.param2 < 2 ^ 63) :
    interpretCommands old before (deltaTail (command :: left)) =
      interpretCommand old command.entry.kind command.param1 command.param2 before (command.payload ++ deltaTail left) := by
  have number (value : ℕ) (small : value < 2 ^ 63) (behind : Bytes) :
      ofNetint ((netint (rsIntLen value) value ++ behind).take (rsIntLen value)) = value := by
    rw [List.take_left' (netint_length _ _), ofNetint_netint, Nat.mod_eq_of_lt (lt_rsIntLen _ (by omega))]
  have some_ (value : ℕ) : rsIntLen value ≠ 0 := by
    rw [rsIntLen_eq]
    positivity
  have there : ¬ (command.params ++ (command.payload ++ deltaTail left)).length < command.entry.len1 + command.entry.len2 := by
    rw [List.length_append, command.params_length]
    omega
  rw [deltaTail_cons, netint_one _ command.op_lt, List.singleton_append, interpretCommands_cons, rsPrototab_octet,
    interpretParams, if_neg there, ← command.params_length, List.drop_left]
  cases command with
  | literal data =>
    simp only [entry, params, param1, if_neg (some_ data.length), number data.length small]
    exact interpretCommand_of_not_copy _ _ _ OpKind.noConfusion
  | copy position len =>
    simp only [entry, params, param1, param2, if_neg (some_ position), List.append_assoc, number position small,
      List.drop_left' (netint_length _ _), number len small']

theorem interpretCommands_literal {data : Bytes} (short : data.length ≤ bufLen) :
    interpretCommands old before (deltaTail (.literal data :: left)) =
      interpretCommands old (before ++ data) (deltaTail left) := by
  have known : data.length < 2 ^ 31 := short.trans_lt (by decide)
  have said := @interpretCommands_encoded old before left (.literal data) (show data.length < 2 ^ 63 by omega)
    (show 0 < 2 ^ 63 by decide)
  change _ = interpretCommand old .literal data.length 0 before (data ++ deltaTail left) at said
  rw [said]
  simp only [interpretCommand]
  rw [if_neg (show ¬ 2 ^ 63 ≤ data.length by omega), Nat.mod_eq_of_lt (show data.length < 2 ^ 32 by omega),
    if_neg (Nat.not_le.mpr known), List.take_left, List.drop_left]

theorem interpretCommands_copy {position len : ℕ} (small : position + len < 2 ^ 63) :
    interpretCommands old before (deltaTail (.copy position len :: left)) =
      interpretCopy old position len before (deltaTail left) := by
  have said := @interpretCommands_encoded old before left (.copy position len) (show position < 2 ^ 63 by omega)
    (show len < 2 ^ 63 by omega)
  change _ = interpretCommand old .copy position len before (deltaTail left) at said
  rw [said]
  simp only [interpretCommand]
  rw [if_neg (show ¬ (2 ^ 63 ≤ len ∨ 2 ^ 63 ≤ position) by omega)]

end Command

/-- A delta with these commands is applied with success exactly if its copies fit the old file. -/
theorem interpretCommands_deltaTail {limit : ℕ} (formed : ∀ command ∈ commands, command.WellFormed)
    (within : ∀ command ∈ commands, command.Within limit) (small : limit < 2 ^ 63) :
    interpretCommands old before (deltaTail commands) = .ends .done content ↔
      (∀ command ∈ commands, command.Fits old) ∧ content = before ++ Command.applyAll old commands := by
  induction commands generalizing before with
  | nil =>
    have said : interpretCommands old before (deltaTail []) = .ends .done before := by
      simp [deltaTail, interpretCommands, rsPrototab]
    simp [said, eq_comm]
  | cons command left ih =>
    obtain ⟨shape, shapes⟩ := List.forall_mem_cons.mp formed
    obtain ⟨inside, insides⟩ := List.forall_mem_cons.mp within
    have rest : Command.applyAll old (command :: left) = command.apply old ++ Command.applyAll old left := List.flatMap_cons
    rw [List.forall_mem_cons, rest, ← List.append_assoc]
    cases command with
    | literal data =>
      obtain ⟨-, short⟩ : data ≠ [] ∧ data.length ≤ bufLen := shape
      rw [interpretCommands_literal short, ih shapes insides]
      simp [Fits, Command.Within, Command.apply]
    | copy position len =>
      have positive : 0 < len := shape
      have bounded : position + len ≤ limit := inside
      rw [interpretCommands_copy (bounded.trans_lt small), interpretCopy, if_neg positive.ne']
      have fits : (Command.copy position len).Fits old ↔ ¬ (pread old position len).length < len := by
        rw [pread_length, Fits, Command.Within]
        omega
      split_ifs with cut
      · simp [fits, cut]
      · rw [ih shapes insides]
        simp [fits, cut, Command.apply]

theorem interpretDelta_deltaTail (old : Bytes) (commands : List Command) :
    interpretDelta old (netint 4 deltaMagic ++ deltaTail commands) = interpretCommands old [] (deltaTail commands) := by
  have magic : ofNetint (netint 4 deltaMagic) = deltaMagic := by decide
  have there : ¬ (netint 4 deltaMagic ++ deltaTail commands).length < 4 := by simp
  rw [interpretDelta, if_neg there, List.take_left' (netint_length _ _), List.drop_left' (netint_length _ _), magic,
    if_neg (not_not.mpr rfl)]

/-! ## The delta of two files -/

/-- Fuel for the patch job. -/
def patchFuel (delta new : Bytes) : ℕ := 7 * delta.length + 2 * new.length + 4

/-- The pipeline of `compute_delta` yields a delta that the patch job turns back into the new file. -/
def RoundTrips (qsort : Qsort) (sigStack searchStack : Stack) (old new : Bytes) : Prop :=
  ∀ fuel, pipelineFuel old new ≤ fuel →
    ∃ delta, deltaPipeline qsort sigStack searchStack fuel old new = .ok (some delta) ∧
      ∀ fuel', patchFuel delta new ≤ fuel' → rsPatchFile fuel' old delta = .ok (.done, new)

variable {qsort : Qsort} {sigStack searchStack : Stack}

/-- A match is where a block of the old file begins. -/
theorem jobSearch_lt {state : ℕ × ℕ} {window : Bytes} {matchPos : ℕ} (short : window.length ≤ defaultBlockLen)
    (found : (jobSearch (deltaEnv qsort sigStack searchStack old) state window).1 = some matchPos) :
    matchPos < old.length := by
  obtain ⟨k, bound, rfl, -⟩ := (rsSearchForBlock_eq_some_iff short).mp found
  have known := (mem_candidates.mp (getD_mem bound)).1
  simp only [blockCount, defaultBlockLen] at known ⊢
  omega

/-- The commands rebuild the new file exactly if no search has a false hit. -/
theorem deltaCommands_rebuild :
    Rebuilds old (deltaCommands (deltaEnv qsort sigStack searchStack old) new) new ↔
      NoFalseHits qsort sigStack searchStack old new := by
  have rebuilds := @greedyFrom_rebuilds _ old [] (.missed []) (jobSearch (deltaEnv qsort sigStack searchStack old))
    (0, old.length) new rfl
  rw [List.nil_append] at rebuilds
  refine rebuilds.trans ((and_iff_right (Held.rebuilds_missed.mpr rfl)).trans (forall₂_congr fun place member => ?_))
  exact (confirmed_iff (scanned_window _ _ _ place member).1).symm

theorem length_lt_of_few (few : blockCount old < 2 ^ 31) : old.length + defaultBlockLen < 2 ^ 63 := by
  simp only [blockCount, defaultBlockLen] at few ⊢
  omega

/-- The delta says the new file exactly if no search has a false hit. -/
theorem interpretDelta_deltaOctets (few : blockCount old < 2 ^ 31) :
    interpretDelta old (deltaOctets (deltaEnv qsort sigStack searchStack old) new) = .ends .done new ↔
      NoFalseHits qsort sigStack searchStack old new := by
  have within : ∀ command ∈ deltaCommands (deltaEnv qsort sigStack searchStack old) new,
      command.Within (old.length + defaultBlockLen) :=
    greedyFrom_within (fun place member _ => jobSearch_lt (scanned_window _ _ _ place member).1) trivial
  rw [deltaOctets, ← deltaTail, interpretDelta_deltaTail,
    interpretCommands_deltaTail (deltaCommands_formed _ _) within (length_lt_of_few few), List.nil_append,
    ← deltaCommands_rebuild, Rebuilds, eq_comm (a := new)]

/-- The pipeline and the patch job compose to the identity exactly if the blocks of the old file can be
counted and no search of the delta job has a false hit. -/
theorem round_trips_iff (qsort : Qsort) (sigStack searchStack : Stack) (old new : Bytes) :
    RoundTrips qsort sigStack searchStack old new ↔
      blockCount old < 2 ^ 31 ∧ NoFalseHits qsort sigStack searchStack old new := by
  constructor
  · intro trips
    obtain ⟨delta, computed, patched⟩ := trips _ le_rfl
    rcases deltaPipeline_ends qsort sigStack searchStack old new le_rfl with ⟨few, value⟩ | ⟨-, value⟩
    · obtain rfl := Option.some.inj (Except.ok.inj (computed.symm.trans value))
      exact ⟨few, (interpretDelta_deltaOctets few).mp (rsPatchFile_done_iff.mp ⟨_, patched _ le_rfl⟩)⟩
    · cases computed.symm.trans value
  · rintro ⟨few, right⟩ fuel enough
    refine ⟨_, deltaPipeline_done qsort sigStack searchStack new few enough, fun fuel' enough' => ?_⟩
    obtain ⟨fits, content⟩ := deltaCommands_rebuild.mpr right
    have applicable : Applicable old (deltaCommands (deltaEnv qsort sigStack searchStack old) new) :=
      ⟨deltaCommands_formed _ _, fits, (Nat.le_add_right _ _).trans_lt (length_lt_of_few few)⟩
    have patched := @rsPatchFile_done _ _ applicable fuel' (by
      rw [content]
      simp only [patchFuel, deltaOctets, deltaTail] at enough' ⊢
      omega)
    rw [content] at patched
    exact patched

/-- The only block is shorter than the window and found all the same, and the copy ends behind the old file. -/
theorem short_block_hit_breaks_round_trip :
    ¬ ∃ qsort : Qsort, RoundTrips qsort (fun _ _ => 0) collidingStack [0, 2, 0] collidingNew := by
  rintro ⟨qsort, trips⟩
  obtain ⟨delta, computed, patched⟩ := trips _ le_rfl
  obtain rfl := deltaPipeline_eq_some le_rfl computed
  rw [deltaEnv_single rfl .stable] at patched
  have copies : deltaOctets (deltaEnv .stable (fun _ _ => 0) collidingStack [0, 2, 0]) collidingNew =
      [0x72, 0x73, 2, 0x36, 0x46, 0, 8, 0, 0] := by
    obtain ⟨_, computed, rfl⟩ : ∃ delta, deltaPipeline .stable (fun _ _ => 0) collidingStack
        (pipelineFuel [0, 2, 0] collidingNew) [0, 2, 0] collidingNew = .ok delta ∧
        delta = some [0x72, 0x73, 2, 0x36, 0x46, 0, 8, 0, 0] := Except.exists_ok (by decide +kernel)
    exact (deltaPipeline_eq_some le_rfl computed).symm
  have fails : (rsPatchFile (patchFuel [0x72, 0x73, 2, 0x36, 0x46, 0, 8, 0, 0] collidingNew) [0, 2, 0]
      [0x72, 0x73, 2, 0x36, 0x46, 0, 8, 0, 0]).toOption = some (.inputEnded, []) := by
    decide +kernel
  rw [copies] at patched
  rw [patched _ le_rfl] at fails
  cases fails

end DeltaCFS
