import DeltaCFS.Model.Librsync.Patch
import DeltaCFS.Proofs.Librsync.Command

/-! # The patch job

Applied to well-formed commands whose copies stay within the old file, the patch job writes what the
commands stand for.
-/

namespace DeltaCFS

open Bytes Job Command

namespace Command

def op : Command → ℕ
  | literal data => 0x41 + width data.length
  | copy position len => 0x45 + 4 * width position + width len

def params : Command → Bytes
  | literal data => netint (rsIntLen data.length) data.length
  | copy position len => netint (rsIntLen position) position ++ netint (rsIntLen len) len

def payload : Command → Bytes
  | literal data => data
  | copy _ _ => []

theorem op_lt (command : Command) : command.op < 256 := by
  cases command with
  | literal data =>
    have := width_lt data.length
    simp only [op]
    omega
  | copy position len =>
    have := width_lt position
    have := width_lt len
    simp only [op]
    omega

theorem netint_one (value : ℕ) (small : value < 256) : netint 1 value = [UInt8.ofNat value] := by
  simp [netint, ofNatLE, List.range_succ, Nat.mod_eq_of_lt small]

theorem encode_eq (command : Command) :
    command.encode = netint 1 command.op ++ (command.params ++ command.payload) := by
  rw [netint_one _ command.op_lt]
  cases command with
  | literal data => rfl
  | copy position len => simp [encode, copyHeader, op, params, payload]

/-- The entry of the command table for a command. -/
def entry : Command → PrototabEnt
  | literal data => ⟨.literal, 0, rsIntLen data.length, 0⟩
  | copy position len => ⟨.copy, 0, rsIntLen position, rsIntLen len⟩

private theorem rsPrototab_literal (w : ℕ) (small : w < 4) : rsPrototab (0x41 + w) = ⟨.literal, 0, 2 ^ w, 0⟩ := by
  interval_cases w <;> rfl

private theorem rsPrototab_copy (w w' : ℕ) (small : w < 4) (small' : w' < 4) :
    rsPrototab (0x45 + 4 * w + w') = ⟨.copy, 0, 2 ^ w, 2 ^ w'⟩ := by
  interval_cases w <;> interval_cases w' <;> rfl

theorem rsPrototab_op (command : Command) : rsPrototab command.op = command.entry := by
  cases command with
  | literal data => rw [op, rsPrototab_literal _ (width_lt _), entry, rsIntLen_eq]
  | copy position len =>
    rw [op, rsPrototab_copy _ _ (width_lt _) (width_lt _), entry, rsIntLen_eq, rsIntLen_eq]

/-- The parameters of a command are loaded. -/
def Loaded (own : PatchJob) : Command → Prop
  | literal data => own.param1 = data.length
  | copy position len => own.param1 = position ∧ own.param2 = len

end Command

/-- The rest of a delta from a command on. -/
def deltaTail (commands : List Command) : Bytes := encodeAll commands ++ [0]

/-- Commands that can be applied to a file. -/
structure Applicable (old : Bytes) (commands : List Command) : Prop where
  formed : ∀ command ∈ commands, command.WellFormed
  fits : ∀ command ∈ commands, command.Fits old
  small : old.length < 2 ^ 63

/-- The invariant of the patch job. -/
def PatchInv (old : Bytes) (commands : List Command) (own : PatchJob) (_ : Bool) (emitted pending : Bytes) : Prop :=
  match own.statefn with
  | .header => emitted = [] ∧ pending = netint 4 deltaMagic ++ deltaTail commands
  | .cmdbyte => ∃ applied left, commands = applied ++ left ∧ emitted = applyAll old applied ∧
      pending = deltaTail left
  | .params => ∃ applied command left, commands = applied ++ command :: left ∧ emitted = applyAll old applied ∧
      own.op = command.op ∧ pending = command.params ++ (command.payload ++ deltaTail left)
  | .run => (own.op = 0 ∧ emitted = applyAll old commands ∧ pending = []) ∨
      ∃ applied command left, commands = applied ++ command :: left ∧ emitted = applyAll old applied ∧
        own.op = command.op ∧ command.Loaded own ∧ pending = command.payload ++ deltaTail left
  | .literal => ∃ applied data left, commands = applied ++ .literal data :: left ∧ emitted = applyAll old applied ∧
      own.param1 = data.length ∧ pending = data ++ deltaTail left
  | .copy => ∃ applied position len left, commands = applied ++ .copy position len :: left ∧
      emitted = applyAll old applied ∧ own.param1 = position ∧ own.param2 = len ∧ pending = deltaTail left
  | .copying => ∃ applied position len left copied, commands = applied ++ .copy position len :: left ∧
      copied < len ∧ own.basisPos = position + copied ∧ own.basisLen = len - copied ∧
      emitted = applyAll old applied ++ pread old position copied ∧ pending = deltaTail left

def patchPhase : PatchState → ℕ
  | .header => 0
  | .cmdbyte => 0
  | .params => 4
  | .run => 3
  | .literal => 2
  | .copy => 2
  | .copying => 1

/-- Octets to emit count twice, since each copy asks for a further call. -/
def patchPotential (size : ℕ) (own : PatchJob) (emitted pending : Bytes) : ℕ :=
  2 * (size - emitted.length) + 5 * pending.length + patchPhase own.statefn

/-- What a call of a state function of the patch job establishes. -/
def PatchStep (old : Bytes) (commands : List Command) (out rest : Bytes) (job : Job PatchJob)
    (statefn : Job PatchJob → Except Abort (Result × Job PatchJob)) : Prop :=
  ∃ result next, statefn job = .ok (result, next) ∧ job.Extends next rest ∧
    job.Outcome (PatchInv old commands) (fun _ emitted => emitted = applyAll old commands) (fun _ => False)
      (patchPotential (applyAll old commands).length) true next out rest result

variable {old out rest : Bytes} {commands : List Command} {job : Job PatchJob}

theorem deltaTail_cons (command : Command) (left : List Command) :
    deltaTail (command :: left) =
      netint 1 command.op ++ (command.params ++ (command.payload ++ deltaTail left)) := by
  rw [deltaTail, encodeAll, List.flatMap_cons, encode_eq]
  simp only [List.append_assoc]
  rfl

theorem rsPatchSHeader_spec (sound : job.Sound rest) (idle : job.Idle) (state : job.own.statefn = .header)
    (inv : PatchInv old commands job.own job.eofIn (job.emitted out rest) (job.pending rest)) :
    PatchStep old commands out rest job rsPatchSHeader := by
  have fields := inv
  rw [PatchInv, state] at fields
  apply Job.step_of_suck { job.own with statefn := .cmdbyte } sound idle inv fields.2 (by decide)
  · intro next read
    simp [rsPatchSHeader, read, bind, Except.bind, pure, Except.pure]
  · intro next same read
    simp [rsPatchSHeader, read, bind, Except.bind, pure, Except.pure, same]
  · exact ⟨[], commands, rfl, fields.1, rfl⟩
  · simp only [patchPotential, state, patchPhase, List.length_append, netint_length]
    omega

theorem rsPatchSCmdbyte_spec (sound : job.Sound rest) (idle : job.Idle) (state : job.own.statefn = .cmdbyte)
    (inv : PatchInv old commands job.own job.eofIn (job.emitted out rest) (job.pending rest)) :
    PatchStep old commands out rest job rsPatchSCmdbyte := by
  have fields := inv
  rw [PatchInv, state] at fields
  obtain ⟨applied, left, split, emits, pends⟩ := fields
  cases left with
  | nil =>
    rw [List.append_nil] at split
    have ending : job.pending rest = netint 1 0 ++ [] := pends
    apply Job.step_of_suck { job.own with op := 0, param1 := 0, statefn := .run } sound idle inv ending (by decide)
    · intro next read
      simp [rsPatchSCmdbyte, read, bind, Except.bind, pure, Except.pure]
    · intro next same read
      simp [rsPatchSCmdbyte, read, bind, Except.bind, pure, Except.pure, same, rsPrototab]
    · exact .inl ⟨rfl, by rw [emits, split], rfl⟩
    · simp only [patchPotential, state, patchPhase, List.length_append, netint_length]
      omega
  | cons command left =>
    rw [deltaTail_cons] at pends
    have params : command.entry.len1 ≠ 0 := by
      cases command <;> simp [entry, rsIntLen_eq]
    apply Job.step_of_suck { job.own with op := command.op, statefn := .params } sound idle inv pends
      (by simpa using command.op_lt)
    · intro next read
      simp [rsPatchSCmdbyte, read, bind, Except.bind, pure, Except.pure]
    · intro next same read
      simp [rsPatchSCmdbyte, read, bind, Except.bind, pure, Except.pure, same, rsPrototab_op, params]
    · exact ⟨applied, command, left, split, emits, rfl, rfl⟩
    · simp only [patchPotential, state, patchPhase, List.length_append, netint_length]
      omega

private theorem rsSuckNetint_done {width value : ℕ} {behind : Bytes} (job : Job PatchJob) (idle : job.Idle)
    (pends : job.pending rest = netint width value ++ behind) (small : value < 256 ^ width)
    (there : width ≤ job.scoop.length + job.nextIn.length) :
    ∃ next, rsSuckNetint width job = .ok (.done, value, next) ∧ job.Takes next width rest := by
  obtain ⟨next, read, takes⟩ := rsScoopRead_done rest width job there
  refine ⟨next, ?_, takes⟩
  have input_eq : job.input rest = netint width value ++ behind := by
    rw [← pends, pending, idle.2, List.drop_zero]
  rw [input_eq, List.take_left' (netint_length _ _)] at read
  simp only [rsSuckNetint, read, bind, Except.bind, pure, Except.pure, ofNetint_netint, Nat.mod_eq_of_lt small]

theorem Command.small_of_applicable (applicable : Applicable old commands) {applied left : List Command}
    {position len : ℕ} (split : commands = applied ++ .copy position len :: left) :
    0 < len ∧ position + len ≤ old.length ∧ position < 2 ^ 63 ∧ len < 2 ^ 63 := by
  have mem : Command.copy position len ∈ commands := by simp [split]
  have positive : 0 < len := applicable.formed _ mem
  have inside : position + len ≤ old.length := applicable.fits (.copy position len) mem
  have small := applicable.small
  omega

/-- A value below `2 ^ 64` is encoded in full. -/
theorem lt_rsIntLen (value : ℕ) (small : value < 2 ^ 64) : value < 256 ^ rsIntLen value := by
  rw [rsIntLen]
  split_ifs <;> omega

/-- The tail of the strings seen by `rs_patch_s_params` after its look-ahead. -/
private theorem takes_there {σ : Type} {job next : Job σ} {len more : ℕ} (takes : job.Takes next len rest)
    (there : len + more ≤ job.scoop.length + job.nextIn.length) :
    more ≤ next.scoop.length + next.nextIn.length := by
  have size := congrArg List.length takes.input
  simp only [input, List.length_append, List.length_drop] at size
  omega

theorem Job.Takes.toMoves {σ : Type} {job next : Job σ} {len : ℕ} (takes : job.Takes next len rest)
    (sound : job.Sound rest) (idle : job.Idle) : job.Moves next rest [] len := by
  refine ⟨takes.toExtends sound idle, fun out => ?_, takes.pending idle, ?_⟩
  · rw [takes.emitted idle, List.append_nil]
  · rw [idle_iff_tube.mp (takes.idle idle), idle_iff_tube.mp idle, takes.availOut]
    rfl

/-- The step to a state that has moved in the input without emitting. -/
private theorem patchStep_of_moves {statefn : Job PatchJob → Except Abort (Result × Job PatchJob)}
    {next : Job PatchJob} {len : ℕ} (moves : job.Moves next rest [] len)
    (value : statefn job = .ok (.running, next))
    (inv : PatchInv old commands next.own next.eofIn (job.emitted out rest) ((job.pending rest).drop len))
    (phase : patchPhase next.own.statefn + 1 ≤ patchPhase job.own.statefn) :
    PatchStep old commands out rest job statefn := by
  refine ⟨.running, next, value, moves.toExtends, .running ?_ ?_⟩
  · rw [moves.emitted, moves.pending, List.append_nil]
    exact inv
  · apply moves.pays
    simp only [patchPotential, List.append_nil, List.length_drop, List.length_nil]
    omega

theorem rsPatchSParams_spec (applicable : Applicable old commands) (sound : job.Sound rest) (idle : job.Idle)
    (state : job.own.statefn = .params)
    (inv : PatchInv old commands job.own job.eofIn (job.emitted out rest) (job.pending rest)) :
    PatchStep old commands out rest job rsPatchSParams := by
  have fields := inv
  rw [PatchInv, state] at fields
  obtain ⟨applied, command, left, split, emits, op, pends⟩ := fields
  have mem : command ∈ commands := by simp [split]
  have entry := rsPrototab_op command
  rw [← op] at entry
  have positive : ∀ value, rsIntLen value ≠ 0 := fun value => by
    rw [rsIntLen_eq]
    positivity
  have total : command.params.length = command.entry.len1 + command.entry.len2 := by
    cases command <;> simp [params, Command.entry]
  have known : command.entry.len1 + command.entry.len2 ≤ (job.input rest).length := by
    have input_eq : job.input rest = job.pending rest := by rw [pending, idle.2, List.drop_zero]
    rw [input_eq, pends, List.length_append, total]
    omega
  have some_ : ¬ command.entry.len1 + command.entry.len2 = 0 := by
    cases command <;> simp [Command.entry, positive]
  rcases rsScoopReadahead_known sound known with ⟨octets, ahead, looked, takes, there⟩ |
    ⟨ahead, looked, takes, starved, unread⟩
  · have moves := takes.toMoves sound idle
    have idle' := takes.idle idle
    have ahead_pends : ahead.pending rest = job.pending rest := by rw [moves.pending, List.drop_zero]
    rw [pends] at ahead_pends
    cases command with
    | literal data =>
      have size : data.length ≤ bufLen := (applicable.formed _ mem).2
      obtain ⟨next, read, took⟩ := rsSuckNetint_done ahead idle' (ahead_pends.trans rfl)
        (lt_rsIntLen _ (by simp only [bufLen] at size; omega)) (by simpa [Command.entry] using there)
      have moved := (moves.trans (took.toMoves moves.sound idle')).setOwn
        { job.own with param1 := data.length, statefn := .run }
      refine patchStep_of_moves moved ?_ (.inr ⟨applied, _, left, split, emits, op, rfl, ?_⟩) (by simp [state, patchPhase])
      · simp only [Command.entry, Nat.add_zero] at looked entry some_
        simp [rsPatchSParams, entry, positive, looked, read, bind, Except.bind, pure, Except.pure, took.own, takes.own]
      · rw [pends, Nat.zero_add, params, List.drop_left' (netint_length _ _)]
    | copy position len =>
      obtain ⟨-, -, positionSmall, lenSmall⟩ := Command.small_of_applicable applicable split
      have first : ahead.pending rest = netint (rsIntLen position) position ++
          (netint (rsIntLen len) len ++ deltaTail left) := by
        rw [ahead_pends, params, List.append_assoc]
        rfl
      simp only [Command.entry] at there
      obtain ⟨next, read, took⟩ := rsSuckNetint_done ahead idle' first (lt_rsIntLen _ (by omega)) (by omega)
      have idle'' := took.idle idle'
      have moves' := moves.trans (took.toMoves moves.sound idle')
      have owned := Moves.of_own moves'.sound { next.own with param1 := position }
      have second : next.pending rest = netint (rsIntLen len) len ++ deltaTail left := by
        rw [took.pending idle', first, List.drop_left' (netint_length _ _)]
      have more := takes_there took there
      obtain ⟨final, read', took'⟩ := rsSuckNetint_done { next with own := { next.own with param1 := position } }
        idle'' second (lt_rsIntLen _ (by omega)) more
      have moved := (moves'.trans (owned.trans (took'.toMoves owned.sound idle''))).setOwn
        { job.own with param1 := position, param2 := len, statefn := .run }
      refine patchStep_of_moves moved ?_ (.inr ⟨applied, _, left, split, emits, op, ⟨rfl, rfl⟩, ?_⟩)
        (by simp [state, patchPhase])
      · simp only [Command.entry] at looked entry some_
        simp only [took.own, takes.own] at read'
        simp [rsPatchSParams, entry, positive, looked, read, read', bind, Except.bind, pure, Except.pure, took'.own,
          took.own, takes.own]
      · rw [pends, Nat.zero_add, Nat.zero_add, params, payload, List.nil_append, List.drop_left' (by simp)]
  · have value : rsPatchSParams job = .ok (.blocked, ahead) := by
      simp only [rsPatchSParams, entry, if_neg some_, looked, bind, Except.bind]
      rfl
    refine ⟨.blocked, ahead, value, takes.toExtends sound idle, .blocked ?_ ?_ (.inr ⟨starved, unread⟩)⟩
    · rw [takes.own, takes.emitted idle, takes.pending idle, List.drop_zero]
      exact inv
    · simp only [Pays, takes.own, takes.emitted idle, takes.pending idle, List.drop_zero, takes.availOut,
        idle_iff_tube.mp (takes.idle idle), idle_iff_tube.mp idle, Nat.add_zero, le_refl]

theorem rsPatchSRun_spec (sound : job.Sound rest) (idle : job.Idle) (state : job.own.statefn = .run)
    (inv : PatchInv old commands job.own job.eofIn (job.emitted out rest) (job.pending rest)) :
    PatchStep old commands out rest job rsPatchSRun := by
  rw [PatchInv, state] at inv
  rcases inv with ⟨op, emits, nothing⟩ | ⟨applied, command, left, split, emits, op, loaded, pends⟩
  · have empty := nothing
    simp only [pending, idle.2, List.drop_zero, input, List.append_eq_nil_iff] at empty
    refine ⟨.done, job, by simp [rsPatchSRun, op, rsPrototab], .refl sound, .done emits nothing empty.2.1 (by omega)⟩
  · have entry := rsPrototab_op command
    rw [← op] at entry
    cases command with
    | literal data =>
      refine patchStep_of_moves (Moves.of_own sound { job.own with statefn := .literal }) ?_
        ⟨applied, data, left, split, emits, loaded, pends⟩ (by simp [state, patchPhase])
      simp [rsPatchSRun, entry, Command.entry]
    | copy position len =>
      refine patchStep_of_moves (Moves.of_own sound { job.own with statefn := .copy }) ?_
        ⟨applied, position, len, left, split, emits, loaded.1, loaded.2, pends⟩ (by simp [state, patchPhase])
      simp [rsPatchSRun, entry, Command.entry]

theorem rsPatchSCopy_spec (applicable : Applicable old commands) (sound : job.Sound rest)
    (state : job.own.statefn = .copy)
    (inv : PatchInv old commands job.own job.eofIn (job.emitted out rest) (job.pending rest)) :
    PatchStep old commands out rest job rsPatchSCopy := by
  rw [PatchInv, state] at inv
  obtain ⟨applied, position, len, left, split, emits, param1, param2, pends⟩ := inv
  obtain ⟨positive, -, positionSmall, lenSmall⟩ := Command.small_of_applicable applicable split
  refine patchStep_of_moves
    (Moves.of_own sound { job.own with basisPos := position, basisLen := len, statefn := .copying }) ?_
    ⟨applied, position, len, left, 0, split, positive, rfl, rfl, ?_, pends⟩ (by simp [state, patchPhase])
  · rw [rsPatchSCopy, param1, param2, if_neg (by omega), if_neg (by omega)]
  · rw [emits, pread, List.take_zero, List.append_nil]

/-- What is applied so far and the next command do not exceed the whole. -/
theorem applyAll_length_le (old : Bytes) {applied left : List Command} {command : Command}
    (split : commands = applied ++ command :: left) :
    (applyAll old applied).length + (command.apply old).length ≤ (applyAll old commands).length := by
  rw [split, applyAll_append, List.length_append, applyAll, applyAll, List.flatMap_cons, List.length_append]
  omega

theorem applyAll_snoc (old : Bytes) (applied : List Command) (command : Command) :
    applyAll old (applied ++ [command]) = applyAll old applied ++ command.apply old := by
  rw [applyAll_append, applyAll_singleton]

theorem rsPatchSLiteral_spec (applicable : Applicable old commands) (sound : job.Sound rest) (idle : job.Idle)
    (state : job.own.statefn = .literal)
    (inv : PatchInv old commands job.own job.eofIn (job.emitted out rest) (job.pending rest)) :
    PatchStep old commands out rest job rsPatchSLiteral := by
  rw [PatchInv, state] at inv
  obtain ⟨applied, data, left, split, emits, param1, pends⟩ := inv
  have formed : data ≠ [] ∧ data.length ≤ bufLen := applicable.formed (.literal data) (by simp [split])
  have size := formed.2
  simp only [bufLen] at size
  have input_eq : job.input rest = data ++ deltaTail left := by
    rw [← pends, pending, idle.2, List.drop_zero]
  have queued : job.Moves { job with copyLen := data.length, own := { job.own with statefn := .cmdbyte } } rest
      data data.length := by
    refine ⟨⟨⟨?_, sound.ended, sound.detached, sound.room⟩, rfl, rfl, rfl, le_rfl, le_rfl⟩, fun out => ?_, ?_, ?_⟩
    · change data.length ≤ (job.input rest).length
      rw [input_eq, List.length_append]
      omega
    · have copied : (job.input rest).take data.length = data := by rw [input_eq, List.take_left]
      simp only [emitted, idle.1, idle.2, List.take_zero, List.append_nil, List.nil_append, List.append_assoc]
      exact congrArg (fun octets => out ++ (job.written ++ octets)) copied
    · rw [pending, pending, idle.2, List.drop_zero]
      rfl
    · simp [tube, idle.1, idle.2]
  refine ⟨.running, _, ?_, queued.toExtends, .running ⟨applied ++ [.literal data], left, ?_, ?_, ?_⟩ ?_⟩
  · simp only [rsPatchSLiteral, param1, rsTubeCopy, Nat.mod_eq_of_lt (show data.length < 2 ^ 32 by omega), idle.2,
      show data.length < 2 ^ 31 by omega, and_self, ↓reduceIte, bind, Except.bind, pure, Except.pure]
    rw [if_neg (by omega)]
  · rw [split, List.append_assoc]
    rfl
  · rw [queued.emitted, emits, applyAll_snoc]
    rfl
  · rw [queued.pending, pends, List.drop_left]
  · have whole : (applyAll old applied).length + data.length ≤ _ := applyAll_length_le old split
    apply queued.pays
    simp only [patchPotential, emits, pends, state, patchPhase, List.length_append, List.drop_left]
    omega

theorem rsPatchSCopying_spec (applicable : Applicable old commands) (sound : job.Sound rest) (idle : job.Idle)
    (state : job.own.statefn = .copying)
    (inv : PatchInv old commands job.own job.eofIn (job.emitted out rest) (job.pending rest)) :
    PatchStep old commands out rest job (rsPatchSCopying old) := by
  have fields := inv
  rw [PatchInv, state] at fields
  obtain ⟨applied, position, len, left, copied, split, more, basisPos, basisLen, emits, pends⟩ := fields
  obtain ⟨positive, inside, -, -⟩ := Command.small_of_applicable applicable split
  by_cases full : job.availOut = 0
  · refine ⟨.blocked, job, ?_, .refl sound, .blocked inv ?_ (.inl ⟨rfl, full⟩)⟩
    · simp [rsPatchSCopying, full]
    · simp [Pays]
  · have some_ : ¬ min job.own.basisLen job.availOut = 0 := by omega
    obtain ⟨count, count_eq⟩ : ∃ count, min job.own.basisLen job.availOut = count := ⟨_, rfl⟩
    obtain ⟨octets, octets_eq⟩ : ∃ octets, pread old (position + copied) count = octets := ⟨_, rfl⟩
    have size : octets.length = count := by
      rw [← octets_eq, pread, List.length_take, List.length_drop]
      omega
    have nonempty : octets ≠ [] := by
      rw [← List.length_pos_iff]
      omega
    have joined : pread old position (copied + count) = pread old position copied ++ octets := by
      rw [← octets_eq]
      simp only [pread, List.take_add, List.drop_drop]
    obtain ⟨own, own_eq⟩ : ∃ own, (if job.own.basisLen - count = 0 then
        { job.own with
          basisPos := job.own.basisPos + count, basisLen := job.own.basisLen - count, statefn := .cmdbyte }
      else { job.own with basisPos := job.own.basisPos + count, basisLen := job.own.basisLen - count }) = own :=
      ⟨_, rfl⟩
    have wrote : job.Moves { job with
        written := job.written ++ octets, availOut := job.availOut - count, own := own } rest octets 0 := by
      refine ⟨⟨⟨sound.copies, sound.ended, ?_, ?_⟩, rfl, rfl, rfl, Nat.sub_le _ _, le_rfl⟩, fun out => ?_, rfl, ?_⟩
      · intro detached
        exact absurd (sound.detached detached).2 full
      · intro attached
        have room := sound.room attached
        simp only [List.length_append]
        omega
      · simp [emitted, idle.1, idle.2]
      · rw [size]
        change job.tube + _ = job.tube + _ + (job.availOut - count)
        omega
    refine ⟨.running, _, ?_, wrote.toExtends, .running ?_ ?_⟩
    · have goes : ¬ count = 0 := count_eq ▸ some_
      simp only [rsPatchSCopying, count_eq, if_neg goes, basisPos, rsFileCopyCb, octets_eq, if_neg nonempty, size,
        ne_eq, not_true_eq_false, ↓reduceIte]
      rw [← own_eq, basisPos]
    · rw [wrote.emitted, wrote.pending, emits, pends, List.drop_zero, List.append_assoc, ← joined]
      change PatchInv old commands own _ _ _
      by_cases finished : job.own.basisLen - count = 0
      · rw [if_pos finished] at own_eq
        subst own_eq
        refine ⟨applied ++ [.copy position len], left, by rw [split, List.append_assoc]; rfl, ?_, rfl⟩
        rw [applyAll_snoc, Command.apply, show copied + count = len by omega]
      · rw [if_neg finished] at own_eq
        subst own_eq
        simp only [PatchInv, state]
        exact ⟨applied, position, len, left, copied + count, split, by omega, by omega, by omega, rfl, rfl⟩
    · have whole := applyAll_length_le old split
      have length : (pread old position copied).length = copied := by
        rw [pread, List.length_take, List.length_drop]
        omega
      have length' : (pread old position len).length = len := by
        rw [pread, List.length_take, List.length_drop]
        omega
      rw [Command.apply, length'] at whole
      have phase : patchPhase own.statefn ≤ 1 := by
        rw [← own_eq]
        split
        · exact Nat.zero_le _
        · simp [state, patchPhase]
      apply wrote.pays
      have before : patchPhase .copying = 1 := rfl
      simp only [patchPotential, emits, pends, state, before, List.drop_zero, List.length_append, length, size]
      omega

/-- The patch job meets its specification. -/
def patchSpec (applicable : Applicable old commands) : JobSpec (rsPatchStatefn old) true where
  Inv := PatchInv old commands
  Final := fun _ emitted => emitted = applyAll old commands
  potential := patchPotential (applyAll old commands).length
  ended := id
  silent := by simp
  step := by
    intro job out rest sound idle _ inv
    rw [rsPatchStatefn]
    split
    · next state => exact rsPatchSHeader_spec sound idle state inv
    · next state => exact rsPatchSCmdbyte_spec sound idle state inv
    · next state => exact rsPatchSParams_spec applicable sound idle state inv
    · next state => exact rsPatchSRun_spec sound idle state inv
    · next state => exact rsPatchSLiteral_spec applicable sound idle state inv
    · next state => exact rsPatchSCopy_spec applicable sound state inv
    · next state => exact rsPatchSCopying_spec applicable sound idle state inv

/-- Applicable commands are applied in full. -/
theorem rsPatchFile_done (applicable : Applicable old commands) {fuel : ℕ}
    (enough : 2 * (applyAll old commands).length + 7 * (netint 4 deltaMagic ++ deltaTail commands).length + 3 < fuel) :
    rsPatchFile fuel old (netint 4 deltaMagic ++ deltaTail commands) = .ok (.done, applyAll old commands) := by
  have fuelled : (patchSpec applicable).potential rsPatchBegin [] (netint 4 deltaMagic ++ deltaTail commands) +
      2 * (netint 4 deltaMagic ++ deltaTail commands).length + 3 < fuel := by
    simp only [patchSpec, patchPotential, rsPatchBegin, patchPhase, List.length_nil]
    omega
  obtain ⟨job, new, ran, final⟩ := (patchSpec applicable).rsWholeRun_done rsPatchBegin
    (netint 4 deltaMagic ++ deltaTail commands) (fun _ => id) ⟨rfl, rfl⟩ fuelled
  simp only [rsPatchFile, ran, bind, Except.bind, pure, Except.pure]
  exact congrArg (fun new => Except.ok (Result.done, new)) final

end DeltaCFS
