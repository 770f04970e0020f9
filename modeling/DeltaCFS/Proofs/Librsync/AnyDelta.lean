import DeltaCFS.Model.System
import DeltaCFS.Proofs.Librsync.AnyInput
import DeltaCFS.Proofs.Librsync.Patch
import DeltaCFS.Proofs.Librsync.Pipeline

/-! # Patching with any delta

The patch job does with a delta, whatever its octets are, what the delta says when it is read in one
piece; no assertion fails but that a literal has no negative length.
-/

namespace DeltaCFS

open Bytes Job

variable {old new behind rest : Bytes} {job : Job PatchJob}

/-! ## What is left of a command -/

/-- What a delta says in the middle of a copy. -/
def interpretCopy (old : Bytes) (position len : ℕ) (new rest : Bytes) : Verdict Bytes :=
  if len = 0 then if rest = [] then .never else .ends .internalError new
  else if (pread old position len).length < len then .ends .inputEnded (new ++ pread old position len)
  else interpretCommands old (new ++ pread old position len) rest

/-- What a delta says when the parameters of a command have been read. -/
def interpretCommand (old : Bytes) (kind : OpKind) (param1 param2 : ℕ) (new rest : Bytes) : Verdict Bytes :=
  match kind with
  | .ending => .ends .done new
  | .reserved => .ends .corrupt new
  | .literal =>
    let len := param1 % 2 ^ 32
    if 2 ^ 63 ≤ param1 then .ends .corrupt new
    else if 2 ^ 31 ≤ len then .aborts
    else interpretCommands old (new ++ rest.take len) (rest.drop len)
  | .copy => if 2 ^ 63 ≤ param2 ∨ 2 ^ 63 ≤ param1 then .ends .corrupt new else interpretCopy old param1 param2 new rest

/-- What a delta says behind the octet of a command. -/
def interpretParams (old : Bytes) (cmd : PrototabEnt) (new behind : Bytes) : Verdict Bytes :=
  if behind.length < cmd.len1 + cmd.len2 then .short .inputEnded new behind
  else interpretCommand old cmd.kind (if cmd.len1 = 0 then cmd.immediate else ofNetint (behind.take cmd.len1))
    (ofNetint ((behind.drop cmd.len1).take cmd.len2)) new (behind.drop (cmd.len1 + cmd.len2))

theorem interpretCommands_cons (op : UInt8) :
    interpretCommands old new (op :: behind) = interpretParams old (rsPrototab op.toNat) new behind := by
  rw [interpretCommands, interpretParams]
  rfl

/-- Only copies have a second parameter. -/
theorem interpretCommand_of_not_copy {kind : OpKind} (param1 param2 param2' : ℕ) (other : kind ≠ .copy) :
    interpretCommand old kind param1 param2 new rest = interpretCommand old kind param1 param2' new rest := by
  cases kind with
  | copy => exact absurd rfl other
  | _ => rfl

theorem kind_ne_copy_of_len2 {op : ℕ} (single : (rsPrototab op).len2 = 0) : (rsPrototab op).kind ≠ .copy := by
  simp only [rsPrototab] at single ⊢
  split_ifs at single ⊢ <;> simp_all

theorem len2_of_len1 {op : ℕ} (none : (rsPrototab op).len1 = 0) : (rsPrototab op).len2 = 0 := by
  simp only [rsPrototab] at none ⊢
  split_ifs at none ⊢ <;> simp_all

/-! ## The patch job -/

/-- What a delta says from a state of the patch job on. -/
def PatchJob.tells (old : Bytes) (own : PatchJob) (new delta : Bytes) : Verdict Bytes :=
  match own.statefn with
  | .header =>
    if delta.length < 4 then .short .inputEnded new delta
    else if ofNetint (delta.take 4) ≠ deltaMagic then .ends .badMagic new
    else interpretCommands old new (delta.drop 4)
  | .cmdbyte => interpretCommands old new delta
  | .params => interpretParams old (rsPrototab own.op) new delta
  | .run => interpretCommand old (rsPrototab own.op).kind own.param1 own.param2 new delta
  | .literal => interpretCommand old .literal own.param1 own.param2 new delta
  | .copy => interpretCommand old .copy own.param1 own.param2 new delta
  | .copying => interpretCopy old own.basisPos own.basisLen new delta

/-- How many octets the scoop may hold at most. -/
def PatchJob.scoops (own : PatchJob) : ℕ :=
  match own.statefn with
  | .header => 3
  | .params => (rsPrototab own.op).len1 + (rsPrototab own.op).len2 - 1
  | _ => 0

/-- A copy from the delta is outstanding only between two commands. -/
structure PatchJob.Fits (own : PatchJob) (scoop copy : ℕ) : Prop where
  scoop : scoop ≤ own.scoops
  copy : copy ≠ 0 → own.statefn = .cmdbyte
  params : own.statefn = .params → (rsPrototab own.op).len1 ≠ 0

/-- The job has just read the end command. -/
def PatchJob.Ending (own : PatchJob) : Prop := own.statefn = .run ∧ (rsPrototab own.op).kind = .ending

/-- What the states cost at most; an octet of the delta may ask for a copy of the whole old file. -/
def PatchJob.work (size : ℕ) (own : PatchJob) : ℕ :=
  match own.statefn with
  | .header => 0
  | .cmdbyte => 0
  | .params => 2 * size + 3
  | .run => 2 * size + 2
  | .literal => 1
  | .copy => 2 * size + 1
  | .copying => 2 * min own.basisLen (size - own.basisPos)

def PatchJob.effort (size : ℕ) (own : PatchJob) (delta : Bytes) : ℕ := (2 * size + 7) * delta.length + own.work size

/-- A call of a state function of the patch job keeps what the delta says. -/
abbrev PatchReads (old : Bytes) (statefn : Job PatchJob → Except Abort (Result × Job PatchJob)) (job : Job PatchJob)
    (rest : Bytes) : Prop :=
  ∃ result next, statefn job = .ok (result, next) ∧ job.Advances next rest ∧
    job.Reads (PatchJob.tells old) (fun _ new => new) (PatchJob.effort old.length) PatchJob.Fits PatchJob.Ending true next
      rest result

theorem effort_drop (old : Bytes) {own own' : PatchJob} {delta : Bytes} {len : ℕ} (some_ : 0 < len) (known : len ≤ delta.length)
    (less : own'.work old.length + 1 ≤ 2 * old.length + 7 + own.work old.length) :
    own'.effort old.length (delta.drop len) + 1 ≤ own.effort old.length delta := by
  have split : (2 * old.length + 7) * delta.length =
      (2 * old.length + 7) * (delta.length - len) + (2 * old.length + 7) * len := by
    rw [← Nat.mul_add, Nat.sub_add_cancel known]
  have once := Nat.le_mul_of_pos_right (2 * old.length + 7) some_
  simp only [PatchJob.effort, List.length_drop, split]
  omega

/-- A call that goes on behind octets it has read. -/
theorem PatchReads.of_takes {statefn : Job PatchJob → Except Abort (Result × Job PatchJob)} {next : Job PatchJob}
    {len : ℕ} (own : PatchJob) (takes : job.Takes next len rest) (buffered : job.Buffered rest) (idle : job.copyLen = 0)
    (called : statefn job = .ok (.running, { next with own := own }))
    (emptied : next.scoop.length ≤ job.scoop.length - len) (some_ : job.scoop.length < len)
    (known : len ≤ (job.pending rest).length)
    (tells : ∀ new, own.tells old new ((job.pending rest).drop len) = job.own.tells old new (job.pending rest))
    (fits : own.Fits 0 0) (less : own.work old.length + 1 ≤ 2 * old.length + 7 + job.own.work old.length) :
    PatchReads old statefn job rest :=
  ⟨_, _, called, takes.reads own buffered idle emptied some_ known tells fits
    (effort_drop old (Nat.zero_lt_of_lt some_) known less)⟩

/-- A call that fails on octets it has read. -/
theorem PatchReads.of_failed {statefn : Job PatchJob → Except Abort (Result × Job PatchJob)} {next : Job PatchJob}
    {len : ℕ} (result : Result) (takes : job.Takes next len rest) (buffered : job.Buffered rest) (idle : job.copyLen = 0)
    (called : statefn job = .ok (result, next))
    (tells : ∀ new, job.own.tells old new (job.pending rest) = .ends result new)
    (other : result ≠ .done ∧ result ≠ .running ∧ result ≠ .blocked) : PatchReads old statefn job rest := by
  have idle' : job.Idle := ⟨buffered.writeBuf, idle⟩
  refine ⟨_, _, called, takes.advances buffered, .ends _ (fun out => ?_) (takes.idle idle').2
    (fun done => absurd done other.1) other.2⟩
  rw [takes.emitted idle']
  exact tells _

theorem rsPatchSHeader_reads (buffered : job.Buffered rest) (idle : job.copyLen = 0)
    (fits : job.own.Fits job.scoop.length 0) (state : job.own.statefn = .header) : PatchReads old rsPatchSHeader job rest := by
  have held := fits.scoop
  simp only [PatchJob.scoops, state] at held
  refine Job.reads_of_ahead 4 .inputEnded buffered idle (fun scoop small => ⟨?_, by simp, ?_⟩) ?_ (by simp)
    (fun out short => ?_) (fun next ahead => ?_) (fun ahead => ?_) (fun there known => ?_)
  · simp only [PatchJob.scoops, state]
    omega
  · simp [state]
  · simp [PatchJob.Ending, state]
  · simp only [PatchJob.tells, state, if_pos short]
  · simp [rsPatchSHeader, rsSuckNetint, rsScoopRead, ahead, bind, Except.bind, pure, Except.pure]
  · simp [rsPatchSHeader, rsSuckNetint, rsScoopRead, ahead, bind, Except.bind, pure, Except.pure]
  obtain ⟨next, read, takes, emptied⟩ := rsScoopRead_ready rest idle there
  by_cases magic : ofNetint ((job.pending rest).take 4) = deltaMagic
  · refine PatchReads.of_takes { job.own with statefn := .cmdbyte } takes buffered idle ?_ emptied
      (by omega) known (fun new => ?_) ⟨Nat.zero_le _, by simp, by simp⟩ ?_
    · simp [rsPatchSHeader, rsSuckNetint, read, bind, Except.bind, pure, Except.pure, magic, takes.own]
    · simp only [PatchJob.tells, state, if_neg (Nat.not_lt.mpr known), magic, ne_eq, not_true_eq_false, ↓reduceIte]
    · simp [PatchJob.work, state]
  · refine PatchReads.of_failed .badMagic takes buffered idle ?_ (fun new => ?_) (by simp)
    · simp [rsPatchSHeader, rsSuckNetint, read, bind, Except.bind, pure, Except.pure, magic]
    · simp only [PatchJob.tells, state, if_neg (Nat.not_lt.mpr known), magic, ne_eq, not_false_eq_true, ↓reduceIte]

theorem rsPatchSCmdbyte_reads (buffered : job.Buffered rest) (idle : job.copyLen = 0)
    (fits : job.own.Fits job.scoop.length 0) (state : job.own.statefn = .cmdbyte) :
    PatchReads old rsPatchSCmdbyte job rest := by
  have held := fits.scoop
  simp only [PatchJob.scoops, state] at held
  refine Job.reads_of_ahead 1 .inputEnded buffered idle (fun scoop small => ⟨?_, by simp, ?_⟩) ?_ (by simp)
    (fun out short => ?_) (fun next ahead => ?_) (fun ahead => ?_) (fun there known => ?_)
  · simp only [PatchJob.scoops, state]
    omega
  · simp [state]
  · simp [PatchJob.Ending, state]
  · have nothing : job.pending rest = [] := List.length_eq_zero_iff.mp (by omega)
    simp [PatchJob.tells, state, nothing, interpretCommands, Verdict.short]
  · simp [rsPatchSCmdbyte, rsSuckNetint, rsScoopRead, ahead, bind, Except.bind, pure, Except.pure]
  · simp [rsPatchSCmdbyte, rsSuckNetint, rsScoopRead, ahead, bind, Except.bind, pure, Except.pure]
  obtain ⟨next, read, takes, emptied⟩ := rsScoopRead_ready rest idle there
  obtain ⟨op, behind, pends⟩ : ∃ op behind, job.pending rest = op :: behind :=
    List.exists_cons_of_ne_nil (List.ne_nil_of_length_pos known)
  have sucked : rsSuckNetint 1 job = .ok (.done, op.toNat, next) := by
    simp [rsSuckNetint, read, bind, Except.bind, pure, Except.pure, pends, ofNetint, toNatLE]
  by_cases single : (rsPrototab op.toNat).len1 = 0
  · refine PatchReads.of_takes { job.own with op := op.toNat, param1 := (rsPrototab op.toNat).immediate, statefn := .run } takes
      buffered idle ?_ emptied (by omega) known (fun new => ?_) ⟨Nat.zero_le _, by simp, by simp⟩ ?_
    · simp [rsPatchSCmdbyte, sucked, bind, Except.bind, pure, Except.pure, takes.own, single]
    · have second := len2_of_len1 single
      rw [pends]
      simp only [PatchJob.tells, state, interpretCommands_cons, interpretParams, single, second,
        ↓reduceIte, List.drop_zero, List.drop_one, List.tail_cons]
      exact interpretCommand_of_not_copy _ _ _ (kind_ne_copy_of_len2 second)
    · simp [PatchJob.work, state]
  · refine PatchReads.of_takes { job.own with op := op.toNat, statefn := .params } takes buffered idle ?_ emptied (by omega) known
      (fun new => ?_) ⟨Nat.zero_le _, by simp, fun _ => single⟩ ?_
    · simp [rsPatchSCmdbyte, sucked, bind, Except.bind, pure, Except.pure, takes.own, single]
    · rw [pends]
      simp only [PatchJob.tells, state, interpretCommands_cons, List.drop_one, List.tail_cons]
    · simp [PatchJob.work, state]

theorem rsPatchSParams_reads (buffered : job.Buffered rest) (idle : job.copyLen = 0)
    (fits : job.own.Fits job.scoop.length 0) (state : job.own.statefn = .params) :
    PatchReads old rsPatchSParams job rest := by
  have held := fits.scoop
  have some_ := fits.params state
  have positive : ¬ (rsPrototab job.own.op).len1 + (rsPrototab job.own.op).len2 = 0 := by omega
  simp only [PatchJob.scoops, state] at held
  refine Job.reads_of_ahead ((rsPrototab job.own.op).len1 + (rsPrototab job.own.op).len2) .inputEnded buffered idle
    (fun scoop small => ⟨?_, by simp, fun _ => some_⟩) ?_ (by simp) (fun out short => ?_) (fun next ahead => ?_)
    (fun ahead => ?_) (fun there known => ?_)
  · simp only [PatchJob.scoops, state]
    omega
  · simp [PatchJob.Ending, state]
  · simp only [PatchJob.tells, state, interpretParams, if_pos short]
  · simp only [rsPatchSParams, if_neg positive, ahead, bind, Except.bind]
    rfl
  · simp only [rsPatchSParams, if_neg positive, ahead, bind, Except.bind]
    rfl
  obtain ⟨ahead, looked, found, ready⟩ := rsScoopReadahead_done rest _ job there
  have scooped := rsScoopReadahead_scoop looked
  have idle' : job.Idle := ⟨buffered.writeBuf, idle⟩
  have pends : ahead.pending rest = job.pending rest := by rw [found.pending idle', List.drop_zero]
  obtain ⟨first, read, takes, emptied⟩ := rsScoopRead_ready rest (found.idle idle').2
    (Nat.le_of_add_right_le (found.leaves ((Nat.zero_add _).trans_le there)))
  rw [pends] at read
  obtain ⟨param1, number⟩ : ∃ param1, ofNetint ((job.pending rest).take (rsPrototab job.own.op).len1) = param1 :=
    ⟨_, rfl⟩
  have sucked : rsSuckNetint (rsPrototab job.own.op).len1 ahead = .ok (.done, param1, first) := by
    simp only [rsSuckNetint, read, bind, Except.bind, pure, Except.pure, number]
  have taken := found.trans takes
  have idleFirst := taken.idle idle'
  by_cases single : (rsPrototab job.own.op).len2 = 0
  · simp only [single, Nat.add_zero] at there looked known positive held scooped
    refine PatchReads.of_takes { job.own with param1 := param1, statefn := .run } taken buffered idle ?_ (by omega)
      (by omega) known (fun new => ?_) ⟨Nat.zero_le _, by simp, by simp⟩ ?_
    · simp only [rsPatchSParams, single, Nat.add_zero, if_neg positive, looked, sucked, bind, Except.bind, ne_eq,
        not_true_eq_false, ↓reduceIte, pure, Except.pure, taken.own]
    · simp only [PatchJob.tells, state, interpretParams, single, Nat.add_zero, if_neg (Nat.not_lt.mpr known),
        if_neg some_, number]
      exact interpretCommand_of_not_copy _ _ _ (kind_ne_copy_of_len2 single)
    · simp [PatchJob.work, state]
  · obtain ⟨own, owned⟩ : ∃ own, own = { job.own with param1 := param1 } := ⟨_, rfl⟩
    have idleSecond : ({ first with own := own } : Job PatchJob).copyLen = 0 := idleFirst.2
    obtain ⟨second, read', takes', emptied'⟩ := rsScoopRead_ready rest idleSecond (taken.leaves there)
    have pends' : ({ first with own := own } : Job PatchJob).pending rest =
        (job.pending rest).drop (rsPrototab job.own.op).len1 := taken.pending idle'
    rw [pends'] at read'
    obtain ⟨param2, number'⟩ : ∃ param2,
        ofNetint (((job.pending rest).drop (rsPrototab job.own.op).len1).take (rsPrototab job.own.op).len2) = param2 :=
      ⟨_, rfl⟩
    have sucked' : rsSuckNetint (rsPrototab job.own.op).len2 { first with own := own } = .ok (.done, param2, second) := by
      simp only [rsSuckNetint, read', bind, Except.bind, pure, Except.pure, number']
    have scoops : ({ first with own := own } : Job PatchJob).scoop = first.scoop := rfl
    rw [scoops] at emptied'
    have all : second.scoop.length ≤ 0 := by omega
    refine PatchReads.of_takes { job.own with param1 := param1, param2 := param2, statefn := .run }
      (taken.andThen own takes') buffered idle ?_ (all.trans (Nat.zero_le _)) (by omega) known (fun new => ?_)
      ⟨Nat.zero_le _, by simp, by simp⟩ ?_
    · have own' : second.own = { job.own with param1 := param1 } := takes'.own.trans owned
      rw [owned] at sucked'
      simp only [rsPatchSParams, if_neg positive, looked, sucked, bind, Except.bind, ne_eq, not_true_eq_false,
        ↓reduceIte, pure, Except.pure, taken.own, single, not_false_eq_true, sucked', own']
    · simp only [PatchJob.tells, state, interpretParams, if_neg (Nat.not_lt.mpr known), if_neg some_, number, number']
    · simp [PatchJob.work, state]

/-- A call that changes own fields only. -/
theorem PatchReads.of_own {statefn : Job PatchJob → Except Abort (Result × Job PatchJob)} (own : PatchJob)
    (buffered : job.Buffered rest) (called : statefn job = .ok (.running, { job with own := own }))
    (tells : ∀ new, own.tells old new (job.pending rest) = job.own.tells old new (job.pending rest))
    (fits : own.Fits job.scoop.length job.copyLen) (settled : ¬ own.Ending)
    (less : own.work old.length + 1 ≤ job.own.work old.length) : PatchReads old statefn job rest := by
  refine ⟨_, _, called, ⟨⟨buffered.ended, buffered.detached, buffered.room, buffered.writeBuf⟩, rfl, rfl, rfl, le_rfl⟩,
    .running (fun out => tells _) fits (fun ending => absurd ending settled) ?_⟩
  change (2 * old.length + 7) * (job.pending rest).length + own.work old.length + job.load rest + job.written.length + 1 ≤
    (2 * old.length + 7) * (job.pending rest).length + job.own.work old.length + job.load rest + job.written.length
  omega

/-- A call that ends the job as it is. -/
theorem PatchReads.of_end {statefn : Job PatchJob → Except Abort (Result × Job PatchJob)} (result : Result)
    (buffered : job.Buffered rest) (idle : job.copyLen = 0) (called : statefn job = .ok (result, job))
    (tells : ∀ new, job.own.tells old new (job.pending rest) = .ends result new)
    (moved : result = .done → job.own.Ending) (other : result ≠ .running ∧ result ≠ .blocked) :
    PatchReads old statefn job rest :=
  ⟨_, _, called, ⟨buffered, rfl, rfl, rfl, le_rfl⟩, .ends _ (fun _ => tells _) idle (fun done => .inl (moved done)) other⟩

theorem rsPatchSRun_reads (buffered : job.Buffered rest) (idle : job.copyLen = 0)
    (fits : job.own.Fits job.scoop.length 0) (state : job.own.statefn = .run) : PatchReads old rsPatchSRun job rest := by
  have held := fits.scoop
  simp only [PatchJob.scoops, state] at held
  cases kind : (rsPrototab job.own.op).kind with
  | ending =>
    refine PatchReads.of_end .done buffered idle ?_ (fun new => ?_) (fun _ => ⟨state, kind⟩) (by simp)
    · simp [rsPatchSRun, kind]
    · simp [PatchJob.tells, state, kind, interpretCommand]
  | literal =>
    refine PatchReads.of_own { job.own with statefn := .literal } buffered ?_ (fun new => ?_) ⟨held, ?_, by simp⟩
      (fun ending => absurd ending.1 (by simp)) ?_
    · simp [rsPatchSRun, kind]
    · simp only [PatchJob.tells, state, kind]
    · simp [idle]
    · simp [PatchJob.work, state]
  | copy =>
    refine PatchReads.of_own { job.own with statefn := .copy } buffered ?_ (fun new => ?_) ⟨held, ?_, by simp⟩
      (fun ending => absurd ending.1 (by simp)) ?_
    · simp [rsPatchSRun, kind]
    · simp only [PatchJob.tells, state, kind]
    · simp [idle]
    · simp [PatchJob.work, state]
  | reserved =>
    refine PatchReads.of_end .corrupt buffered idle ?_ (fun new => ?_) (by simp) (by simp)
    · simp [rsPatchSRun, kind]
    · simp [PatchJob.tells, state, kind, interpretCommand]

theorem rsPatchSLiteral_reads (buffered : job.Buffered rest) (idle : job.copyLen = 0)
    (fits : job.own.Fits job.scoop.length 0) (state : job.own.statefn = .literal) :
    (rsPatchSLiteral job = .error .assertion ∧
      ∀ out, job.own.tells old (job.emitted out rest) (job.pending rest) = .aborts) ∨
      PatchReads old rsPatchSLiteral job rest := by
  have held := fits.scoop
  simp only [PatchJob.scoops, state] at held
  by_cases negative : 2 ^ 63 ≤ job.own.param1
  · refine .inr (PatchReads.of_end .corrupt buffered idle ?_ (fun new => ?_) (by simp) (by simp))
    · simp only [rsPatchSLiteral, if_pos negative, pure, Except.pure]
    · simp only [PatchJob.tells, state, interpretCommand, if_pos negative]
  by_cases long : 2 ^ 31 ≤ job.own.param1 % 2 ^ 32
  · refine .inl ⟨?_, fun out => ?_⟩
    · simp only [rsPatchSLiteral, if_neg negative, rsTubeCopy, if_neg fun fit => absurd long (Nat.not_le.mpr (And.right fit)),
        bind, Except.bind]
    · simp only [PatchJob.tells, state, interpretCommand, if_neg negative, if_pos long]
  right
  have called : rsPatchSLiteral job =
      .ok (.running, { job with copyLen := job.own.param1 % 2 ^ 32, own := { job.own with statefn := .cmdbyte } }) := by
    simp only [rsPatchSLiteral, if_neg negative, rsTubeCopy, if_pos (And.intro idle (Nat.not_le.mp long)), bind,
      Except.bind, pure, Except.pure]
  have same (new : Bytes) : job.own.tells old new (job.pending rest) =
      interpretCommands old (new ++ (job.pending rest).take (job.own.param1 % 2 ^ 32))
        ((job.pending rest).drop (job.own.param1 % 2 ^ 32)) := by
    simp only [PatchJob.tells, state, interpretCommand, if_neg negative, if_neg long]
  generalize job.own.param1 % 2 ^ 32 = len at *
  obtain ⟨next, made⟩ : ∃ next : Job PatchJob,
      next = { job with copyLen := len, own := { job.own with statefn := .cmdbyte } } := ⟨_, rfl⟩
  have input_eq : next.input rest = job.pending rest := by
    rw [made, pending, idle, List.drop_zero]
    rfl
  have pends : next.pending rest = (job.pending rest).drop len := by
    rw [pending, input_eq, made]
  have emits (out : Bytes) : next.emitted out rest = job.emitted out rest ++ (job.pending rest).take len := by
    have copied : next.copyLen = len := by rw [made]
    have written : next.written = job.written := by rw [made]
    have writeBuf : next.writeBuf = [] := by rw [made]; exact buffered.writeBuf
    simp only [emitted, input_eq, copied, written, writeBuf, buffered.writeBuf, idle, List.take_zero, List.append_nil,
      List.nil_append, List.append_assoc]
  refine ⟨.running, next, made ▸ called, ?_, .running (fun out => ?_) ?_ ?_ ?_⟩
  · rw [made]
    exact ⟨⟨buffered.ended, buffered.detached, buffered.room, buffered.writeBuf⟩, rfl, rfl, rfl, le_rfl⟩
  · rw [emits, pends, made, same]
    rfl
  · rw [made]
    exact ⟨held, fun _ => rfl, by simp⟩
  · rw [made]
    exact fun ending => absurd ending.1 (by simp)
  · rw [effort_of_idle idle, Job.effort, pends, made]
    have length : ({ job with copyLen := len, own := { job.own with statefn := .cmdbyte } } : Job PatchJob).load
        rest = min len (job.pending rest).length := by
      rw [Job.load, ← made, input_eq, made, List.length_take]
    rw [length]
    have split : (2 * old.length + 7) * (job.pending rest).length =
        (2 * old.length + 7) * ((job.pending rest).length - len) +
          (2 * old.length + 7) * min len (job.pending rest).length := by
      rw [← Nat.mul_add]
      congr 1
      omega
    have once := Nat.le_mul_of_pos_left (min len (job.pending rest).length) (show 0 < 2 * old.length + 7 by omega)
    simp only [PatchJob.effort, PatchJob.work, state, List.length_drop, split]
    omega

theorem rsPatchSCopy_reads (buffered : job.Buffered rest) (idle : job.copyLen = 0)
    (fits : job.own.Fits job.scoop.length 0) (state : job.own.statefn = .copy) : PatchReads old rsPatchSCopy job rest := by
  have held := fits.scoop
  simp only [PatchJob.scoops, state] at held
  by_cases negative : 2 ^ 63 ≤ job.own.param2 ∨ 2 ^ 63 ≤ job.own.param1
  · refine PatchReads.of_end .corrupt buffered idle ?_ (fun new => ?_) (by simp) (by simp)
    · simp only [rsPatchSCopy]
      split_ifs with negative2 negative1
      · rfl
      · rfl
      · exact absurd negative (not_or.mpr ⟨negative2, negative1⟩)
    · simp only [PatchJob.tells, state, interpretCommand, if_pos negative]
  · refine PatchReads.of_own { job.own with basisPos := job.own.param1, basisLen := job.own.param2, statefn := .copying } buffered ?_
      (fun new => ?_) ⟨held, ?_, by simp⟩ (fun ending => absurd ending.1 (by simp)) ?_
    · obtain ⟨positive2, positive1⟩ := not_or.mp negative
      rw [rsPatchSCopy, if_neg positive2, if_neg positive1]
    · simp only [PatchJob.tells, state, interpretCommand, if_neg negative]
    · simp [idle]
    · simp only [PatchJob.work, state]
      omega

/-- A copy in two parts. -/
theorem pread_add (old : Bytes) (position : ℕ) {count len : ℕ} (less : count ≤ len) :
    pread old position len = pread old position count ++
      pread old (position + (pread old position count).length) (len - (pread old position count).length) := by
  simp only [pread, List.length_take, List.length_drop]
  by_cases inside : count ≤ old.length - position
  · rw [Nat.min_eq_left inside]
    conv_lhs => rw [← Nat.add_sub_cancel' less, List.take_add, List.drop_drop]
  · have all : (old.drop position).length ≤ count := by
      rw [List.length_drop]
      omega
    have gone : old.drop (position + min count (old.length - position)) = [] := List.drop_eq_nil_of_le (by omega)
    rw [List.take_of_length_le all, List.take_of_length_le (all.trans less), gone, List.take_nil, List.append_nil]

theorem rsPatchSCopying_reads (buffered : job.Buffered rest) (idle : job.copyLen = 0)
    (fits : job.own.Fits job.scoop.length 0) (state : job.own.statefn = .copying) :
    PatchReads old (rsPatchSCopying old) job rest := by
  have held := fits.scoop
  simp only [PatchJob.scoops, state] at held
  have noScoop : job.scoop = [] := List.length_eq_zero_iff.mp (by omega)
  have pends : job.pending rest = job.nextIn ++ rest := by
    rw [pending, idle, List.drop_zero, input, noScoop, List.nil_append]
  by_cases nothing : min job.own.basisLen job.availOut = 0
  · refine ⟨.blocked, job, by simp [rsPatchSCopying, nothing], ⟨buffered, rfl, rfl, rfl, le_rfl⟩,
      .blocked (fun _ => rfl) (idle ▸ fits) (fun ending => absurd (state.symm.trans ending.1) (by simp)) le_rfl ?_⟩
    by_cases full : job.availOut = 0
    · exact .inl ⟨rfl, full⟩
    have empty : job.own.basisLen = 0 := by omega
    refine .inr fun out => ⟨fun starved atEnd => ?_, fun some_ => ⟨rfl, idle, ?_⟩⟩
    · have noInput : job.pending rest = [] := by rw [pends, starved, buffered.ended atEnd, List.append_nil]
      simp only [PatchJob.tells, state, interpretCopy, empty, noInput, ↓reduceIte]
    · simp only [PatchJob.tells, state, interpretCopy, empty, pends, List.append_eq_nil_iff, some_, false_and, ↓reduceIte]
  obtain ⟨got, read⟩ : ∃ got, pread old job.own.basisPos (min job.own.basisLen job.availOut) = got := ⟨_, rfl⟩
  have whole := pread_add old job.own.basisPos (Nat.min_le_left job.own.basisLen job.availOut)
  rw [read] at whole
  have size : got.length = min (min job.own.basisLen job.availOut) (old.length - job.own.basisPos) := by
    rw [← read, pread, List.length_take, List.length_drop]
  have positive : job.own.basisLen ≠ 0 := by omega
  by_cases ended : got = []
  · refine PatchReads.of_end .inputEnded buffered idle ?_ (fun new => ?_) (by simp) (by simp)
    · simp [rsPatchSCopying, nothing, rsFileCopyCb, read, ended]
    · have short : pread old job.own.basisPos job.own.basisLen = [] := by
        rw [ended, List.length_nil] at size
        rw [pread, List.drop_eq_nil_of_le (by omega), List.take_nil]
      simp only [PatchJob.tells, state, interpretCopy, if_neg positive, short, List.length_nil, Nat.pos_of_ne_zero positive,
        ↓reduceIte, List.append_nil]
  have some_ := List.length_pos_of_ne_nil ended
  obtain ⟨own, owned⟩ : ∃ own, own = if job.own.basisLen - got.length = 0 then
      { job.own with
        basisPos := job.own.basisPos + got.length, basisLen := job.own.basisLen - got.length, statefn := .cmdbyte }
    else { job.own with basisPos := job.own.basisPos + got.length, basisLen := job.own.basisLen - got.length } := ⟨_, rfl⟩
  refine ⟨.running, { job with written := job.written ++ got, availOut := job.availOut - got.length, own := own }, ?_,
    ⟨⟨buffered.ended, fun detached => ?_, fun attached => ?_, buffered.writeBuf⟩, rfl, rfl, rfl, le_rfl⟩,
    .running (fun out => ?_) ?_ ?_ ?_⟩
  · simp [rsPatchSCopying, nothing, rsFileCopyCb, read, ended, owned]
  · have full := (buffered.detached detached).2
    omega
  · have room := buffered.room attached
    simp only [List.length_append]
    omega
  · have emits : ({ job with
        written := job.written ++ got, availOut := job.availOut - got.length, own := own } : Job PatchJob).emitted out
        rest = job.emitted out rest ++ got := by
      simp only [emitted, buffered.writeBuf, idle, List.take_zero, List.append_nil, List.append_assoc]
    rw [emits]
    change own.tells old _ (job.pending rest) = _
    by_cases finished : job.own.basisLen - got.length = 0
    · rw [if_pos finished] at owned
      have nothing' : pread old (job.own.basisPos + got.length) 0 = [] := List.take_zero
      rw [finished, nothing', List.append_nil] at whole
      have enough : ¬ got.length < job.own.basisLen := by omega
      simp only [owned, PatchJob.tells, state, interpretCopy, if_neg positive, whole, if_neg enough]
    · rw [if_neg finished] at owned
      have short : (pread old job.own.basisPos job.own.basisLen).length < job.own.basisLen ↔
          (pread old (job.own.basisPos + got.length) (job.own.basisLen - got.length)).length <
            job.own.basisLen - got.length := by
        rw [whole, List.length_append]
        omega
      simp only [owned, PatchJob.tells, state, interpretCopy, if_neg positive, if_neg finished, short]
      rw [whole, List.append_assoc]
  · change own.Fits job.scoop.length job.copyLen
    rw [idle]
    refine ⟨?_, by simp, ?_⟩
    · rw [noScoop]
      exact Nat.zero_le _
    · rw [owned]
      split <;> simp [state]
  · rw [owned]
    split <;> exact fun ending => by simp [PatchJob.Ending, state] at ending
  · have less : own.work old.length + got.length + 1 ≤ job.own.work old.length := by
      rw [owned]
      split
      all_goals
        simp only [PatchJob.work, state]
        omega
    rw [effort_of_idle idle, effort_of_idle (show ({ job with
      written := job.written ++ got, availOut := job.availOut - got.length, own := own } : Job PatchJob).copyLen = 0
      from idle)]
    change (2 * old.length + 7) * (job.pending rest).length + own.work old.length + (job.written ++ got).length + 1 ≤
      (2 * old.length + 7) * (job.pending rest).length + job.own.work old.length + job.written.length
    rw [List.length_append]
    omega

/-- The patch job reads any delta. -/
def patchReader (old : Bytes) : Reader (rsPatchStatefn old) true Bytes where
  verdict := PatchJob.tells old
  value := fun _ new => new
  potential := PatchJob.effort old.length
  Fits := PatchJob.Fits
  Fresh := PatchJob.Ending
  shrinks fits scoop copy := ⟨scoop.trans fits.scoop, fun some_ => fits.copy (by omega), fits.params⟩
  starves := by
    intro own scoop copy new fits some_
    have state := fits.copy some_
    have settled : ¬ own.Ending := fun ending => absurd (state.symm.trans ending.1) (by simp)
    refine ⟨rfl, settled, ?_⟩
    simp [PatchJob.tells, state, interpretCommands]
  call := by
    intro job rest buffered idle fits
    rw [rsPatchStatefn]
    split
    · next state => exact .inr (rsPatchSHeader_reads buffered idle fits state)
    · next state => exact .inr (rsPatchSCmdbyte_reads buffered idle fits state)
    · next state => exact .inr (rsPatchSParams_reads buffered idle fits state)
    · next state => exact .inr (rsPatchSRun_reads buffered idle fits state)
    · next state => exact rsPatchSLiteral_reads buffered idle fits state
    · next state => exact .inr (rsPatchSCopy_reads buffered idle fits state)
    · next state => exact .inr (rsPatchSCopying_reads buffered idle fits state)

theorem patchReader_begin (old delta : Bytes) :
    (patchReader old).verdict rsPatchBegin [] delta = interpretDelta old delta := rfl

theorem patchBound_enough (old delta : Bytes) :
    (patchReader old).potential rsPatchBegin delta + 2 * delta.length + 2 < patchBound old delta := by
  have start : (patchReader old).potential rsPatchBegin delta = (2 * old.length + 7) * delta.length := rfl
  rw [start, patchBound, Nat.add_mul, Nat.mul_assoc, Nat.mul_add, Nat.mul_comm old.length]
  omega

/-- More fuel does not change the new file. -/
theorem rsPatchFile_stable {delta : Bytes} {fuel fuel' : ℕ} (more : fuel ≤ fuel') {final : Result × Bytes}
    (patched : rsPatchFile fuel old delta = .ok final) : rsPatchFile fuel' old delta = .ok final := by
  simp only [rsPatchFile, Except.bind_eq_ok] at patched ⊢
  obtain ⟨ended, ran, same⟩ := patched
  exact ⟨ended, (Reader.rsWholeRun_stable more (by simp [ran])).trans ran, same⟩

theorem rsPatchBegin_fits (old : Bytes) : (patchReader old).Fits rsPatchBegin 0 0 :=
  ⟨Nat.zero_le _, by simp [rsPatchBegin], by simp [rsPatchBegin]⟩

theorem rsPatchBegin_settled (old : Bytes) : ¬ (patchReader old).Fresh rsPatchBegin := fun ending =>
  absurd ending.1 (by simp [rsPatchBegin])

/-- At most the last buffer of what was put out is missing from the new file, and only after an error. -/
theorem rsPatchFile_ends {delta content : Bytes} {result : Result} (said : interpretDelta old delta = .ends result content) :
    ∃ new lost, new ++ lost = content ∧ lost.length ≤ bufLen ∧ (result = .done → lost = []) ∧
      ∀ more, rsPatchFile (patchBound old delta + more) old delta = .ok (result, new) := by
  obtain ⟨job, new, ran, value, short, drained⟩ := (patchReader old).rsWholeRun_ends (rsPatchBegin_fits old)
    (rsPatchBegin_settled old) ((patchReader_begin old delta).trans said) (patchBound_enough old delta)
  refine ⟨new, job.written, value, short, drained, fun more => rsPatchFile_stable (Nat.le_add_right _ more) ?_⟩
  simp only [rsPatchFile, ran, bind, Except.bind, pure, Except.pure]

theorem rsPatchFile_aborts {delta : Bytes} (said : interpretDelta old delta = .aborts) (more : ℕ) :
    rsPatchFile (patchBound old delta + more) old delta = .error .assertion := by
  have ran := (patchReader old).rsWholeRun_aborts (rsPatchBegin_fits old) (rsPatchBegin_settled old)
    ((patchReader_begin old delta).trans said) (Nat.lt_add_right more (patchBound_enough old delta))
  simp only [rsPatchFile, ran, bind, Except.bind]

theorem rsPatchFile_never {delta : Bytes} (said : interpretDelta old delta = .never) (fuel : ℕ) :
    rsPatchFile fuel old delta = .error .outOfFuel := by
  have ran := (patchReader old).rsWholeRun_never (rsPatchBegin_fits old) (rsPatchBegin_settled old)
    ((patchReader_begin old delta).trans said) fuel
  simp only [rsPatchFile, ran, bind, Except.bind]

theorem rsPatchFile_done_iff {delta : Bytes} :
    (∃ fuel, rsPatchFile fuel old delta = .ok (.done, new)) ↔ interpretDelta old delta = .ends .done new := by
  cases said : interpretDelta old delta with
  | ends result content =>
    obtain ⟨new', lost, rfl, -, drained, patched⟩ := rsPatchFile_ends said
    constructor
    · rintro ⟨fuel, patched'⟩
      have same := (patched fuel).symm.trans (rsPatchFile_stable (Nat.le_add_left _ _) patched')
      obtain ⟨rfl, rfl⟩ := Prod.mk.inj (Except.ok.inj same)
      rw [drained rfl, List.append_nil]
    · intro told
      obtain ⟨rfl, rfl⟩ := Verdict.ends.inj told
      refine ⟨_, (patched 0).trans ?_⟩
      rw [drained rfl, List.append_nil]
  | aborts =>
    refine ⟨?_, by simp⟩
    rintro ⟨fuel, patched⟩
    cases (rsPatchFile_stable (Nat.le_add_left _ _) patched).symm.trans (rsPatchFile_aborts said fuel)
  | never =>
    refine ⟨?_, by simp⟩
    rintro ⟨fuel, patched⟩
    cases patched.symm.trans (rsPatchFile_never said fuel)

/-- The server has patched as the delta says. -/
theorem serverPatch_of_interprets {delta : Bytes} (said : interpretDelta old delta = .ends .done new) :
    serverPatch old delta = .ok (true, new) := by
  obtain ⟨new', lost, rfl, -, drained, patched⟩ := rsPatchFile_ends said
  rw [drained rfl, List.append_nil]
  simp only [serverPatch, show rsPatchFile (patchBound old delta) old delta = _ from patched 0, decide_true]

/-! ## Deltas that are cut short -/

namespace Command

/-- The part of the table entry that the octet of a command leads to. -/
theorem rsPrototab_octet (command : Command) : rsPrototab (UInt8.ofNat command.op).toNat = command.entry := by
  rw [UInt8.toNat_ofNat', Nat.mod_eq_of_lt command.op_lt]
  exact rsPrototab_op command

theorem params_length (command : Command) : command.params.length = command.entry.len1 + command.entry.len2 := by
  cases command <;> simp [params, entry]

end Command

theorem Verdict.short_ne_done (new content : Bytes) : Verdict.short .inputEnded new behind ≠ .ends .done content := by
  rw [Verdict.short]
  split <;> simp

/-- A copy is not the end. -/
theorem interpretCommand_copy_ne_done {content : Bytes} (behind : ∀ new, interpretCommands old new rest ≠ .ends .done content)
    (param1 param2 : ℕ) (new : Bytes) : interpretCommand old .copy param1 param2 new rest ≠ .ends .done content := by
  simp only [interpretCommand, interpretCopy]
  split_ifs
  · simp
  · simp
  · simp
  · simp
  · exact behind _

/-- Commands without the end command, or with one of them cut, are no delta. -/
theorem interpretCommands_cut (basis : Bytes) {commands : List Command} (formed : ∀ command ∈ commands, command.WellFormed)
    {count : ℕ} (cut : count < (deltaTail commands).length) (new content : Bytes) :
    interpretCommands basis new ((deltaTail commands).take count) ≠ .ends .done content := by
  induction commands generalizing count new with
  | nil =>
    have zero : count = 0 := by simpa [deltaTail, Command.encodeAll] using cut
    simp [zero, interpretCommands]
  | cons command left ih =>
    have formed' : ∀ command ∈ left, command.WellFormed := fun other member => formed other (List.mem_cons_of_mem _ member)
    have whole : deltaTail (command :: left) =
        UInt8.ofNat command.op :: (command.params ++ (command.payload ++ deltaTail left)) := by
      rw [deltaTail_cons, Command.netint_one _ command.op_lt]
      rfl
    have size := command.params_length
    rw [whole] at cut ⊢
    cases count with
    | zero => simp [interpretCommands]
    | succ count =>
      rw [List.take_succ_cons, interpretCommands_cons, Command.rsPrototab_octet, interpretParams]
      split
      · exact Verdict.short_ne_done new content
      next there =>
      have parameters : command.params.length ≤ count := by
        rw [size]
        rw [List.length_take] at there
        omega
      have split : (command.params ++ (command.payload ++ deltaTail left)).take count =
          command.params ++ (command.payload ++ deltaTail left).take (count - command.params.length) := by
        rw [List.take_append, List.take_of_length_le parameters]
      simp only [List.length_cons, List.length_append] at cut
      rw [split, ← size, List.drop_left]
      cases command with
      | copy position len =>
        refine interpretCommand_copy_ne_done (fun new => ih formed' ?_ new) _ _ new
        simp only [Command.payload, List.length_nil] at cut
        omega
      | literal data =>
        obtain ⟨-, short⟩ : data ≠ [] ∧ data.length ≤ bufLen := formed (.literal data) List.mem_cons_self
        simp only [bufLen] at short
        have some_ : rsIntLen data.length ≠ 0 := by
          rw [Command.rsIntLen_eq]
          positivity
        have ending : 0 < (deltaTail left).length := by simp [deltaTail]
        have number : ofNetint ((netint (rsIntLen data.length) data.length ++
            (data ++ deltaTail left).take (count - rsIntLen data.length)).take (rsIntLen data.length)) = data.length := by
          rw [List.take_left' (netint_length _ _), ofNetint_netint, Nat.mod_eq_of_lt (lt_rsIntLen _ (by omega))]
        simp only [Command.entry, Command.params, Command.payload, if_neg some_, netint_length, number, interpretCommand]
        rw [if_neg (by omega), Nat.mod_eq_of_lt (show data.length < 2 ^ 32 by omega), if_neg (by omega), List.drop_take,
          List.drop_left]
        refine ih formed' ?_ _
        simp only [Command.params, Command.payload, netint_length] at cut parameters
        omega

/-- A delta of `compute_delta` from which octets are missing at the end is not applied with success, whatever
the file it is applied to. -/
theorem cut_delta_rejected (qsort : Qsort) (sigStack searchStack : Stack) (old new delta : Bytes)
    (computed : deltaPipeline qsort sigStack searchStack (pipelineFuel old new) old new = .ok (some delta))
    (basis : Bytes) (count : ℕ) (cut : count < delta.length) (fuel : ℕ) (content : Bytes) :
    rsPatchFile fuel basis (delta.take count) ≠ .ok (.done, content) := by
  obtain rfl := deltaPipeline_eq_some le_rfl computed
  rw [deltaOctets, ← deltaTail] at cut ⊢
  have formed := deltaCommands_formed (deltaEnv qsort sigStack searchStack old) new
  generalize deltaCommands (deltaEnv qsort sigStack searchStack old) new = commands at *
  have rejected (content : Bytes) :
      interpretDelta basis ((netint 4 deltaMagic ++ deltaTail commands).take count) ≠ .ends .done content := by
    rw [interpretDelta]
    split_ifs with short magic
    · exact Verdict.short_ne_done [] content
    · simp
    · have header : 4 ≤ count := by
        rw [List.length_take] at short
        omega
      rw [List.take_append, List.take_of_length_le (by simpa using header), netint_length,
        List.drop_left' (netint_length _ _)]
      refine interpretCommands_cut basis formed ?_ [] content
      rw [List.length_append, netint_length] at cut
      exact Nat.sub_lt_left_of_lt_add header cut
  intro patched
  exact rejected content (rsPatchFile_done_iff.mp ⟨fuel, patched⟩)

theorem cut_delta_rejected_shifted :
    ∃ delta, deltaPipeline .stable (fun _ _ => 0) (fun _ _ => 0) (pipelineFuel [1, 2, 3] [7, 1, 2, 3]) [1, 2, 3]
        [7, 1, 2, 3] = .ok (some delta) ∧ 5 < delta.length ∧
      ∀ fuel content, rsPatchFile fuel [1, 2, 3] (delta.take 5) ≠ .ok (.done, content) := by
  have computed : ∃ delta, deltaPipeline .stable (fun _ _ => 0) (fun _ _ => 0) (pipelineFuel [1, 2, 3] [7, 1, 2, 3])
      [1, 2, 3] [7, 1, 2, 3] = .ok delta ∧ delta.any (5 < ·.length) = true := Except.exists_ok (by decide +kernel)
  obtain ⟨delta?, computed, long⟩ := computed
  obtain ⟨delta, rfl, long⟩ := Option.any_eq_true _ _ |>.mp long
  have long := of_decide_eq_true long
  exact ⟨delta, computed, long, cut_delta_rejected _ _ _ _ _ delta computed [1, 2, 3] 5 long⟩

end DeltaCFS
