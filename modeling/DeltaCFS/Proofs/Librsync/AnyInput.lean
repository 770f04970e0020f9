import DeltaCFS.Proofs.Librsync.Scoop
import DeltaCFS.Spec.Delta
import DeltaCFS.ToMathlib.Transition

/-! # Running a job to whatever end

A job that reads its input to a result it can be told from the input alone: it stops with a result
and what it has made of the input, it fails an assertion, or it waits for ever. Filling, draining, scooping and the tube do
not change what the rest of the input says, so that this is so as soon as no call of a state function
changes it; a copy may ask for more than there is.
-/

namespace DeltaCFS

open Bytes Job

variable {σ τ : Type} {job next : Job σ} {rest out : Bytes}

namespace Job

/-- The octets of the outstanding copy that are there. -/
def load (job : Job σ) (rest : Bytes) : ℕ := ((job.input rest).take job.copyLen).length

/-- The buffers fit together, whatever copy is outstanding. -/
structure Buffered (job : Job σ) (rest : Bytes) : Prop where
  ended : job.eofIn = true → rest = []
  detached : job.attached = false → job.written = [] ∧ job.availOut = 0
  room : job.attached = true → job.availOut + job.written.length = bufLen
  writeBuf : job.writeBuf = []

theorem Buffered.complete (buffered : job.Buffered rest) : ({ job with complete := true } : Job σ).Buffered rest :=
  ⟨buffered.ended, buffered.detached, buffered.room, buffered.writeBuf⟩

/-- Octets move from the input to the output buffer. -/
structure Passes (job next : Job σ) : Prop where
  shape : next = { job with
    written := next.written, availOut := next.availOut, scoop := next.scoop, nextIn := next.nextIn,
    copyLen := next.copyLen }
  emitted : ∀ out rest, next.emitted out rest = job.emitted out rest
  pending : ∀ rest, next.pending rest = job.pending rest
  room : next.availOut + next.written.length = job.availOut + job.written.length
  availOut : next.availOut ≤ job.availOut
  nextIn : next.nextIn.length ≤ job.nextIn.length
  scoop : next.scoop.length ≤ job.scoop.length
  copyLen : next.copyLen ≤ job.copyLen

namespace Passes

theorem refl (job : Job σ) : job.Passes job :=
  ⟨rfl, fun _ _ => rfl, fun _ => rfl, rfl, le_rfl, le_rfl, le_rfl, le_rfl⟩

theorem trans {middle : Job σ} (first : job.Passes middle) (second : middle.Passes next) : job.Passes next where
  shape := by rw [second.shape, first.shape]
  emitted out rest := (second.emitted out rest).trans (first.emitted out rest)
  pending rest := (second.pending rest).trans (first.pending rest)
  room := second.room.trans first.room
  availOut := second.availOut.trans first.availOut
  nextIn := second.nextIn.trans first.nextIn
  scoop := second.scoop.trans first.scoop
  copyLen := second.copyLen.trans first.copyLen

theorem own (passes : job.Passes next) : next.own = job.own := by rw [passes.shape]

theorem eofIn (passes : job.Passes next) : next.eofIn = job.eofIn := by rw [passes.shape]

theorem attached (passes : job.Passes next) : next.attached = job.attached := by rw [passes.shape]

theorem complete (passes : job.Passes next) : next.complete = job.complete := by rw [passes.shape]

theorem buffered (passes : job.Passes next) (buffered : job.Buffered rest) : next.Buffered rest where
  ended ended := buffered.ended (passes.eofIn ▸ ended)
  detached detached := by
    obtain ⟨written, availOut⟩ := buffered.detached (passes.attached ▸ detached)
    have room := passes.room
    rw [written, availOut, List.length_nil, Nat.add_eq_zero_iff, List.length_eq_zero_iff] at room
    exact room.symm
  room attached := passes.room.trans (buffered.room (passes.attached ▸ attached))
  writeBuf := by
    rw [passes.shape]
    exact buffered.writeBuf

/-- What is no longer to be copied has been written. -/
theorem load (passes : job.Passes next) (buffered : job.Buffered rest) :
    next.load rest + next.written.length = job.load rest + job.written.length := by
  have length := congrArg List.length (passes.emitted [] rest)
  simp only [Job.emitted, buffered.writeBuf, (passes.buffered buffered).writeBuf, List.nil_append,
    List.length_append] at length
  simp only [Job.load]
  omega

/-- Part of the outstanding copy goes from the front of the input to the output. -/
theorem of_copy (len : ℕ) (empty : job.writeBuf = []) (short : len ≤ job.copyLen) (fits : len ≤ job.availOut)
    (there : ∀ rest, len ≤ (job.input rest).length)
    (shape : next = { job with
      written := next.written, availOut := next.availOut, scoop := next.scoop, nextIn := next.nextIn,
      copyLen := next.copyLen })
    (input : ∀ rest, next.input rest = (job.input rest).drop len)
    (written : ∀ rest, next.written = job.written ++ (job.input rest).take len)
    (availOut : next.availOut = job.availOut - len) (copyLen : next.copyLen = job.copyLen - len)
    (nextIn : next.nextIn.length ≤ job.nextIn.length) (scoop : next.scoop.length ≤ job.scoop.length) :
    job.Passes next := by
  have stays : next.writeBuf = [] := by
    rw [shape]
    exact empty
  refine ⟨shape, fun out rest => ?_, fun rest => ?_, ?_, by omega, nextIn, scoop, by omega⟩
  · simp only [Job.emitted, stays, empty, input, written rest, copyLen, List.nil_append, List.append_assoc]
    rw [← List.take_add, Nat.add_sub_cancel' short]
  · simp only [Job.pending, input, copyLen, List.drop_drop, Nat.add_sub_cancel' short]
  · have size := there []
    rw [availOut, written [], List.length_append, List.length_take]
    omega

end Passes

end Job

/-! ## The tube -/

theorem rsTubeCopyFromScoop_passes (empty : job.writeBuf = []) : job.Passes (rsTubeCopyFromScoop job) := by
  have inScoop : min (min job.copyLen job.scoop.length) job.availOut ≤ job.scoop.length := by omega
  refine .of_copy _ empty (Nat.min_le_left .. |>.trans (Nat.min_le_left ..)) (Nat.min_le_right ..) (fun rest => ?_) rfl
    (fun rest => ?_) (fun rest => ?_) rfl rfl le_rfl (by simp [rsTubeCopyFromScoop])
  · rw [input, List.length_append]
    omega
  · simp only [input, rsTubeCopyFromScoop]
    rw [List.drop_append_of_le_length inScoop]
  · simp only [input, rsTubeCopyFromScoop]
    rw [List.take_append_of_le_length inScoop]

theorem rsBuffersCopy_passes (empty : job.writeBuf = []) (scooped : job.scoop = [] ∨ job.availOut = 0) :
    job.Passes (rsBuffersCopy job) := by
  have inNext : min (min job.copyLen job.nextIn.length) job.availOut ≤ job.nextIn.length := by omega
  refine .of_copy _ empty (Nat.min_le_left .. |>.trans (Nat.min_le_left ..)) (Nat.min_le_right ..) (fun rest => ?_) rfl
    (fun rest => ?_) (fun rest => ?_) rfl rfl (by simp [rsBuffersCopy]) le_rfl
  · rw [input, List.length_append, List.length_append]
    omega
  · rcases scooped with noScoop | noRoom
    · simp only [input, rsBuffersCopy, noScoop, List.nil_append]
      rw [List.drop_append_of_le_length inNext]
    · simp [input, rsBuffersCopy, noRoom]
  · rcases scooped with noScoop | noRoom
    · simp only [input, rsBuffersCopy, noScoop, List.nil_append]
      rw [List.take_append_of_le_length inNext]
    · simp [input, rsBuffersCopy, noRoom]

/-- The copy is made as far as there is room and input. -/
theorem rsTubeCatchupCopy_passes (empty : job.writeBuf = []) :
    job.Passes (rsTubeCatchupCopy job) ∧
      ((rsTubeCatchupCopy job).copyLen = 0 ∨ (rsTubeCatchupCopy job).availOut = 0 ∨
        ((rsTubeCatchupCopy job).scoop = [] ∧ (rsTubeCatchupCopy job).nextIn = [])) := by
  obtain ⟨middle, equation, passes, drained⟩ : ∃ middle,
      (if job.scoop ≠ [] then rsTubeCopyFromScoop job else job) = middle ∧ job.Passes middle ∧
        (middle.copyLen = 0 ∨ middle.availOut = 0 ∨ middle.scoop = []) := by
    by_cases scooped : job.scoop = []
    · exact ⟨job, by simp [scooped], .refl job, .inr (.inr scooped)⟩
    · refine ⟨rsTubeCopyFromScoop job, by simp [scooped], rsTubeCopyFromScoop_passes empty, ?_⟩
      simp only [rsTubeCopyFromScoop, List.drop_eq_nil_iff]
      omega
  have emptied : middle.writeBuf = [] := by
    rw [passes.shape]
    exact empty
  simp only [rsTubeCatchupCopy, equation]
  by_cases copied : middle.copyLen = 0
  · rw [if_neg (not_not.mpr copied)]
    exact ⟨passes, .inl copied⟩
  · rw [if_pos copied]
    refine ⟨passes.trans (rsBuffersCopy_passes emptied (by tauto)), ?_⟩
    simp only [rsBuffersCopy, List.drop_eq_nil_iff]
    rcases drained with none | full | noScoop
    · exact absurd none copied
    · omega
    · rw [noScoop]
      simp only [true_and]
      omega

/-- The copy is done, waits for room or input, or finds the end of the input. -/
theorem rsTubeCatchup_passes (buffered : job.Buffered rest) :
    ∃ result next, rsTubeCatchup job = (result, next) ∧ job.Passes next ∧
      ((result = .done ∧ next.copyLen = 0) ∨
        (result = .blocked ∧ next.copyLen ≠ 0 ∧ (next.availOut = 0 ∨ (next.nextIn = [] ∧ next.eofIn = false))) ∨
        (result = .inputEnded ∧ next.copyLen ≠ 0 ∧ next.input rest = [])) := by
  have empty := buffered.writeBuf
  by_cases copied : job.copyLen = 0
  · refine ⟨.done, job, ?_, .refl job, .inl ⟨rfl, copied⟩⟩
    simp [rsTubeCatchup, empty, copied]
  obtain ⟨passes, left⟩ := rsTubeCatchupCopy_passes empty
  have value : rsTubeCatchup job = if (rsTubeCatchupCopy job).copyLen ≠ 0 then
      if (rsTubeCatchupCopy job).eofIn && (rsTubeCatchupCopy job).nextIn.isEmpty &&
        (rsTubeCatchupCopy job).scoop.isEmpty then (.inputEnded, rsTubeCatchupCopy job)
      else (.blocked, rsTubeCatchupCopy job)
    else (.done, rsTubeCatchupCopy job) := by
    simp [rsTubeCatchup, empty, copied]
  rw [value]
  split_ifs with behind ended
  · simp only [Bool.and_eq_true, List.isEmpty_iff] at ended
    obtain ⟨⟨ended, noInput⟩, noScoop⟩ := ended
    refine ⟨_, _, rfl, passes, .inr (.inr ⟨rfl, behind, ?_⟩)⟩
    rw [input, noScoop, noInput, (passes.buffered buffered).ended ended]
    rfl
  · refine ⟨_, _, rfl, passes, .inr (.inl ⟨rfl, behind, ?_⟩)⟩
    rcases left with none | full | ⟨noScoop, noInput⟩
    · exact absurd none behind
    · exact .inl full
    · refine .inr ⟨noInput, ?_⟩
      simpa [noScoop, noInput] using ended
  · exact ⟨_, _, rfl, passes, .inl ⟨rfl, not_not.mp behind⟩⟩

/-! ## State functions -/

/-- The next state differs in buffers and own fields only, and the input moves forward. -/
structure Job.Advances (job next : Job σ) (rest : Bytes) : Prop where
  buffered : next.Buffered rest
  eofIn : next.eofIn = job.eofIn
  attached : next.attached = job.attached
  complete : next.complete = job.complete
  nextIn : next.nextIn.length ≤ job.nextIn.length

theorem Job.Passes.advances (passes : job.Passes next) (buffered : job.Buffered rest) : job.Advances next rest :=
  ⟨passes.buffered buffered, passes.eofIn, passes.attached, passes.complete, passes.nextIn⟩

/-- What is left to do in a call of `rs_job_work`. -/
def Job.effort (potential : σ → Bytes → ℕ) (job : Job σ) (rest : Bytes) : ℕ :=
  potential job.own (job.pending rest) + job.load rest + job.written.length

theorem Job.Passes.effort (passes : job.Passes next) (buffered : job.Buffered rest) (potential : σ → Bytes → ℕ) :
    next.effort potential rest = job.effort potential rest := by
  have load := passes.load buffered
  simp only [Job.effort, passes.own, passes.pending]
  omega

theorem Job.Advances.trans {first second third : Job σ} (one : first.Advances second rest)
    (two : second.Advances third rest) : first.Advances third rest :=
  ⟨two.buffered, two.eofIn.trans one.eofIn, two.attached.trans one.attached, two.complete.trans one.complete,
    two.nextIn.trans one.nextIn⟩

/-- What a call of a state function with an idle tube has to establish: whatever it does, the input
tells what it told before. -/
inductive Job.Reads (verdict : σ → Bytes → Bytes → Verdict τ) (value : σ → Bytes → τ) (potential : σ → Bytes → ℕ)
    (Fits : σ → ℕ → ℕ → Prop) (Fresh : σ → Prop) (hasOut : Bool) (job next : Job σ) (rest : Bytes) : Result → Prop
  | running (tells : ∀ out, verdict next.own (next.emitted out rest) (next.pending rest) =
        verdict job.own (job.emitted out rest) (job.pending rest))
      (fits : Fits next.own next.scoop.length next.copyLen)
      (fresh : Fresh next.own → Fresh job.own ∨ next.nextIn.length < job.nextIn.length)
      (pays : next.effort potential rest + 1 ≤ job.effort potential rest) :
      Reads verdict value potential Fits Fresh hasOut job next rest .running
  | blocked (tells : ∀ out, verdict next.own (next.emitted out rest) (next.pending rest) =
        verdict job.own (job.emitted out rest) (job.pending rest))
      (fits : Fits next.own next.scoop.length next.copyLen) (settled : ¬ Fresh next.own)
      (pays : next.effort potential rest ≤ job.effort potential rest)
      (waits : (hasOut = true ∧ next.availOut = 0) ∨ ∀ out,
        (next.nextIn = [] → next.eofIn = true → verdict next.own (next.emitted out rest) (next.pending rest) = .never) ∧
        (next.nextIn ≠ [] → hasOut = true ∧ next.copyLen = 0 ∧
          verdict next.own (next.emitted out rest) (next.pending rest) =
            .ends .internalError (value next.own (next.emitted out rest)))) :
      Reads verdict value potential Fits Fresh hasOut job next rest .blocked
  | ends (result : Result) (tells : ∀ out, verdict job.own (job.emitted out rest) (job.pending rest) =
        .ends result (value next.own (next.emitted out rest)))
      (idle : next.copyLen = 0) (moved : result = .done → Fresh job.own ∨ next.nextIn = [])
      (other : result ≠ .running ∧ result ≠ .blocked) :
      Reads verdict value potential Fits Fresh hasOut job next rest result

/-- A specification of the state functions of a job whose end can be told from its input. `Fits` bounds
the scoop and the outstanding copy; `Fresh` are the states in which the job has just read something. -/
structure Reader (statefn : Job σ → Except Abort (Result × Job σ)) (hasOut : Bool) (τ : Type) where
  verdict : σ → Bytes → Bytes → Verdict τ
  value : σ → Bytes → τ
  potential : σ → Bytes → ℕ
  Fits : σ → ℕ → ℕ → Prop
  Fresh : σ → Prop
  shrinks {own : σ} {scoop scoop' copy copy' : ℕ} : Fits own scoop copy → scoop' ≤ scoop → copy' ≤ copy →
    Fits own scoop' copy'
  /-- A copy that finds the end of the input. -/
  starves {own : σ} {scoop copy : ℕ} {emitted : Bytes} : Fits own scoop copy → copy ≠ 0 →
    hasOut = true ∧ ¬ Fresh own ∧ verdict own emitted [] = .ends .inputEnded (value own emitted)
  call {job : Job σ} {rest : Bytes} : job.Buffered rest → job.copyLen = 0 →
    Fits job.own job.scoop.length 0 →
    (statefn job = .error .assertion ∧ ∀ out, verdict job.own (job.emitted out rest) (job.pending rest) = .aborts) ∨
    ∃ result next, statefn job = .ok (result, next) ∧ job.Advances next rest ∧
      job.Reads verdict value potential Fits Fresh hasOut next rest result

namespace Reader

variable {statefn : Job σ → Except Abort (Result × Job σ)} {hasOut : Bool} (reader : Reader statefn hasOut τ)

/-- What the job and the rest of its input say. -/
def tells (job : Job σ) (out rest : Bytes) : Verdict τ :=
  reader.verdict job.own (job.emitted out rest) (job.pending rest)

/-- A running job that came from `job` without changing what is said. -/
structure Within (job next : Job σ) (rest : Bytes) : Prop extends job.Advances next rest where
  running : next.complete = false
  fits : reader.Fits next.own next.scoop.length next.copyLen
  tells : ∀ out, reader.tells next out rest = reader.tells job out rest
  fresh : reader.Fresh next.own → next.nextIn.length < job.nextIn.length
  effort : next.effort reader.potential rest ≤ job.effort reader.potential rest

/-- How `rs_job_work` leaves a job. -/
inductive Left (job next : Job σ) (rest : Bytes) : Result → Prop
  | blocked (within : reader.Within job next rest) (settled : ¬ reader.Fresh next.own)
      (waits : (hasOut = true ∧ next.availOut = 0) ∨ ∀ out,
        (next.nextIn = [] → next.eofIn = true → reader.tells next out rest = .never) ∧
        (next.nextIn ≠ [] → hasOut = true ∧ next.copyLen = 0 ∧
          reader.tells next out rest = .ends .internalError (reader.value next.own (next.emitted out rest)))) :
      Left job next rest .blocked
  | ends (result : Result) (advances : next.Buffered rest)
      (attached : next.attached = job.attached)
      (tells : ∀ out, reader.tells job out rest = .ends result (reader.value next.own (next.emitted out rest)))
      (empty : ∀ out, next.emitted out rest = out ++ next.written)
      (moved : result = .done → next.nextIn.length < job.nextIn.length ∨ next.nextIn = [])
      (other : result ≠ .running ∧ result ≠ .blocked) : Left job next rest result

variable {reader}

theorem Within.passes {middle : Job σ} (within : reader.Within job middle rest) (passes : middle.Passes next) :
    reader.Within job next rest where
  toAdvances := within.toAdvances.trans (passes.advances within.buffered)
  running := passes.complete.trans within.running
  fits := passes.own ▸ reader.shrinks within.fits passes.scoop passes.copyLen
  tells out := by
    rw [← within.tells out]
    simp only [Reader.tells, passes.own, passes.emitted, passes.pending]
  fresh fresh := passes.nextIn.trans_lt (within.fresh (passes.own ▸ fresh))
  effort := (passes.effort within.buffered _).trans_le within.effort

theorem emitted_of_empty {out : Bytes} (buffered : job.Buffered rest)
    (nothing : job.copyLen = 0 ∨ job.input rest = []) : job.emitted out rest = out ++ job.written := by
  rcases nothing with idle | empty
  · simp only [Job.emitted, buffered.writeBuf, idle, List.take_zero, List.append_nil]
  · simp only [Job.emitted, buffered.writeBuf, empty, List.take_nil, List.append_nil]

/-- One round of `rs_job_work`. -/
theorem rsJobRound_left {state : Job σ} (within : reader.Within job state rest) :
    (∃ failure, rsJobRound statefn state = .error failure ∧ failure = .assertion ∧
      ∀ out, reader.tells job out rest = .aborts) ∨
    Round.Keeps (fun next => reader.Within job next rest) (fun next => next.effort reader.potential rest)
      (fun final : Result × Job σ => reader.Left job final.2 rest final.1) state (rsJobRound statefn state) := by
  obtain ⟨result, middle, caught, passes, ended⟩ := rsTubeCatchup_passes within.buffered
  have within' := within.passes passes
  rcases ended with ⟨rfl, idle⟩ | ⟨rfl, busy, waits⟩ | ⟨rfl, busy, empty⟩
  · have running := within'.running
    rcases reader.call within'.buffered idle (idle ▸ within'.fits) with
      ⟨failed, aborts⟩ | ⟨result, next, called, advances, reads⟩
    · refine .inl ⟨.assertion, ?_, rfl, fun out => (within'.tells out).symm.trans (aborts out)⟩
      simp only [rsJobRound, caught, running, failed, bind, Except.bind]
      rfl
    right
    have advances' := within'.toAdvances.trans advances
    have value : rsJobRound statefn state = .ok (if result = .running then .again next
        else if result = .blocked then .stop (.blocked, next) else .stop (rsJobComplete result next)) := by
      simp only [rsJobRound, caught, running, called, bind, Except.bind]
      cases result <;> rfl
    rw [value]
    cases reads with
    | running tells fits fresh pays =>
      refine .inr ⟨next, rfl, ⟨advances', advances.complete.trans running, fits,
        fun out => (tells out).trans (within'.tells out), fun now => ?_, ?_⟩, ?_⟩
      · rcases fresh now with before | shorter
        · exact advances.nextIn.trans_lt (within'.fresh before)
        · exact shorter.trans_le within'.nextIn
      · exact (Nat.le_of_succ_le pays).trans within'.effort
      · exact pays.trans_eq (passes.effort within.buffered _)
    | blocked tells fits settled pays waits =>
      refine .inl ⟨(.blocked, next), rfl, .blocked ⟨advances', advances.complete.trans running, fits,
        fun out => (tells out).trans (within'.tells out), fun now => absurd now settled, pays.trans within'.effort⟩
        settled waits⟩
    | ends _ tells idle moved other =>
      refine .inl ⟨rsJobComplete result next, ?_, ?_⟩
      · rw [if_neg other.1, if_neg other.2]
      · have still : rsTubeIsIdle { next with complete := true } = true := by
          simp [rsTubeIsIdle, advances.buffered.writeBuf, idle]
        have completes : rsJobComplete result next = (result, { next with complete := true }) := by
          simp [rsJobComplete, still]
        rw [completes]
        have buffered := advances.buffered.complete
        refine .ends result buffered advances'.attached (fun out => (within'.tells out).symm.trans (tells out))
          (fun out => emitted_of_empty buffered (.inl idle)) (fun done => ?_) other
        exact (moved done).imp_left fun fresh => advances.nextIn.trans_lt (within'.fresh fresh)
  · obtain ⟨out, settled, -⟩ := @reader.starves _ _ _ [] within'.fits busy
    right
    refine .inl ⟨(.blocked, middle), by simp [rsJobRound, caught], .blocked within' settled ?_⟩
    rcases waits with full | ⟨starved, unread⟩
    · exact .inl ⟨out, full⟩
    · refine .inr fun out => ⟨fun _ ended => ?_, fun some_ => absurd starved some_⟩
      rw [unread] at ended
      cases ended
  · have none : middle.pending rest = [] := by rw [pending, empty, List.drop_nil]
    have buffered := within'.buffered.complete
    right
    refine .inl ⟨(.inputEnded, { middle with complete := true }),
      by simp [rsJobRound, caught, rsJobComplete], .ends _ buffered within'.attached (fun out => ?_)
        (fun out => emitted_of_empty buffered (.inr empty)) (by simp) (by simp)⟩
    rw [← within'.tells out, Reader.tells, none]
    exact (reader.starves within'.fits busy).2.2

/-! ## Driving a job -/

/-- A running job between two rounds of `rs_job_drive`. -/
structure Ready (reader : Reader statefn hasOut τ) (job : Job σ) (rest : Bytes) : Prop where
  buffered : job.Buffered rest
  running : job.complete = false
  fits : reader.Fits job.own job.scoop.length job.copyLen
  settled : ¬ reader.Fresh job.own
  drained : job.written = []
  attached : job.attached = true → hasOut = true

/-- `rs_job_iter` ends as the input tells, or there is more to read or to drain, or the job never ends. -/
theorem rsJobIter_left {fuel : ℕ} (ready : reader.Ready job rest) (filled : job.nextIn = [] → job.eofIn = true)
    (enough : job.effort reader.potential rest < fuel) :
    (rsJobIter statefn fuel job = .error .assertion ∧ ∀ out, reader.tells job out rest = .aborts) ∨
    ∃ result next, rsJobIter statefn fuel job = .ok (result, next) ∧
      ((result = .blocked ∧ reader.Within job next rest ∧ ¬ reader.Fresh next.own ∧
        (next.nextIn.length < job.nextIn.length ∨ (hasOut = true ∧ (next.attached = true → next.written ≠ [])) ∨
          ∀ out, reader.tells next out rest = .never)) ∨
      (result ≠ .blocked ∧ next.Buffered rest ∧ next.attached = job.attached ∧ ∀ out,
        reader.tells job out rest = .ends result (reader.value next.own (next.emitted out rest)) ∧
        next.emitted out rest = out ++ next.written)) := by
  have start : reader.Within job job rest :=
    ⟨⟨ready.buffered, rfl, rfl, rfl, le_rfl⟩, ready.running, ready.fits, fun _ => rfl,
      fun fresh => absurd fresh ready.settled, le_rfl⟩
  rcases @Round.loop_ends _ _ _ Abort.outOfFuel _ (fun state => reader.Within job state rest)
      (fun state => state.effort reader.potential rest) _ _ (fun state => rsJobRound_left) _ _ start enough with
    ⟨_, failed, rfl, aborts⟩ | ⟨⟨result, next⟩, worked, left⟩
  · left
    refine ⟨?_, aborts⟩
    simp only [rsJobIter, rsJobWork, failed, bind, Except.bind]
  right
  dsimp only at left
  have iterated : rsJobIter statefn fuel job = if (result = .blocked ∨ result = .done) ∧
      job.nextIn.length = next.nextIn.length ∧ job.availOut = next.availOut ∧ job.nextIn.length ≠ 0 ∧
        job.availOut ≠ 0 then .ok (.internalError, next) else .ok (result, next) := by
    simp only [rsJobIter, rsJobWork, worked, bind, Except.bind, pure, Except.pure]
  rw [iterated]
  cases left with
  | ends _ buffered attached tells empty moved other =>
    have progress : ¬ ((result = .blocked ∨ result = .done) ∧ job.nextIn.length = next.nextIn.length ∧
        job.availOut = next.availOut ∧ job.nextIn.length ≠ 0 ∧ job.availOut ≠ 0) := by
      rintro ⟨blocked | done, sameIn, -, someIn, -⟩
      · exact other.2 blocked
      · rcases moved done with shorter | nothing
        · omega
        · exact someIn (by rw [sameIn, nothing]; rfl)
    rw [if_neg progress]
    exact ⟨result, next, rfl, .inr ⟨other.2, buffered, attached, fun out => ⟨tells out, empty out⟩⟩⟩
  | blocked within settled waits =>
    -- the output buffer was empty
    have drains (less : next.availOut ≠ bufLen) : next.attached = true → next.written ≠ [] := by
      intro attached nothing
      have room := within.buffered.room attached
      rw [nothing] at room
      exact less room
    have whole (attached : job.attached = true) : job.availOut = bufLen := by
      have room := ready.buffered.room attached
      rw [ready.drained] at room
      exact room
    by_cases stuck : job.nextIn.length = next.nextIn.length ∧ job.availOut = next.availOut ∧
        job.nextIn.length ≠ 0 ∧ job.availOut ≠ 0
    · rw [if_pos ⟨.inl rfl, stuck⟩]
      obtain ⟨sameIn, sameOut, someIn, someOut⟩ := stuck
      rcases waits with ⟨-, full⟩ | waits
      · exact absurd (sameOut.trans full) someOut
      · have some_ : next.nextIn ≠ [] := fun none => someIn (by rw [sameIn, none]; rfl)
        refine ⟨_, next, rfl, .inr ⟨by decide, within.buffered, within.attached, fun out => ?_⟩⟩
        obtain ⟨-, idle, tells⟩ := (waits out).2 some_
        exact ⟨(within.tells out).symm.trans tells, emitted_of_empty within.buffered (.inl idle)⟩
    · rw [if_neg fun stuck' => stuck stuck'.2]
      refine ⟨_, next, rfl, .inl ⟨rfl, within, settled, ?_⟩⟩
      rcases waits with ⟨out, full⟩ | waits
      · exact .inr (.inl ⟨out, drains (by rw [full]; decide)⟩)
      by_cases starved : next.nextIn = []
      · by_cases before : job.nextIn = []
        · exact .inr (.inr fun out => (waits out).1 starved (within.eofIn.trans (filled before)))
        · rw [starved]
          exact .inl (List.length_pos_of_ne_nil before)
      · have out := ((waits []).2 starved).1
        have shorter := within.nextIn
        have some_ := List.length_pos_of_ne_nil starved
        by_cases attached : job.attached = true
        · have room := whole attached
          have positive : bufLen ≠ 0 := by decide
          by_cases sameIn : job.nextIn.length = next.nextIn.length
          · exact .inr (.inl ⟨out, drains fun same => stuck ⟨sameIn, room.trans same.symm, by omega, by omega⟩⟩)
          · exact .inl (by omega)
        · exact .inr (.inl ⟨out, fun attached' => absurd (within.attached ▸ attached') attached⟩)

/-- Filling moves input from the file to the job; then the job has input, or knows that there is none. -/
theorem rsInfilebufFill_moves {file : InFile} (ended : job.eofIn = true → file.rest = [])
    (feof : file.feof = true → file.rest = []) :
    ∃ next file', (if job.eofIn then (job, file) else rsInfilebufFill job file) = (next, file') ∧
      next = { job with nextIn := next.nextIn, eofIn := next.eofIn } ∧ next.input file'.rest = job.input file.rest ∧
      (next.eofIn = true → file'.rest = []) ∧ (file'.feof = true → file'.rest = []) ∧
      (next.nextIn = [] → next.eofIn = true) ∧
      2 * file'.rest.length + next.nextIn.length + (if next.eofIn then 0 else 1) ≤
        2 * file.rest.length + job.nextIn.length + (if job.eofIn then 0 else 1) := by
  by_cases atEnd : job.eofIn = true
  · exact ⟨job, file, if_pos atEnd, rfl, rfl, ended, feof, fun _ => atEnd, le_rfl⟩
  rw [if_neg atEnd, if_neg atEnd, rsInfilebufFill]
  by_cases done : file.feof = true
  · refine ⟨_, _, if_pos (by simp [done]), rfl, rfl, fun _ => feof done, feof, fun _ => rfl, ?_⟩
    simp only [↓reduceIte]
    omega
  rw [if_neg (by simp [atEnd, done])]
  by_cases buffered : job.nextIn = []
  · rw [if_neg (not_not.mpr buffered)]
    have short : decide (file.rest.length < bufLen) = true → file.rest.drop bufLen = [] :=
      fun short => List.drop_eq_nil_of_le (Nat.le_of_lt (of_decide_eq_true short))
    by_cases exhausted : file.rest = []
    · refine ⟨_, _, if_pos exhausted, rfl, ?_, fun _ => ?_, short, fun _ => rfl, ?_⟩
      · simp only [input, exhausted, List.drop_nil]
      · rw [exhausted, List.drop_nil]
      · simp only [exhausted, List.drop_nil, ↓reduceIte]
        omega
    · refine ⟨_, _, if_neg exhausted, rfl, ?_, fun atEof => absurd atEof atEnd, short, fun empty => ?_, ?_⟩
      · simp only [input, List.take_append_drop, buffered, List.nil_append]
      · simp [List.take_eq_nil_iff, exhausted, bufLen] at empty
      · simp only [buffered, List.length_take, List.length_drop, List.length_nil, atEnd, Bool.false_eq_true, ↓reduceIte]
        omega
  · refine ⟨job, file, if_pos buffered, rfl, rfl, ended, feof, fun empty => absurd empty buffered, ?_⟩
    rw [if_neg atEnd]

/-- Filling changes nothing else. -/
theorem Ready.of_fill {rest' : Bytes} (ready : reader.Ready job rest)
    (shape : next = { job with nextIn := next.nextIn, eofIn := next.eofIn }) (whole : next.input rest' = job.input rest)
    (ended : next.eofIn = true → rest' = []) : reader.Ready next rest' ∧
      (∀ out, reader.tells next out rest' = reader.tells job out rest) ∧
      next.effort reader.potential rest' = job.effort reader.potential rest := by
  obtain ⟨⟨-, detached, room, writeBuf⟩, running, fits, settled, drained, attached⟩ := ready
  rw [shape] at whole ended ⊢
  refine ⟨⟨⟨ended, detached, room, writeBuf⟩, running, fits, settled, drained, attached⟩, fun out => ?_, ?_⟩
  · simp only [Reader.tells, emitted, pending, whole]
  · simp only [Job.effort, Job.load, pending, whole]

/-- Draining hands the written octets over. -/
theorem rsOutfilebufDrain_moves (buffered : job.Buffered rest) (out : Bytes) :
    ∃ next, rsOutfilebufDrain job out = (next, out ++ job.written) ∧
      next = { job with written := [], availOut := bufLen, attached := true } := by
  rw [rsOutfilebufDrain]
  cases attached : job.attached with
  | true =>
    have room := buffered.room attached
    by_cases nothing : job.written = []
    · rw [nothing] at room
      refine ⟨job, by simp [nothing], ?_⟩
      cases job
      simp_all
    · exact ⟨{ job with written := [], availOut := bufLen, attached := true },
        by rw [if_pos rfl, if_pos nothing], rfl⟩
  | false =>
    have nothing := (buffered.detached attached).1
    exact ⟨{ job with written := [], availOut := bufLen, attached := true },
      by rw [if_neg Bool.false_ne_true, nothing, List.append_nil], rfl⟩

/-- A job that goes on, drained or without an output file. -/
theorem Within.drain (within : reader.Within job next rest) (settled : ¬ reader.Fresh next.own)
    (attached : job.attached = true → hasOut = true) (out : Bytes) :
    ∃ next' out', (if hasOut then rsOutfilebufDrain next out else (next, out)) = (next', out') ∧
      reader.Ready next' rest ∧ reader.tells next' out' rest = reader.tells next out rest ∧
      next'.nextIn = next.nextIn ∧ next'.eofIn = next.eofIn ∧ next'.attached = (hasOut || next.attached) ∧
      next'.effort reader.potential rest + next.written.length = next.effort reader.potential rest := by
  have buffered := within.buffered
  by_cases hasFile : hasOut = true
  · obtain ⟨next', drain, rfl⟩ := rsOutfilebufDrain_moves buffered out
    refine ⟨_, _, (if_pos hasFile).trans drain, ⟨⟨buffered.ended, by simp, fun _ => rfl, buffered.writeBuf⟩,
      within.running, within.fits, settled, rfl, fun _ => hasFile⟩, ?_, rfl, rfl, by rw [hasFile]; rfl, ?_⟩
    · simp only [Reader.tells, emitted, pending, input, List.nil_append, List.append_assoc]
    · simp only [Job.effort, Job.load, pending, input, List.length_nil, Nat.add_zero]
  · have detached : next.attached = false := by
      rw [within.attached, ← Bool.not_eq_true]
      exact fun ready => hasFile (attached ready)
    have nothing := (buffered.detached detached).1
    refine ⟨next, out, if_neg hasFile, ⟨buffered, within.running, within.fits, settled, nothing, ?_⟩, rfl, rfl, rfl,
      ?_, ?_⟩
    · simp [detached]
    · rw [Bool.eq_false_iff.mpr hasFile, Bool.false_or]
    · rw [nothing, List.length_nil, Nat.add_zero]

/-- The states between the rounds of `rs_job_drive`. -/
structure Driven (reader : Reader statefn hasOut τ) (state : Job σ × InFile × Bytes) : Prop where
  ready : reader.Ready state.1 state.2.1.rest
  feof : state.2.1.feof = true → state.2.1.rest = []

/-- Unread input counts twice, since reading and scooping it are both progress. -/
def driveEffort (reader : Reader statefn hasOut τ) (state : Job σ × InFile × Bytes) : ℕ :=
  state.1.effort reader.potential state.2.1.rest + 2 * state.2.1.rest.length + state.1.nextIn.length +
    (if state.1.eofIn then 0 else 1) + (if state.1.attached then 0 else 1)

/-- How a job may end that is told to end. What a failed job has put out last is lost. -/
def Ends (reader : Reader statefn hasOut τ) (told : Verdict τ) (final : Result × Job σ × Bytes) : Prop :=
  told = .ends final.1 (reader.value final.2.1.own (final.2.2 ++ final.2.1.written)) ∧
    final.2.1.written.length ≤ bufLen ∧ (final.1 = .done → final.2.1.written = [])

/-- One round of `rs_job_drive`. -/
theorem rsDriveRound_left {fuel : ℕ} {state : Job σ × InFile × Bytes} (driven : reader.Driven state)
    (enough : reader.driveEffort state < fuel) :
    (rsDriveRound statefn fuel hasOut state = .error .assertion ∧
      reader.tells state.1 state.2.2 state.2.1.rest = .aborts) ∨
    (∃ final, rsDriveRound statefn fuel hasOut state = .ok (.stop final) ∧
      reader.Ends (reader.tells state.1 state.2.2 state.2.1.rest) final) ∨
    ∃ next, rsDriveRound statefn fuel hasOut state = .ok (.again next) ∧ reader.Driven next ∧
      reader.tells next.1 next.2.2 next.2.1.rest = reader.tells state.1 state.2.2 state.2.1.rest ∧
      reader.driveEffort next ≤ reader.driveEffort state ∧
      (reader.driveEffort next < reader.driveEffort state ∨
        reader.tells state.1 state.2.2 state.2.1.rest = .never) := by
  obtain ⟨job, file, out⟩ := state
  obtain ⟨filled, file', fill, shape, whole, ended, feof, starved, read⟩ :=
    rsInfilebufFill_moves driven.ready.buffered.ended driven.feof
  obtain ⟨ready, told, effort⟩ := driven.ready.of_fill shape whole ended
  dsimp only at fill read told effort ended feof starved
  have attached : filled.attached = job.attached := by rw [shape]
  have within_fuel : filled.effort reader.potential file'.rest < fuel := by
    simp only [driveEffort] at enough
    omega
  rcases rsJobIter_left ready starved within_fuel with ⟨failed, aborts⟩ | ⟨result, next, iterated, left⟩
  · left
    refine ⟨?_, (told out).symm.trans (aborts out)⟩
    simp only [rsDriveRound, fill, failed, bind, Except.bind]
  right
  simp only [rsDriveRound, fill, iterated, bind, Except.bind, pure, Except.pure]
  rcases left with ⟨rfl, within, settled, progress⟩ | ⟨other, buffered, attached', tells⟩
  · right
    obtain ⟨next', out', drain, ready', told', nextIn, eofIn, attached', effort'⟩ :=
      within.drain settled ready.attached out
    rw [drain]
    have same : reader.tells next' out' file'.rest = reader.tells job out file.rest :=
      told'.trans ((within.tells out).trans (told out))
    refine ⟨(next', file', out'), by simp, ⟨ready', feof⟩, same, ?_⟩
    have spent := within.effort
    have shorter := within.nextIn
    have attaches : (if next'.attached then 0 else 1) ≤ (if filled.attached then 0 else 1) := by
      rw [attached', within.attached]
      cases filled.attached <;> cases hasOut <;> decide
    rw [attached] at attaches
    simp only [driveEffort, nextIn, eofIn, within.eofIn]
    refine ⟨by omega, ?_⟩
    rcases progress with less | ⟨out_, drained⟩ | never
    · left
      omega
    · left
      cases ready_ : filled.attached with
      | true =>
        have positive := List.length_pos_of_ne_nil (drained (within.attached.trans ready_))
        omega
      | false =>
        rw [attached] at ready_
        simp only [attached', out_, Bool.true_or, ready_, ↓reduceIte, Bool.false_eq_true]
        omega
    · right
      rw [← told out, ← within.tells out]
      exact never out
  · left
    have told' := (told out).symm.trans (tells out).1
    rw [(tells out).2] at told'
    have short : next.written.length ≤ bufLen := by
      cases ready_ : next.attached with
      | true =>
        have room := buffered.room ready_
        omega
      | false => simp [(buffered.detached ready_).1]
    by_cases done : result = .done
    · subst done
      by_cases hasFile : hasOut = true
      · obtain ⟨drained, drain, rfl⟩ := rsOutfilebufDrain_moves buffered out
        rw [if_neg (by decide), if_pos hasFile, drain]
        refine ⟨_, if_pos rfl, ?_, Nat.zero_le _, fun _ => rfl⟩
        rw [List.append_nil]
        exact told'
      · have detached : next.attached = false := by
          rw [attached', ← Bool.not_eq_true]
          exact fun ready_ => hasFile (ready.attached ready_)
        rw [if_neg (by decide), if_neg hasFile]
        exact ⟨_, if_pos rfl, told', short, fun _ => (buffered.detached detached).1⟩
    · rw [if_pos ⟨done, other⟩]
      exact ⟨_, rfl, told', short, fun done' => absurd done' done⟩

/-- More fuel does not change how a job ends. -/
theorem rsDriveRound_stable {fuel fuel' : ℕ} (more : fuel ≤ fuel') (state : Job σ × InFile × Bytes)
    (ends : rsDriveRound statefn fuel hasOut state ≠ .error .outOfFuel) :
    rsDriveRound statefn fuel' hasOut state = rsDriveRound statefn fuel hasOut state := by
  obtain ⟨job, file, out⟩ := state
  simp only [rsDriveRound] at ends ⊢
  generalize (if job.eofIn then (job, file) else rsInfilebufFill job file) = filled at ends ⊢
  have same : rsJobIter statefn fuel' filled.1 = rsJobIter statefn fuel filled.1 := by
    have worked : rsJobWork statefn fuel filled.1 ≠ .error .outOfFuel := by
      intro exhausted
      simp [rsJobIter, exhausted, bind, Except.bind] at ends
    simp only [rsJobIter, rsJobWork] at worked ⊢
    rw [Round.loop_stable Abort.outOfFuel (fun _ _ => rfl) more worked]
  rw [same]

theorem rsWholeRun_stable {own : σ} {data : Bytes} {fuel fuel' : ℕ} (more : fuel ≤ fuel')
    (ends : rsWholeRun statefn fuel hasOut own data ≠ .error .outOfFuel) :
    rsWholeRun statefn fuel' hasOut own data = rsWholeRun statefn fuel hasOut own data :=
  Round.loop_stable Abort.outOfFuel (rsDriveRound_stable more) more ends

variable (reader)

/-- A new job has all of its input before it. -/
theorem driven_new (own : σ) (data : Bytes) (fits : reader.Fits own 0 0) (settled : ¬ reader.Fresh own) :
    reader.Driven (Job.new own, ⟨data, false⟩, []) ∧
      reader.tells (Job.new own) [] data = reader.verdict own [] data ∧
      reader.driveEffort (Job.new own, ⟨data, false⟩, []) = reader.potential own data + 2 * data.length + 2 := by
  refine ⟨⟨⟨⟨by simp [Job.new], fun _ => ⟨rfl, rfl⟩, by simp [Job.new], rfl⟩, rfl, fits, settled, rfl,
    by simp [Job.new]⟩, by simp⟩, rfl, ?_⟩
  simp [driveEffort, Job.effort, Job.load, pending, input, Job.new]

/-- With fuel the job does what its input tells, if that is not to go on for ever. -/
theorem rsWholeRun_told {own : σ} {data : Bytes} (fits : reader.Fits own 0 0) (settled : ¬ reader.Fresh own)
    {told : Verdict τ} (said : reader.verdict own [] data = told) (finite : told ≠ .never) {fuel : ℕ}
    (enough : reader.potential own data + 2 * data.length + 2 < fuel) :
    (rsWholeRun statefn fuel hasOut own data = .error .assertion ∧ told = .aborts) ∨
      ∃ final, rsWholeRun statefn fuel hasOut own data = .ok final ∧ reader.Ends told final := by
  obtain ⟨driven, tells, effort⟩ := reader.driven_new own data fits settled
  have round : ∀ state, reader.Driven state ∧ reader.driveEffort state < fuel ∧
      reader.tells state.1 state.2.2 state.2.1.rest = told →
      (∃ failure, rsDriveRound statefn fuel hasOut state = .error failure ∧ failure = .assertion ∧ told = .aborts) ∨
      Round.Keeps (fun state => reader.Driven state ∧ reader.driveEffort state < fuel ∧
        reader.tells state.1 state.2.2 state.2.1.rest = told) reader.driveEffort
        (reader.Ends told) state (rsDriveRound statefn fuel hasOut state) := by
    rintro state ⟨driven, enough, said⟩
    rcases rsDriveRound_left driven enough with
      ⟨failed, aborts⟩ | ⟨final, stops, ends⟩ | ⟨next, goes, driven', same, less, progress⟩
    · exact .inl ⟨_, failed, rfl, said.symm.trans aborts⟩
    · exact .inr (.inl ⟨final, stops, said ▸ ends⟩)
    · refine .inr (.inr ⟨next, goes, ⟨driven', less.trans_lt enough, same.trans said⟩, ?_⟩)
      exact progress.resolve_right fun never => finite (said.symm.trans never)
  rcases Round.loop_ends Abort.outOfFuel round ⟨driven, effort.trans_lt enough, tells.trans said⟩
    (effort.trans_lt enough) with ⟨_, failed, rfl, aborts⟩ | ran
  · exact .inl ⟨failed, aborts⟩
  · exact .inr ran

/-- The input of a job tells how it ends. -/
theorem rsWholeRun_ends {own : σ} {data : Bytes} (fits : reader.Fits own 0 0) (settled : ¬ reader.Fresh own)
    {result : Result} {value : τ} (told : reader.verdict own [] data = .ends result value) {fuel : ℕ}
    (enough : reader.potential own data + 2 * data.length + 2 < fuel) :
    ∃ job out, rsWholeRun statefn fuel hasOut own data = .ok (result, job, out) ∧
      reader.value job.own (out ++ job.written) = value ∧ job.written.length ≤ bufLen ∧
      (result = .done → job.written = []) := by
  rcases reader.rsWholeRun_told fits settled told (by simp) enough with
    ⟨-, aborts⟩ | ⟨⟨result', job, out⟩, ran, same, short, drained⟩
  · cases aborts
  · cases same
    exact ⟨job, out, ran, rfl, short, drained⟩

/-- The input of a job tells that an assertion fails. -/
theorem rsWholeRun_aborts {own : σ} {data : Bytes} (fits : reader.Fits own 0 0) (settled : ¬ reader.Fresh own)
    (told : reader.verdict own [] data = .aborts) {fuel : ℕ}
    (enough : reader.potential own data + 2 * data.length + 2 < fuel) :
    rsWholeRun statefn fuel hasOut own data = .error .assertion := by
  rcases reader.rsWholeRun_told fits settled told (by simp) enough with ⟨failed, -⟩ | ⟨final, -, same, -⟩
  · exact failed
  · cases same

/-- The input of a job tells that it does not end, however long it runs. -/
theorem rsWholeRun_never {own : σ} {data : Bytes} (fits : reader.Fits own 0 0) (settled : ¬ reader.Fresh own)
    (told : reader.verdict own [] data = .never) (fuel : ℕ) :
    rsWholeRun statefn fuel hasOut own data = .error .outOfFuel := by
  obtain ⟨driven, tells, effort⟩ := reader.driven_new own data fits settled
  by_contra ends
  -- with fuel for every call every round goes on
  have more := Nat.le_max_left fuel (reader.driveEffort (Job.new own, ⟨data, false⟩, []) + 1)
  have enough := Nat.le_max_right fuel (reader.driveEffort (Job.new own, ⟨data, false⟩, []) + 1)
  generalize max fuel (reader.driveEffort (Job.new own, ⟨data, false⟩, []) + 1) = long at more enough
  refine ends ((rsWholeRun_stable more ends).symm.trans ?_)
  have round : ∀ state, reader.Driven state ∧ reader.driveEffort state < long ∧
      reader.tells state.1 state.2.2 state.2.1.rest = .never →
      ∃ next, rsDriveRound statefn long hasOut state = .ok (.again next) ∧ reader.Driven next ∧
        reader.driveEffort next < long ∧ reader.tells next.1 next.2.2 next.2.1.rest = .never := by
    rintro state ⟨driven, enough, told⟩
    rcases rsDriveRound_left driven enough with
      ⟨-, aborts⟩ | ⟨final, stops, ends, -⟩ | ⟨next, goes, driven', same, less, -⟩
    · cases told.symm.trans aborts
    · cases told.symm.trans ends
    · exact ⟨next, goes, driven', less.trans_lt enough, same.trans told⟩
  exact Round.loop_exhausts Abort.outOfFuel round ⟨driven, enough, tells.trans told⟩

end Reader

/-! ## Reading a field -/

section Scoop

variable {σ τ : Type} {job next : Job σ} {len : ℕ} {octets rest : Bytes}

/-- Looking ahead takes no more into the scoop than what is looked for. -/
theorem rsScoopReadahead_scoop {result : Result} (read : rsScoopReadahead len job = .ok (result, octets, next)) :
    next.scoop.length ≤ max job.scoop.length len := by
  have scooped {short : Job σ} (input : rsScoopInput len job = .ok short) : short.scoop.length ≤ max job.scoop.length len := by
    simp only [rsScoopInput] at input
    split_ifs at input
    cases input
    simp only [List.length_append, List.length_take]
    omega
  simp only [rsScoopReadahead] at read
  split_ifs at read with inScoop some_ inNext more ended
  · cases read
    exact le_max_left _ _
  · obtain ⟨short, input, read⟩ := Except.bind_eq_ok.mp read
    split_ifs at read <;> cases read <;> exact scooped input
  · cases read
    exact le_max_left _ _
  · obtain ⟨short, input, read⟩ := Except.bind_eq_ok.mp read
    cases read
    exact scooped input
  all_goals
    cases read
    exact le_max_left _ _

/-- What is read is not left in the scoop. -/
theorem rsScoopRead_scoop (read : rsScoopRead len job = .ok (.done, octets, next)) :
    next.scoop.length ≤ job.scoop.length - len := by
  simp only [rsScoopRead, Except.bind_eq_ok] at read
  obtain ⟨⟨result, seen, middle⟩, ahead, read⟩ := read
  dsimp only at read
  split_ifs at read with done
  · have scooped := rsScoopReadahead_scoop ahead
    simp only [Except.bind_eq_ok, rsScoopAdvance] at read
    obtain ⟨final, advance, read⟩ := read
    cases read
    split_ifs at advance with some_ inScoop inNext
    · cases advance
      rw [List.length_drop]
      omega
    · cases advance
      rw [not_not.mp some_]
      exact Nat.zero_le _
  · cases read
    exact absurd rfl done

/-- Octets that are there are read. -/
theorem rsScoopRead_ready (rest : Bytes) (idle : job.copyLen = 0) (there : len ≤ job.scoop.length + job.nextIn.length) :
    ∃ next, rsScoopRead len job = .ok (.done, (job.pending rest).take len, next) ∧ job.Takes next len rest ∧
      next.scoop.length ≤ job.scoop.length - len := by
  obtain ⟨next, read, takes⟩ := rsScoopRead_done rest len job there
  have pends : job.pending rest = job.input rest := by rw [Job.pending, idle, List.drop_zero]
  exact ⟨next, pends ▸ read, takes, rsScoopRead_scoop read⟩

/-- What was there besides is still there. -/
theorem Job.Takes.leaves {more : ℕ} (takes : job.Takes next len rest)
    (there : len + more ≤ job.scoop.length + job.nextIn.length) : more ≤ next.scoop.length + next.nextIn.length := by
  have size := congrArg List.length takes.input
  simp only [Job.input, List.length_append, List.length_drop] at size
  omega

/-- Two reads, with a change of own fields between them. -/
theorem Job.Takes.andThen {middle : Job σ} {len' : ℕ} (first : job.Takes middle len rest) (own : σ)
    (second : ({ middle with own := own } : Job σ).Takes next len' rest) :
    job.Takes { next with own := job.own } (len + len') rest where
  shape := by rw [second.shape, first.shape]
  input := by
    have input : next.input rest = (middle.input rest).drop len' := second.input
    rw [← List.drop_drop, ← first.input]
    exact input
  nextIn := second.nextIn.trans first.nextIn

theorem Job.Takes.advances (takes : job.Takes next len rest) (buffered : job.Buffered rest) :
    job.Advances next rest := by
  have nextIn := takes.nextIn
  rw [takes.shape] at nextIn ⊢
  exact ⟨⟨buffered.ended, buffered.detached, buffered.room, buffered.writeBuf⟩, rfl, rfl, rfl, nextIn⟩

variable {statefn : Job σ → Except Abort (Result × Job σ)} {verdict : σ → Bytes → Bytes → Verdict τ} {value : σ → Bytes → τ}
  {potential : σ → Bytes → ℕ} {Fits : σ → ℕ → ℕ → Prop} {Fresh : σ → Prop} {hasOut : Bool}

theorem effort_of_idle (idle : job.copyLen = 0) :
    job.effort potential rest = potential job.own (job.pending rest) + job.written.length := by
  simp only [Job.effort, Job.load, idle, List.take_zero, List.length_nil, Nat.add_zero]

/-- The step to other own fields behind octets that have been read. -/
theorem Job.Takes.reads (own : σ) (takes : job.Takes next len rest) (buffered : job.Buffered rest) (idle : job.copyLen = 0)
    (emptied : next.scoop.length ≤ job.scoop.length - len) (some_ : job.scoop.length < len) (known : len ≤ (job.pending rest).length)
    (tells : ∀ out, verdict own out ((job.pending rest).drop len) = verdict job.own out (job.pending rest))
    (fits : Fits own 0 0)
    (pays : potential own ((job.pending rest).drop len) + 1 ≤ potential job.own (job.pending rest)) :
    job.Advances { next with own := own } rest ∧
      job.Reads verdict value potential Fits Fresh hasOut { next with own := own } rest .running := by
  have moved := takes.advances buffered
  have idle' : job.Idle := ⟨buffered.writeBuf, idle⟩
  have emits (out : Bytes) : ({ next with own := own } : Job σ).emitted out rest = job.emitted out rest :=
    takes.emitted idle'
  have behind : ({ next with own := own } : Job σ).pending rest = (job.pending rest).drop len := takes.pending idle'
  have scoop : next.scoop.length = 0 := by omega
  have copied : next.copyLen = 0 := (takes.idle idle').2
  have shorter : next.nextIn.length < job.nextIn.length := by
    have size := congrArg List.length takes.input
    rw [Job.pending, idle, List.drop_zero] at known
    simp only [Job.input, List.length_append, List.length_drop] at size known
    omega
  refine ⟨⟨⟨moved.buffered.ended, moved.buffered.detached, moved.buffered.room, moved.buffered.writeBuf⟩, moved.eofIn,
    moved.attached, moved.complete, moved.nextIn⟩, .running (fun out => ?_) ?_ (fun _ => .inr shorter) ?_⟩
  · rw [emits, behind]
    exact tells _
  · change Fits own next.scoop.length next.copyLen
    rw [scoop, copied]
    exact fits
  · have written : next.written = job.written := by rw [takes.shape]
    have copied' : ({ next with own := own } : Job σ).copyLen = 0 := copied
    rw [effort_of_idle copied', effort_of_idle idle, behind]
    change potential own _ + next.written.length + 1 ≤ _
    rw [written]
    omega

/-- A call that looks for a field: what is not there in full ends the job or is waited for. -/
theorem Job.reads_of_ahead (len : ℕ) (ended : Result) (buffered : job.Buffered rest) (idle : job.copyLen = 0)
    (waits : ∀ scoop < len, Fits job.own scoop 0) (settled : ¬ Fresh job.own) (other : ended ≠ .running ∧ ended ≠ .blocked)
    (short : ∀ out, (job.pending rest).length < len →
      verdict job.own out (job.pending rest) = .short ended (value job.own out) (job.pending rest))
    (waiting : ∀ next, rsScoopReadahead len job = .ok (.blocked, [], next) → statefn job = .ok (.blocked, next))
    (ending : rsScoopReadahead len job = .ok (.inputEnded, [], job) → statefn job = .ok (ended, job))
    (ready : len ≤ job.scoop.length + job.nextIn.length → len ≤ (job.pending rest).length →
      ∃ result next, statefn job = .ok (result, next) ∧ job.Advances next rest ∧
        job.Reads verdict value potential Fits Fresh hasOut next rest result) :
    ∃ result next, statefn job = .ok (result, next) ∧ job.Advances next rest ∧
      job.Reads verdict value potential Fits Fresh hasOut next rest result := by
  have pends : job.pending rest = job.input rest := by rw [Job.pending, idle, List.drop_zero]
  have idle' : job.Idle := ⟨buffered.writeBuf, idle⟩
  by_cases there : len ≤ job.scoop.length + job.nextIn.length
  · refine ready there ?_
    rw [pends, input, List.length_append, List.length_append]
    omega
  have tells (atEnd : job.eofIn = true) (out : Bytes) :
      verdict job.own out (job.pending rest) = .short ended (value job.own out) (job.scoop ++ job.nextIn) := by
    have all : job.pending rest = job.scoop ++ job.nextIn := by
      rw [pends, input, buffered.ended atEnd, List.append_nil]
    rw [short out (by rw [all, List.length_append]; omega), all]
  rcases rsScoopReadahead_short (Nat.lt_of_not_le there) with ⟨read, more⟩ | ⟨read, nothing, atEnd⟩
  · have takes : job.Takes { job with scoop := job.scoop ++ job.nextIn, nextIn := [] } 0 rest :=
      ⟨rfl, by simp [input], Nat.zero_le _⟩
    refine ⟨_, _, waiting _ read, takes.advances buffered, .blocked (fun out => ?_) ?_ settled ?_ (.inr fun out => ?_)⟩
    · rw [takes.emitted idle', takes.pending idle', List.drop_zero]
    · change Fits job.own (job.scoop ++ job.nextIn).length job.copyLen
      rw [idle]
      exact waits _ (by rw [List.length_append]; omega)
    · have idle'' : ({ job with scoop := job.scoop ++ job.nextIn, nextIn := [] } : Job σ).copyLen = 0 := idle
      rw [effort_of_idle idle'', effort_of_idle idle, takes.pending idle', List.drop_zero]
    · refine ⟨fun _ atEnd => ?_, fun some_ => absurd rfl some_⟩
      rw [takes.emitted idle', takes.pending idle', List.drop_zero]
      refine (tells atEnd _).trans (if_neg fun nothing => ?_)
      rw [more nothing] at atEnd
      cases atEnd
  · refine ⟨_, _, ending read, ⟨buffered, rfl, rfl, rfl, le_rfl⟩, .ends _ (fun out => ?_) idle (fun _ => .inr ?_) other⟩
    · exact (tells atEnd _).trans (if_pos nothing)
    · exact (List.append_eq_nil_iff.mp nothing).2

end Scoop

end DeltaCFS
