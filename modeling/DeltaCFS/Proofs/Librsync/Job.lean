import DeltaCFS.Model.Librsync.Job

/-! # Running a job to its end

A job is observed through two strings: what it has emitted, the outstanding copy of the tube
included, and the input it has still to process. Filling, draining, scooping and the tube change
neither, so that a job is correct and terminates as soon as its state functions are correct on these
strings, spend a potential on every octet they emit and every further call they ask for, and block
for a reason.
-/

namespace DeltaCFS

open Bytes

variable {σ : Type}

namespace Job

/-- All input from the scoop on, with `rest` the unread part of the input file. -/
def input (job : Job σ) (rest : Bytes) : Bytes := job.scoop ++ (job.nextIn ++ rest)

/-- The input behind the outstanding copy. -/
def pending (job : Job σ) (rest : Bytes) : Bytes := (job.input rest).drop job.copyLen

/-- The output up to and including the outstanding copy, with `out` the content of the output file. -/
def emitted (job : Job σ) (out rest : Bytes) : Bytes :=
  out ++ (job.written ++ (job.writeBuf ++ (job.input rest).take job.copyLen))

/-- The octets waiting in the tube. -/
def tube (job : Job σ) : ℕ := job.writeBuf.length + job.copyLen

/-- `rs_tube_is_idle` as a proposition. -/
def Idle (job : Job σ) : Prop := job.writeBuf = [] ∧ job.copyLen = 0

/-- The buffers fit together. -/
structure Sound (job : Job σ) (rest : Bytes) : Prop where
  copies : job.copyLen ≤ (job.input rest).length
  ended : job.eofIn = true → rest = []
  detached : job.attached = false → job.written = [] ∧ job.availOut = 0
  room : job.attached = true → job.availOut + job.written.length = bufLen

/-- The next state differs in buffers and own fields only, and the input moves forward. -/
structure Extends (job next : Job σ) (rest : Bytes) : Prop where
  sound : next.Sound rest
  eofIn : next.eofIn = job.eofIn
  attached : next.attached = job.attached
  complete : next.complete = job.complete
  availOut : next.availOut ≤ job.availOut
  nextIn : next.nextIn.length ≤ job.nextIn.length

theorem Extends.refl {job : Job σ} {rest : Bytes} (sound : job.Sound rest) : job.Extends job rest :=
  ⟨sound, rfl, rfl, rfl, le_rfl, le_rfl⟩

theorem Extends.trans {first second third : Job σ} {rest : Bytes} (one : first.Extends second rest)
    (two : second.Extends third rest) : first.Extends third rest :=
  ⟨two.sound, two.eofIn.trans one.eofIn, two.attached.trans one.attached, two.complete.trans one.complete,
    two.availOut.trans one.availOut, two.nextIn.trans one.nextIn⟩

/-- The next state shows the same strings; octets leave the tube for the output buffer only. -/
structure Flows (job next : Job σ) (rest : Bytes) : Prop extends Extends job next rest where
  own : next.own = job.own
  emitted : ∀ out, next.emitted out rest = job.emitted out rest
  pending : next.pending rest = job.pending rest
  credit : next.tube + job.availOut = job.tube + next.availOut

theorem Flows.refl {job : Job σ} {rest : Bytes} (sound : job.Sound rest) : job.Flows job rest :=
  ⟨.refl sound, rfl, fun _ => rfl, rfl, rfl⟩

theorem Flows.trans {first second third : Job σ} {rest : Bytes} (one : first.Flows second rest)
    (two : second.Flows third rest) : first.Flows third rest := by
  have := one.credit
  have := two.credit
  have := one.availOut
  have := two.availOut
  exact ⟨one.toExtends.trans two.toExtends, two.own.trans one.own,
    fun out => (two.emitted out).trans (one.emitted out), two.pending.trans one.pending, by omega⟩

theorem idle_iff_tube {job : Job σ} : job.Idle ↔ job.tube = 0 := by
  simp [Idle, tube]

theorem rsTubeIsIdle_iff {job : Job σ} : rsTubeIsIdle job = true ↔ job.Idle := by
  simp [rsTubeIsIdle, Idle]

end Job

open Job

/-! ## The tube -/

theorem rsTubeCatchupWrite_flows {job : Job σ} {rest : Bytes} (sound : job.Sound rest) :
    job.Flows (rsTubeCatchupWrite job) rest := by
  have split : job.writeBuf.take (min job.writeBuf.length job.availOut) ++
      job.writeBuf.drop (min job.writeBuf.length job.availOut) = job.writeBuf := List.take_append_drop _ _
  refine ⟨⟨⟨sound.copies, sound.ended, ?_, ?_⟩, rfl, rfl, rfl, Nat.sub_le _ _, le_rfl⟩, rfl, ?_, rfl, ?_⟩
  · intro detached
    obtain ⟨written, availOut⟩ := sound.detached detached
    simp [rsTubeCatchupWrite, written, availOut]
  · intro attached
    have := sound.room attached
    simp only [rsTubeCatchupWrite, List.length_append, List.length_take]
    omega
  · intro out
    simp only [emitted, input, rsTubeCatchupWrite, List.append_assoc]
    rw [← List.append_assoc (List.take _ _), split]
  · simp only [tube, rsTubeCatchupWrite, List.length_drop]
    omega

/-- Moving part of the outstanding copy from the front of the input to the output. -/
theorem flows_of_copy {job next : Job σ} {rest : Bytes} (len : ℕ) (sound : job.Sound rest)
    (empty : job.writeBuf = []) (short : len ≤ job.copyLen) (fits : len ≤ job.availOut)
    (input : next.input rest = (job.input rest).drop len)
    (written : next.written = job.written ++ (job.input rest).take len)
    (availOut : next.availOut = job.availOut - len) (copyLen : next.copyLen = job.copyLen - len)
    (writeBuf : next.writeBuf = []) (nextIn : next.nextIn.length ≤ job.nextIn.length)
    (eofIn : next.eofIn = job.eofIn) (attached : next.attached = job.attached)
    (complete : next.complete = job.complete) (own : next.own = job.own) : job.Flows next rest := by
  have copies := sound.copies
  refine ⟨⟨⟨?_, fun ended => sound.ended (eofIn ▸ ended), ?_, ?_⟩, eofIn, attached, complete, by omega, nextIn⟩,
    own, ?_, ?_, ?_⟩
  · rw [copyLen, input, List.length_drop]
    omega
  · intro detached
    obtain ⟨nothing, full⟩ := sound.detached (attached ▸ detached)
    obtain rfl : len = 0 := by omega
    simp [written, nothing, availOut, full]
  · intro ready
    have room := sound.room (attached ▸ ready)
    rw [availOut, written, List.length_append, List.length_take]
    omega
  · intro out
    simp only [emitted, writeBuf, empty, input, written, copyLen, List.nil_append, List.append_assoc]
    rw [← List.take_add, Nat.add_sub_cancel' short]
  · simp only [pending, input, copyLen, List.drop_drop, Nat.add_sub_cancel' short]
  · simp only [tube, writeBuf, empty, availOut, copyLen]
    omega

theorem rsTubeCopyFromScoop_flows {job : Job σ} {rest : Bytes} (sound : job.Sound rest)
    (empty : job.writeBuf = []) : job.Flows (rsTubeCopyFromScoop job) rest := by
  have inScoop : min (min job.copyLen job.scoop.length) job.availOut ≤ job.scoop.length := by omega
  refine flows_of_copy (min (min job.copyLen job.scoop.length) job.availOut) sound empty (by omega) (by omega)
    ?_ ?_ rfl rfl empty le_rfl rfl rfl rfl rfl
  · simp only [input, rsTubeCopyFromScoop]
    rw [List.drop_append_of_le_length inScoop]
  · simp only [input, rsTubeCopyFromScoop]
    rw [List.take_append_of_le_length inScoop]

theorem rsBuffersCopy_flows {job : Job σ} {rest : Bytes} (sound : job.Sound rest) (empty : job.writeBuf = [])
    (scooped : job.scoop = [] ∨ job.availOut = 0) : job.Flows (rsBuffersCopy job) rest := by
  have inNext : min (min job.copyLen job.nextIn.length) job.availOut ≤ job.nextIn.length := by omega
  refine flows_of_copy (min (min job.copyLen job.nextIn.length) job.availOut) sound empty (by omega) (by omega)
    ?_ ?_ rfl rfl empty (by simp [rsBuffersCopy]) rfl rfl rfl rfl
  · rcases scooped with noScoop | noRoom
    · simp only [input, rsBuffersCopy, noScoop, List.nil_append]
      rw [List.drop_append_of_le_length inNext]
    · simp [input, rsBuffersCopy, noRoom]
  · rcases scooped with noScoop | noRoom
    · simp only [input, rsBuffersCopy, noScoop, List.nil_append]
      rw [List.take_append_of_le_length inNext]
    · simp [input, rsBuffersCopy, noRoom]

/-- Why a job may block: the output buffer is full, or the input buffer is empty before the end. -/
def Job.Waits (hasOut : Bool) (job : Job σ) : Prop :=
  (hasOut = true ∧ job.availOut = 0) ∨ (job.nextIn = [] ∧ job.eofIn = false)

theorem rsTubeCatchupCopy_flows {job : Job σ} {rest : Bytes} (sound : job.Sound rest)
    (empty : job.writeBuf = []) :
    job.Flows (rsTubeCatchupCopy job) rest ∧ (rsTubeCatchupCopy job).writeBuf = [] ∧
      ((rsTubeCatchupCopy job).copyLen = 0 ∨ (rsTubeCatchupCopy job).availOut = 0 ∨
        ((rsTubeCatchupCopy job).scoop = [] ∧ (rsTubeCatchupCopy job).nextIn = [])) := by
  obtain ⟨middle, equation, flows, emptied, drained⟩ : ∃ middle,
      (if job.scoop ≠ [] then rsTubeCopyFromScoop job else job) = middle ∧ job.Flows middle rest ∧
        middle.writeBuf = [] ∧ (middle.copyLen = 0 ∨ middle.availOut = 0 ∨ middle.scoop = []) := by
    by_cases scooped : job.scoop = []
    · exact ⟨job, by simp [scooped], .refl sound, empty, .inr (.inr scooped)⟩
    · refine ⟨rsTubeCopyFromScoop job, by simp [scooped], rsTubeCopyFromScoop_flows sound empty, empty, ?_⟩
      simp only [rsTubeCopyFromScoop, List.drop_eq_nil_iff]
      omega
  simp only [rsTubeCatchupCopy, equation]
  by_cases copied : middle.copyLen = 0
  · simp only [copied, ne_eq, not_true_eq_false, ↓reduceIte]
    exact ⟨flows, emptied, .inl trivial⟩
  · rw [if_pos copied]
    have rest_flows := rsBuffersCopy_flows flows.sound emptied (by tauto)
    refine ⟨flows.trans rest_flows, emptied, ?_⟩
    simp only [rsBuffersCopy, List.drop_eq_nil_iff]
    rcases drained with none | full | noScoop
    · exact absurd none copied
    · omega
    · rw [noScoop]
      simp only [true_and]
      omega

/-- The tube runs empty, or the job has to wait. -/
theorem rsTubeCatchup_spec {job : Job σ} {rest : Bytes} (sound : job.Sound rest) :
    ∃ result next, rsTubeCatchup job = (result, next) ∧ job.Flows next rest ∧
      ((result = .done ∧ next.Idle) ∨
        (result = .blocked ∧ ¬ next.Idle ∧ (next.availOut = 0 ∨ (next.nextIn = [] ∧ next.eofIn = false)))) := by
  obtain ⟨middle, equation, flows, wrote⟩ : ∃ middle,
      (if job.writeBuf ≠ [] then rsTubeCatchupWrite job else job) = middle ∧ job.Flows middle rest ∧
        (middle.writeBuf = [] ∨ middle.availOut = 0) := by
    by_cases empty : job.writeBuf = []
    · exact ⟨job, by simp [empty], .refl sound, .inl empty⟩
    · refine ⟨rsTubeCatchupWrite job, by simp [empty], rsTubeCatchupWrite_flows sound, ?_⟩
      simp only [rsTubeCatchupWrite, List.drop_eq_nil_iff]
      omega
  simp only [rsTubeCatchup, equation]
  by_cases empty : middle.writeBuf = []
  · simp only [empty, ne_eq, not_true_eq_false, ↓reduceIte]
    obtain ⟨final, equation', flows', nothing, left⟩ : ∃ final,
        (if ¬ middle.copyLen = 0 then rsTubeCatchupCopy middle else middle) = final ∧ middle.Flows final rest ∧
          final.writeBuf = [] ∧
          (final.copyLen = 0 ∨ final.availOut = 0 ∨ (final.scoop = [] ∧ final.nextIn = [])) := by
      by_cases copied : middle.copyLen = 0
      · exact ⟨middle, by simp [copied], .refl flows.sound, empty, .inl copied⟩
      · exact ⟨_, by rw [if_pos copied], rsTubeCatchupCopy_flows flows.sound empty⟩
    rw [equation']
    by_cases copied : final.copyLen = 0
    · refine ⟨_, _, by rw [if_neg (not_not.mpr copied)], flows.trans flows', .inl ⟨rfl, nothing, copied⟩⟩
    · have copies := flows'.sound.copies
      -- at the end of the input the copy is covered by what is buffered
      have notEnded : ¬ (final.eofIn && final.nextIn.isEmpty && final.scoop.isEmpty) = true := by
        simp only [Bool.and_eq_true, List.isEmpty_iff, not_and]
        rintro ⟨ended, noInput⟩ noScoop
        simp only [input, noScoop, noInput, flows'.sound.ended ended, List.append_nil, List.length_nil] at copies
        omega
      refine ⟨_, _, by rw [if_pos copied, if_neg notEnded], flows.trans flows',
        .inr ⟨rfl, fun idle => copied idle.2, ?_⟩⟩
      rcases left with none | full | ⟨noScoop, noInput⟩
      · exact absurd none copied
      · exact .inl full
      · right
        refine ⟨noInput, ?_⟩
        by_contra ended
        rw [Bool.not_eq_false] at ended
        simp [ended, noInput, noScoop] at notEnded
  · refine ⟨_, _, by rw [if_pos empty], flows, .inr ⟨rfl, fun idle => empty idle.1, .inl ?_⟩⟩
    exact wrote.resolve_left empty

/-! ## State functions -/

/-- What a call of a state function costs: emitted octets are paid from the potential. -/
def Job.Pays (potential : σ → Bytes → Bytes → ℕ) (job next : Job σ) (out rest : Bytes) (extra : ℕ) : Prop :=
  potential next.own (next.emitted out rest) (next.pending rest) + next.tube + job.availOut + extra ≤
    potential job.own (job.emitted out rest) (job.pending rest) + job.tube + next.availOut

/-- The potential of a running job; a complete one calls no state function any more. -/
def Job.cost (potential : σ → Bytes → Bytes → ℕ) (job : Job σ) (out rest : Bytes) : ℕ :=
  if job.complete then 0 else potential job.own (job.emitted out rest) (job.pending rest)

theorem Job.cost_running {potential : σ → Bytes → Bytes → ℕ} {job : Job σ} {out rest : Bytes}
    (running : job.complete = false) :
    job.cost potential out rest = potential job.own (job.emitted out rest) (job.pending rest) :=
  if_neg (by rw [running]; exact Bool.false_ne_true)

/-- What a call of a state function with an idle tube has to establish. -/
inductive Job.Outcome (Inv : σ → Bool → Bytes → Bytes → Prop) (Final : σ → Bytes → Prop) (Fails : Result → Prop)
    (potential : σ → Bytes → Bytes → ℕ)
    (hasOut : Bool) (job next : Job σ) (out rest : Bytes) : Result → Prop
  | running (inv : Inv next.own next.eofIn (next.emitted out rest) (next.pending rest))
      (pays : job.Pays potential next out rest 1) : Outcome Inv Final Fails potential hasOut job next out rest .running
  | blocked (inv : Inv next.own next.eofIn (next.emitted out rest) (next.pending rest))
      (pays : job.Pays potential next out rest 0) (waits : next.Waits hasOut) :
      Outcome Inv Final Fails potential hasOut job next out rest .blocked
  | done (final : Final next.own (next.emitted out rest)) (processed : next.pending rest = [])
      (consumed : next.nextIn = [])
      (pays : next.tube + job.availOut ≤ potential job.own (job.emitted out rest) (job.pending rest) +
        job.tube + next.availOut) :
      Outcome Inv Final Fails potential hasOut job next out rest .done
  | fails (result : Result) (fails : Fails result) (other : result ≠ .done ∧ result ≠ .running ∧ result ≠ .blocked) :
      Outcome Inv Final Fails potential hasOut job next out rest result

/-- A job together with an invariant on what it has emitted and still has to process, and on whether
it knows the input to have ended; what it establishes in the end, or the results with which it fails;
and its potential. -/
structure JobSpec (statefn : Job σ → Except Abort (Result × Job σ)) (hasOut : Bool) where
  Inv : σ → Bool → Bytes → Bytes → Prop
  Final : σ → Bytes → Prop
  Fails : Result → Prop := fun _ => False
  potential : σ → Bytes → Bytes → ℕ
  ended : ∀ {own emitted pending}, Inv own false emitted pending → Inv own true emitted pending
  silent : hasOut = false → (∀ {own eofIn emitted pending}, Inv own eofIn emitted pending → emitted = []) ∧
    ∀ {own emitted}, Final own emitted → emitted = []
  step : ∀ {job : Job σ} {out rest : Bytes}, job.Sound rest → job.Idle → job.complete = false →
    Inv job.own job.eofIn (job.emitted out rest) (job.pending rest) →
    ∃ result next, statefn job = .ok (result, next) ∧ job.Extends next rest ∧
      job.Outcome Inv Final Fails potential hasOut next out rest result

namespace JobSpec

variable {statefn : Job σ → Except Abort (Result × Job σ)} {hasOut : Bool} (spec : JobSpec statefn hasOut)
  {job next : Job σ} {out rest : Bytes}

/-- The invariant of a running job, the final property of a complete one. -/
def Holds (job : Job σ) (out rest : Bytes) : Prop :=
  (job.complete = false ∧ spec.Inv job.own job.eofIn (job.emitted out rest) (job.pending rest)) ∨
    (job.complete = true ∧ spec.Final job.own (job.emitted out rest) ∧ job.pending rest = [])

/-- What a call of `rs_job_iter` may have done so far. -/
structure Reached (job next : Job σ) (out rest : Bytes) : Prop where
  sound : next.Sound rest
  eofIn : next.eofIn = job.eofIn
  attached : next.attached = job.attached
  complete : job.complete = true → next.complete = true
  availOut : next.availOut ≤ job.availOut
  nextIn : next.nextIn.length ≤ job.nextIn.length
  holds : spec.Holds next out rest
  pays : next.cost spec.potential out rest + next.tube + job.availOut ≤
    job.cost spec.potential out rest + job.tube + next.availOut

theorem Holds.of_flows {spec : JobSpec statefn hasOut} (holds : spec.Holds job out rest)
    (flows : job.Flows next rest) : spec.Holds next out rest := by
  simpa only [Holds, flows.complete, flows.own, flows.eofIn, flows.emitted out, flows.pending] using holds

theorem Holds.idle_of_silent {spec : JobSpec statefn hasOut} (holds : spec.Holds job out rest)
    (sound : job.Sound rest) (silent : hasOut = false) : job.Idle := by
  have nothing : job.emitted out rest = [] := by
    rcases holds with ⟨-, inv⟩ | ⟨-, final, -⟩
    · exact (spec.silent silent).1 inv
    · exact (spec.silent silent).2 final
  simp only [emitted, List.append_eq_nil_iff, List.take_eq_nil_iff] at nothing
  have copies := sound.copies
  rcases nothing.2.2.2 with copied | empty
  · exact ⟨nothing.2.2.1, copied⟩
  · simp only [empty, List.length_nil] at copies
    exact ⟨nothing.2.2.1, by omega⟩

theorem Reached.of_flows {spec : JobSpec statefn hasOut} {third : Job σ} (reached : spec.Reached job next out rest)
    (flows : next.Flows third rest) : spec.Reached job third out rest := by
  refine ⟨flows.sound, flows.eofIn.trans reached.eofIn, flows.attached.trans reached.attached,
    fun complete => flows.complete.trans (reached.complete complete), flows.availOut.trans reached.availOut,
    flows.nextIn.trans reached.nextIn, reached.holds.of_flows flows, ?_⟩
  have pays := reached.pays
  have credit := flows.credit
  simp only [cost, flows.own, flows.emitted out, flows.pending, flows.complete] at pays ⊢
  omega

/-- What a call of `rs_job_work` comes to: the job is done, waits for a reason, or has failed. -/
def Worked (job : Job σ) (out rest : Bytes) (final : Result × Job σ) : Prop :=
  (spec.Reached job final.2 out rest ∧
    ((final.1 = .done ∧ final.2.Idle ∧ final.2.complete = true) ∨
      (final.1 = .blocked ∧ (final.2.Waits hasOut ∨
        (job.complete = false ∧ final.2.complete = true ∧ final.2.nextIn = []))))) ∨
  (spec.Fails final.1 ∧ final.1 ≠ .done ∧ final.1 ≠ .blocked)

/-- One round of `rs_job_work`. -/
theorem rsJobRound_keeps {state : Job σ} (reached : spec.Reached job state out rest) :
    Round.Keeps (fun next => spec.Reached job next out rest)
      (fun next => next.cost spec.potential out rest + next.tube)
      (spec.Worked job out rest) state (rsJobRound statefn state) := by
  obtain ⟨result, middle, caught, flows, ended⟩ := rsTubeCatchup_spec reached.sound
  have reached' := reached.of_flows flows
  rcases ended with ⟨rfl, idle⟩ | ⟨rfl, busy, waits⟩
  · cases complete : middle.complete with
    | true =>
      refine .inl ⟨(.done, middle), ?_, .inl ⟨reached', .inl ⟨rfl, idle, complete⟩⟩⟩
      simp [rsJobRound, caught, complete, rsTubeIsIdle_iff.mpr idle]
    | false =>
      have inv : spec.Inv middle.own middle.eofIn (middle.emitted out rest) (middle.pending rest) := by
        rcases reached'.holds with ⟨-, inv⟩ | ⟨finished, -⟩
        · exact inv
        · rw [complete] at finished
          cases finished
      obtain ⟨result, next, called, extends_, outcome⟩ := spec.step flows.sound idle complete inv
      have running : job.complete = false := by
        by_contra finished
        rw [Bool.not_eq_false] at finished
        simp [reached'.complete finished] at complete
      have tube := idle_iff_tube.mp idle
      have before := reached'.pays
      rw [cost_running complete] at before
      have credit := flows.credit
      have less := extends_.availOut
      cases outcome with
      | running inv' pays =>
        refine .inr ⟨next, by simp [rsJobRound, caught, complete, called, bind, Except.bind, pure, Except.pure],
          ⟨extends_.sound, extends_.eofIn.trans reached'.eofIn, extends_.attached.trans reached'.attached,
            by simp [running], less.trans reached'.availOut, extends_.nextIn.trans reached'.nextIn,
            .inl ⟨extends_.complete.trans complete, inv'⟩, ?_⟩, ?_⟩
        · rw [cost_running (extends_.complete.trans complete)]
          simp only [Pays] at pays
          omega
        · beta_reduce
          rw [cost_running (extends_.complete.trans complete), cost_running (flows.complete.symm.trans complete)]
          simp only [Pays, flows.own, flows.emitted out, flows.pending] at pays
          omega
      | blocked inv' pays waits =>
        refine .inl ⟨(.blocked, next),
          by simp [rsJobRound, caught, complete, called, bind, Except.bind, pure, Except.pure],
          .inl ⟨⟨extends_.sound, extends_.eofIn.trans reached'.eofIn, extends_.attached.trans reached'.attached,
            by simp [running], less.trans reached'.availOut, extends_.nextIn.trans reached'.nextIn,
            .inl ⟨extends_.complete.trans complete, inv'⟩, ?_⟩, .inr ⟨rfl, .inl waits⟩⟩⟩
        change next.cost spec.potential out rest + next.tube + job.availOut ≤ _ + next.availOut
        rw [cost_running (extends_.complete.trans complete)]
        simp only [Pays] at pays
        omega
      | done final processed consumed pays =>
        have view : spec.Reached job { next with complete := true } out rest := by
          refine ⟨⟨extends_.sound.copies, extends_.sound.ended, extends_.sound.detached, extends_.sound.room⟩,
            extends_.eofIn.trans reached'.eofIn, extends_.attached.trans reached'.attached,
            by simp [running], less.trans reached'.availOut, extends_.nextIn.trans reached'.nextIn,
            .inr ⟨rfl, final, processed⟩, ?_⟩
          change 0 + next.tube + job.availOut ≤ _ + next.availOut
          omega
        by_cases finished : next.Idle
        · refine .inl ⟨(.done, { next with complete := true }), ?_, .inl ⟨view, .inl ⟨rfl, finished, rfl⟩⟩⟩
          have still : rsTubeIsIdle { next with complete := true } = true := rsTubeIsIdle_iff.mpr finished
          simp [rsJobRound, caught, complete, called, bind, Except.bind, pure, Except.pure, rsJobComplete, still]
        · refine .inl ⟨(.blocked, { next with complete := true }), ?_, .inl ⟨view,
            .inr ⟨rfl, .inr ⟨running, rfl, consumed⟩⟩⟩⟩
          have still : rsTubeIsIdle { next with complete := true } = false := by
            rw [← Bool.not_eq_true, rsTubeIsIdle_iff]
            exact finished
          simp [rsJobRound, caught, complete, called, bind, Except.bind, pure, Except.pure, rsJobComplete, still]
      | fails result fails other =>
        refine .inl ⟨(result, { next with complete := true }), ?_, .inr ⟨fails, other.1, other.2.2⟩⟩
        simp [rsJobRound, caught, complete, called, bind, Except.bind, pure, Except.pure, rsJobComplete, other]
  · refine .inl ⟨(.blocked, middle), by simp [rsJobRound, caught], .inl ⟨reached', .inr ⟨rfl, .inl ?_⟩⟩⟩
    rcases waits with full | starved
    · left
      refine ⟨?_, full⟩
      by_contra silent
      exact busy (reached'.holds.idle_of_silent flows.sound (Bool.not_eq_true _ ▸ silent))
    · exact .inr starved

theorem Reached.refl {spec : JobSpec statefn hasOut} (sound : job.Sound rest) (holds : spec.Holds job out rest) :
    spec.Reached job job out rest :=
  ⟨sound, rfl, rfl, id, le_rfl, le_rfl, holds, le_rfl⟩

theorem Holds.nextIn_of_done {spec : JobSpec statefn hasOut} (holds : spec.Holds job out rest) (idle : job.Idle)
    (complete : job.complete = true) : job.nextIn = [] := by
  rcases holds with ⟨running, -⟩ | ⟨-, -, processed⟩
  · simp [complete] at running
  · simp only [pending, idle.2, List.drop_zero, input, List.append_eq_nil_iff] at processed
    exact processed.2.1

/-- `rs_job_iter` completes the job, blocks for a reason or fails, and never reports missing progress. -/
theorem rsJobIter_spec {fuel : ℕ} (sound : job.Sound rest) (holds : spec.Holds job out rest)
    (enough : job.cost spec.potential out rest + job.tube < fuel) :
    ∃ result next, rsJobIter statefn fuel job = .ok (result, next) ∧ spec.Worked job out rest (result, next) := by
  obtain ⟨⟨result, next⟩, ran, worked⟩ := Round.loop_total Abort.outOfFuel
    (fun state => spec.rsJobRound_keeps) (Reached.refl sound holds) enough
  refine ⟨result, next, ?_, worked⟩
  have progress : ¬ ((result = .blocked ∨ result = .done) ∧ job.nextIn.length = next.nextIn.length ∧
      job.availOut = next.availOut ∧ job.nextIn.length ≠ 0 ∧ job.availOut ≠ 0) := by
    rintro ⟨ended, sameIn, sameOut, someIn, someOut⟩
    have nonempty : next.nextIn ≠ [] := fun empty => someIn (by rw [sameIn, empty]; rfl)
    rcases worked with ⟨reached, ⟨-, idle, complete⟩ | ⟨-, (⟨-, full⟩ | ⟨starved, -⟩) | ⟨-, -, consumed⟩⟩⟩ |
      ⟨-, undone, unblocked⟩
    · exact nonempty (reached.holds.nextIn_of_done idle complete)
    · exact someOut (sameOut.trans full)
    · exact nonempty starved
    · exact nonempty consumed
    · exact ended.elim unblocked undone
  simp only [rsJobIter, rsJobWork, ran, bind, Except.bind, if_neg progress, pure, Except.pure]

/-! ## Driving a job -/

/-- The states between the rounds of `rs_job_drive`. -/
structure Driven (state : Job σ × InFile × Bytes) : Prop where
  sound : state.1.Sound state.2.1.rest
  holds : spec.Holds state.1 state.2.2 state.2.1.rest
  feof : state.2.1.feof = true → state.2.1.rest = []
  drained : state.1.written = []

/-- Unread input counts twice, since reading and scooping it are both progress. -/
def driveMeasure (state : Job σ × InFile × Bytes) : ℕ :=
  state.1.cost spec.potential state.2.2 state.2.1.rest + state.1.tube + 2 * state.2.1.rest.length +
    state.1.nextIn.length + (if state.1.eofIn then 0 else 1) + (if state.1.attached then 0 else 1) +
    (if state.1.complete then 0 else 1)

/-- Reading changes neither the strings nor the potential. -/
theorem Driven.of_read {spec : JobSpec statefn hasOut} {file : InFile} (driven : spec.Driven (job, file, out))
    (next : Job σ) (file' : InFile) (whole : next.input file'.rest = job.input file.rest)
    (unread : job.eofIn = false) (ended : next.eofIn = true → file'.rest = []) (feof : file'.feof = true → file'.rest = [])
    (fields : next.written = job.written ∧ next.availOut = job.availOut ∧ next.attached = job.attached ∧
      next.writeBuf = job.writeBuf ∧ next.copyLen = job.copyLen ∧ next.complete = job.complete ∧
      next.own = job.own) :
    spec.Driven (next, file', out) ∧
      next.cost spec.potential out file'.rest + next.tube = job.cost spec.potential out file.rest + job.tube := by
  obtain ⟨written, availOut, attached, writeBuf, copyLen, complete, own⟩ := fields
  refine ⟨⟨⟨?_, ended, ?_, ?_⟩, ?_, feof, written.trans driven.drained⟩, ?_⟩
  · simpa only [whole, copyLen] using driven.sound.copies
  · simpa only [attached, written, availOut] using driven.sound.detached
  · simpa only [attached, written, availOut] using driven.sound.room
  · have holds : spec.Holds job out file.rest := driven.holds
    simp only [Holds, emitted, pending, whole, written, writeBuf, copyLen, complete, own] at holds ⊢
    refine holds.imp (And.imp_right fun inv => ?_) id
    rw [unread] at inv
    cases next.eofIn with
    | false => exact inv
    | true => exact spec.ended inv
  · simp only [cost, emitted, pending, tube, whole, written, writeBuf, copyLen, own, complete]

/-- After filling, the job has input or knows that there is none, and the measure did not grow. -/
theorem rsInfilebufFill_spec {file : InFile} (driven : spec.Driven (job, file, out)) :
    ∃ next file', (if job.eofIn then (job, file) else rsInfilebufFill job file) = (next, file') ∧
      spec.Driven (next, file', out) ∧ spec.driveMeasure (next, file', out) ≤ spec.driveMeasure (job, file, out) ∧
      next.attached = job.attached ∧ (next.eofIn = false → next.nextIn ≠ []) := by
  by_cases ended : job.eofIn = true
  · exact ⟨job, file, if_pos ended, driven, le_rfl, rfl, by simp [ended]⟩
  have unread : job.eofIn = false := Bool.not_eq_true _ ▸ ended
  rw [if_neg ended, rsInfilebufFill]
  by_cases atEnd : file.feof = true
  · obtain ⟨driven', same⟩ := driven.of_read { job with eofIn := true } file rfl unread
      (fun _ => driven.feof atEnd) driven.feof ⟨rfl, rfl, rfl, rfl, rfl, rfl, rfl⟩
    refine ⟨_, _, if_pos (by simp [atEnd]), driven', ?_, rfl, by simp⟩
    simp only [driveMeasure, same, ended, ↓reduceIte, Bool.false_eq_true]
    omega
  rw [if_neg (by simp [ended, atEnd])]
  by_cases buffered : job.nextIn = []
  · rw [if_neg (not_not.mpr buffered)]
    have short : decide (file.rest.length < bufLen) = true → file.rest.drop bufLen = [] :=
      fun short => List.drop_eq_nil_of_le (Nat.le_of_lt (of_decide_eq_true short))
    by_cases exhausted : file.rest = []
    · have read : file.rest.drop bufLen = file.rest := by rw [exhausted, List.drop_nil]
      obtain ⟨driven', same⟩ := driven.of_read { job with eofIn := true }
        ⟨file.rest.drop bufLen, decide (file.rest.length < bufLen)⟩ (congrArg job.input read) unread
        (fun _ => read.trans exhausted) short ⟨rfl, rfl, rfl, rfl, rfl, rfl, rfl⟩
      refine ⟨_, _, if_pos exhausted, driven', ?_, rfl, by simp⟩
      have length := congrArg List.length read
      simp only [driveMeasure, same, length, ended, ↓reduceIte, Bool.false_eq_true]
      omega
    · obtain ⟨driven', same⟩ := driven.of_read { job with nextIn := file.rest.take bufLen }
        ⟨file.rest.drop bufLen, decide (file.rest.length < bufLen)⟩
        (by simp only [input, List.take_append_drop, buffered, List.nil_append]) unread
        (fun atEof => absurd atEof ended) short ⟨rfl, rfl, rfl, rfl, rfl, rfl, rfl⟩
      refine ⟨_, _, if_neg exhausted, driven', ?_, rfl, ?_⟩
      · simp only [driveMeasure, same, buffered, List.length_take, List.length_drop, List.length_nil]
        omega
      · intro _ empty
        simp [List.take_eq_nil_iff, exhausted, bufLen] at empty
  · exact ⟨job, file, if_pos buffered, driven, le_rfl, rfl, fun _ => buffered⟩

/-- Draining hands the written octets over and frees the output buffer. -/
theorem rsOutfilebufDrain_spec (out : Bytes) (sound : job.Sound rest) :
    ∃ next out', rsOutfilebufDrain job out = (next, out') ∧ next.Sound rest ∧ next.written = [] ∧
      next.attached = true ∧ (∀ rest, next.input rest = job.input rest) ∧ next.writeBuf = job.writeBuf ∧
      next.copyLen = job.copyLen ∧ next.own = job.own ∧ next.complete = job.complete ∧
      next.eofIn = job.eofIn ∧ next.nextIn = job.nextIn ∧ out' = out ++ job.written := by
  rw [rsOutfilebufDrain]
  cases attached : job.attached with
  | true =>
    have room := sound.room attached
    by_cases nothing : job.written = []
    · refine ⟨job, out, by simp [nothing], sound, nothing, attached, fun _ => rfl, rfl, rfl, rfl, rfl, rfl, rfl, ?_⟩
      rw [nothing, List.append_nil]
    · refine ⟨{ job with written := [], availOut := bufLen }, _, by rw [if_pos rfl, if_pos nothing, attached],
        ⟨sound.copies, sound.ended, ?_, ?_⟩, rfl, attached, fun _ => rfl, rfl, rfl, rfl, rfl, rfl, rfl, rfl⟩
      · simp [attached]
      · simp
  | false =>
    obtain ⟨nothing, -⟩ := sound.detached attached
    refine ⟨{ job with attached := true, availOut := bufLen }, _, if_neg Bool.false_ne_true,
      ⟨sound.copies, sound.ended, ?_, ?_⟩, nothing, rfl, fun _ => rfl, rfl, rfl, rfl, rfl, rfl, rfl, ?_⟩
    · simp
    · simp [nothing]
    · rw [nothing, List.append_nil]

/-- The state after one round, drained or without an output file. -/
theorem Reached.drained {spec : JobSpec statefn hasOut} {file : InFile} (feof : file.feof = true → file.rest = [])
    (reached : spec.Reached job next out file.rest) :
    ∃ next' out', (if hasOut then rsOutfilebufDrain next out else (next, out)) = (next', out') ∧
      spec.Driven (next', file, out') ∧ next'.own = next.own ∧ next'.complete = next.complete ∧
      next'.emitted out' file.rest = next.emitted out file.rest ∧ next'.pending file.rest = next.pending file.rest ∧
      next'.tube = next.tube ∧ next'.nextIn = next.nextIn ∧ next'.eofIn = next.eofIn ∧
      next'.attached = (hasOut || next.attached) := by
  cases hasOut with
  | true =>
    obtain ⟨next', out', drain, sound, written, attached, whole, writeBuf, copyLen, own, complete, eofIn, nextIn,
      rfl⟩ := rsOutfilebufDrain_spec out reached.sound
    have emits : next'.emitted (out ++ next.written) file.rest = next.emitted out file.rest := by
      simp only [emitted, written, whole, writeBuf, copyLen, List.nil_append, List.append_assoc]
    have pends : next'.pending file.rest = next.pending file.rest := by
      simp only [pending, whole, copyLen]
    refine ⟨next', _, drain, ⟨sound, ?_, feof, written⟩, own, complete, emits, pends, ?_, nextIn, eofIn, attached⟩
    · simpa only [Holds, own, complete, eofIn, emits, pends] using reached.holds
    · simp only [tube, writeBuf, copyLen]
  | false =>
    have written : next.written = [] := by
      have silent : next.emitted out file.rest = [] := by
        rcases reached.holds with ⟨-, inv⟩ | ⟨-, final, -⟩
        · exact (spec.silent rfl).1 inv
        · exact (spec.silent rfl).2 final
      simp only [emitted, List.append_eq_nil_iff] at silent
      exact silent.2.1
    exact ⟨next, out, rfl, ⟨reached.sound, reached.holds, feof, written⟩, rfl, rfl, rfl, rfl, rfl, rfl, rfl, rfl⟩

/-- One round of `rs_job_drive`. -/
theorem rsDriveRound_keeps {fuel : ℕ} {state : Job σ × InFile × Bytes}
    (driven : spec.Driven state ∧ spec.driveMeasure state < fuel) :
    Round.Keeps (fun state => spec.Driven state ∧ spec.driveMeasure state < fuel) spec.driveMeasure
      (fun final : Result × Job σ × Bytes => (final.1 = .done ∧ spec.Final final.2.1.own final.2.2) ∨
        (spec.Fails final.1 ∧ final.1 ≠ .done))
      state (rsDriveRound statefn fuel hasOut state) := by
  obtain ⟨job, file, out⟩ := state
  obtain ⟨driven, enough⟩ := driven
  obtain ⟨filled, file', fill, driven', shrinks, attached, supplied⟩ := spec.rsInfilebufFill_spec driven
  have sound : filled.Sound file'.rest := driven'.sound
  have holds : spec.Holds filled out file'.rest := driven'.holds
  have inner : filled.cost spec.potential out file'.rest + filled.tube < fuel := by
    simp only [driveMeasure] at shrinks enough
    omega
  obtain ⟨result, next, iterated, ⟨reached, ended⟩ | ⟨fails, undone, unblocked⟩⟩ := spec.rsJobIter_spec sound holds inner
  swap
  · left
    refine ⟨(result, next, out), ?_, .inr ⟨fails, undone⟩⟩
    simp only [rsDriveRound, fill, iterated, bind, Except.bind]
    rw [if_pos ⟨undone, unblocked⟩]
    rfl
  dsimp only at reached ended
  have feof : file'.feof = true → file'.rest = [] := driven'.feof
  obtain ⟨next', out', drain, driven'', own, complete, emits, pends, tubes, nextIn, eofIn, attached'⟩ :=
    reached.drained feof
  simp only [rsDriveRound, fill, iterated, bind, Except.bind, drain, pure, Except.pure]
  rcases ended with ⟨rfl, idle, finished⟩ | ⟨rfl, reason⟩
  · left
    refine ⟨(.done, next', out'), by simp, .inl ⟨rfl, ?_⟩⟩
    have final : spec.Final next'.own (next'.emitted out' file'.rest) := by
      rcases driven''.holds with ⟨running, -⟩ | ⟨-, final, -⟩
      · simp [complete.trans finished] at running
      · exact final
    have idle' : next'.Idle := idle_iff_tube.mpr (tubes.trans (idle_iff_tube.mp idle))
    have drained : next'.written = [] := driven''.drained
    simpa only [emitted, drained, idle'.1, idle'.2, List.take_zero, List.append_nil] using final
  · right
    have progress : spec.driveMeasure (next', file', out') < spec.driveMeasure (filled, file', out) := by
      have pays := reached.pays
      have availOut := reached.availOut
      have input := reached.nextIn
      have stays := reached.complete
      have costs : next'.cost spec.potential out' file'.rest = next.cost spec.potential out file'.rest := by
        simp only [cost, own, emits, pends, complete]
      simp only [driveMeasure, costs, tubes, nextIn, eofIn, reached.eofIn, attached', reached.attached, complete]
      have completes : (if next.complete = true then 0 else 1) ≤ (if filled.complete = true then 0 else 1) := by
        split
        · exact Nat.zero_le _
        · next running => rw [if_neg fun done => running (stays done)]
      have attaches : (if (hasOut || filled.attached) = true then 0 else 1) ≤
          (if filled.attached = true then 0 else 1) := by
        cases filled.attached <;> cases hasOut <;> decide
      rcases reason with (⟨out, full⟩ | ⟨starved, waiting⟩) | ⟨running, done, -⟩
      · cases ready : filled.attached with
        | true =>
          have room := sound.room ready
          have empty : filled.written = [] := driven'.drained
          simp only [empty, List.length_nil, bufLen] at room
          simp only [Bool.or_true, ↓reduceIte]
          omega
        | false =>
          simp only [out, Bool.true_or, ↓reduceIte, Bool.false_eq_true]
          omega
      · have positive := List.length_pos_of_ne_nil (supplied (reached.eofIn ▸ waiting))
        have zero : next.nextIn.length = 0 := by rw [starved, List.length_nil]
        omega
      · simp only [running, done, Bool.false_eq_true, ↓reduceIte] at completes ⊢
        omega
    refine ⟨(next', file', out'), by simp, ⟨driven'', ?_⟩, ?_⟩ <;> omega

/-- A job whose state functions meet their specification runs to its end. -/
theorem rsWholeRun_ends (own : σ) (data : Bytes) {fuel : ℕ} (start : spec.Inv own false [] data)
    (enough : spec.potential own [] data + 2 * data.length + 3 < fuel) :
    ∃ result job out, rsWholeRun statefn fuel hasOut own data = .ok (result, job, out) ∧
      ((result = .done ∧ spec.Final job.own out) ∨ (spec.Fails result ∧ result ≠ .done)) := by
  have driven : spec.Driven (Job.new own, ⟨data, false⟩, []) := by
    refine ⟨⟨Nat.zero_le _, by simp [Job.new], fun _ => ⟨rfl, rfl⟩, by simp [Job.new]⟩, .inl ⟨rfl, ?_⟩, by simp, rfl⟩
    simpa [emitted, pending, input, Job.new] using start
  have measure : spec.driveMeasure (Job.new own, ⟨data, false⟩, []) < fuel := by
    simp only [driveMeasure, cost, Job.new, emitted, pending, input, tube, List.take_zero, List.drop_zero,
      List.nil_append, List.length_nil, Bool.false_eq_true, ↓reduceIte]
    omega
  obtain ⟨⟨result, job, out⟩, ran, ended⟩ := Round.loop_total Abort.outOfFuel
    (fun _ => spec.rsDriveRound_keeps) ⟨driven, measure⟩ measure
  exact ⟨result, job, out, ran, ended⟩

/-- A job that never fails is done in the end. -/
theorem rsWholeRun_done (own : σ) (data : Bytes) {fuel : ℕ} (never : ∀ result, ¬ spec.Fails result)
    (start : spec.Inv own false [] data) (enough : spec.potential own [] data + 2 * data.length + 3 < fuel) :
    ∃ job out, rsWholeRun statefn fuel hasOut own data = .ok (.done, job, out) ∧ spec.Final job.own out := by
  obtain ⟨result, job, out, ran, ⟨rfl, final⟩ | ⟨fails, -⟩⟩ := spec.rsWholeRun_ends own data start enough
  · exact ⟨job, out, ran, final⟩
  · exact absurd fails (never _)

end JobSpec

end DeltaCFS
