import DeltaCFS.Proofs.Librsync.Job

/-! # Reading through the scoop and writing through the tube

Reads see the input as one string: they take a prefix of it, or move everything that is there into
the scoop and wait, or find the end.
-/

namespace DeltaCFS

open Bytes Job

variable {σ : Type} {job next : Job σ} {rest out : Bytes} {len : ℕ}

/-- Only scoop and input buffer changed, and `len` octets are gone from the front of the input. -/
structure Job.Takes (job next : Job σ) (len : ℕ) (rest : Bytes) : Prop where
  shape : next = { job with nextIn := next.nextIn, scoop := next.scoop }
  input : next.input rest = (job.input rest).drop len
  nextIn : next.nextIn.length ≤ job.nextIn.length

namespace Job.Takes

theorem toExtends (takes : job.Takes next len rest) (sound : job.Sound rest) (idle : job.Idle) :
    job.Extends next rest := by
  have copied : next.copyLen = 0 := by rw [takes.shape]; exact idle.2
  refine ⟨⟨by rw [copied]; exact Nat.zero_le _, ?_, ?_, ?_⟩, ?_, ?_, ?_, ?_, takes.nextIn⟩
  all_goals rw [takes.shape]
  · exact sound.ended
  · exact sound.detached
  · exact sound.room

theorem idle (takes : job.Takes next len rest) (idle : job.Idle) : next.Idle := by
  rw [takes.shape]
  exact idle

theorem own (takes : job.Takes next len rest) : next.own = job.own := by rw [takes.shape]

theorem availOut (takes : job.Takes next len rest) : next.availOut = job.availOut := by rw [takes.shape]

theorem eofIn (takes : job.Takes next len rest) : next.eofIn = job.eofIn := by rw [takes.shape]

theorem pending (takes : job.Takes next len rest) (idle : job.Idle) :
    next.pending rest = (job.pending rest).drop len := by
  simp only [Job.pending, (takes.idle idle).2, idle.2, List.drop_zero, takes.input]

theorem emitted (takes : job.Takes next len rest) (idle : job.Idle) :
    next.emitted out rest = job.emitted out rest := by
  have written : next.written = job.written := by rw [takes.shape]
  simp only [Job.emitted, (takes.idle idle).1, (takes.idle idle).2, idle.1, idle.2, List.take_zero, written]

theorem refl (job : Job σ) (rest : Bytes) : job.Takes job 0 rest := ⟨rfl, rfl, le_rfl⟩

theorem trans {middle : Job σ} (first : job.Takes middle 0 rest) (second : middle.Takes next len rest) :
    job.Takes next len rest where
  shape := by
    rw [second.shape, first.shape]
  input := by rw [second.input, first.input, List.drop_zero]
  nextIn := second.nextIn.trans first.nextIn

end Job.Takes

theorem rsScoopInput_takes (short : job.scoop.length + job.nextIn.length < len) :
    rsScoopInput len job = .ok { job with scoop := job.scoop ++ job.nextIn, nextIn := [] } := by
  have all : min (len - job.scoop.length) job.nextIn.length = job.nextIn.length := by omega
  rw [rsScoopInput, if_pos (by omega)]
  simp only [all, List.take_length, List.drop_length]

private theorem rsScoopRead_of_done {octets : Bytes} (middle : Job σ)
    (read : rsScoopReadahead len job = .ok (.done, octets, middle))
    (advance : rsScoopAdvance len middle = .ok next) : rsScoopRead len job = .ok (.done, octets, next) := by
  simp only [rsScoopRead, read, bind, Except.bind, ↓reduceIte, advance, pure, Except.pure]

private theorem rsScoopRead_of_not_done {result : Result} (octets : Bytes)
    (read : rsScoopReadahead len job = .ok (result, octets, next)) (other : result ≠ .done) :
    rsScoopRead len job = .ok (result, [], next) := by
  simp only [rsScoopRead, read, bind, Except.bind, if_neg other, pure, Except.pure]

/-- Octets that are in the scoop or the input buffer are looked at at once. -/
theorem rsScoopReadahead_done (rest : Bytes) (len : ℕ) (job : Job σ)
    (there : len ≤ job.scoop.length + job.nextIn.length) :
    ∃ next, rsScoopReadahead len job = .ok (.done, (job.input rest).take len, next) ∧ job.Takes next 0 rest ∧
      (len ≤ next.scoop.length ∨ next.scoop = [] ∧ len ≤ next.nextIn.length) := by
  by_cases inScoop : len ≤ job.scoop.length
  · refine ⟨job, ?_, .refl job rest, .inl inScoop⟩
    rw [rsScoopReadahead, if_pos inScoop, input, List.take_append_of_le_length inScoop]
  · by_cases empty : job.scoop = []
    · have inNext : len ≤ job.nextIn.length := by simpa [empty] using there
      refine ⟨job, ?_, .refl job rest, .inr ⟨empty, inNext⟩⟩
      rw [rsScoopReadahead, if_neg inScoop, if_neg (not_not.mpr empty), if_pos inNext, input, empty, List.nil_append,
        List.take_append_of_le_length inNext]
    · have count : min (len - job.scoop.length) job.nextIn.length = len - job.scoop.length := by omega
      have scooped : (job.scoop ++ job.nextIn.take (len - job.scoop.length)).length = len := by
        rw [List.length_append, List.length_take]
        omega
      have octets : (job.input rest).take len = job.scoop ++ job.nextIn.take (len - job.scoop.length) := by
        rw [input, List.take_append, List.take_append_of_le_length (by omega), List.take_of_length_le (by omega)]
      refine ⟨{ job with
          scoop := job.scoop ++ job.nextIn.take (len - job.scoop.length)
          nextIn := job.nextIn.drop (len - job.scoop.length) }, ?_, ⟨rfl, ?_, by simp⟩, .inl scooped.ge⟩
      · rw [rsScoopReadahead, if_neg inScoop, if_pos empty, rsScoopInput, if_pos (by omega)]
        simp only [count, bind, Except.bind, scooped, lt_self_iff_false, ↓reduceIte, pure, Except.pure, octets]
        rw [List.take_of_length_le (le_of_eq scooped)]
      · simp only [input, List.append_assoc, List.drop_zero]
        rw [← List.append_assoc (List.take _ _), List.take_append_drop]

/-- When not enough is there, everything goes into the scoop and the job waits, unless the input has
ended with nothing left. -/
theorem rsScoopReadahead_short (short : job.scoop.length + job.nextIn.length < len) :
    (rsScoopReadahead len job = .ok (.blocked, [], { job with scoop := job.scoop ++ job.nextIn, nextIn := [] }) ∧
      (job.scoop ++ job.nextIn = [] → job.eofIn = false)) ∨
    (rsScoopReadahead len job = .ok (.inputEnded, [], job) ∧ job.scoop ++ job.nextIn = [] ∧ job.eofIn = true) := by
  have scoops := rsScoopInput_takes short
  have notScoop : ¬ len ≤ job.scoop.length := by omega
  have notNext : ¬ len ≤ job.nextIn.length := by omega
  by_cases empty : job.scoop = []
  · by_cases starved : job.nextIn = []
    · have same : ({ job with scoop := job.scoop ++ job.nextIn, nextIn := [] } : Job σ) = job := by
        rw [empty, starved]
        cases job
        simp_all
      rw [same]
      by_cases ended : job.eofIn = true
      · refine .inr ⟨?_, by simp [empty, starved], ended⟩
        rw [rsScoopReadahead, if_neg notScoop, if_neg (not_not.mpr empty), if_neg notNext,
          if_neg (not_not.mpr starved), if_pos ended]
      · refine .inl ⟨?_, fun _ => Bool.not_eq_true _ ▸ ended⟩
        rw [rsScoopReadahead, if_neg notScoop, if_neg (not_not.mpr empty), if_neg notNext,
          if_neg (not_not.mpr starved), if_neg ended]
    · refine .inl ⟨?_, by simp [starved]⟩
      rw [rsScoopReadahead, if_neg notScoop, if_neg (not_not.mpr empty), if_neg notNext, if_pos starved, scoops]
      rfl
  · refine .inl ⟨?_, by simp [empty]⟩
    rw [rsScoopReadahead, if_neg notScoop, if_pos empty, scoops]
    simp only [bind, Except.bind, List.length_append, short, ↓reduceIte, pure, Except.pure]

/-- What has been looked at is taken from the place where it lies. -/
theorem rsScoopAdvance_takes (rest : Bytes)
    (ready : len ≤ job.scoop.length ∨ job.scoop = [] ∧ len ≤ job.nextIn.length) :
    ∃ next, rsScoopAdvance len job = .ok next ∧ job.Takes next len rest := by
  by_cases empty : job.scoop = []
  · have inNext : len ≤ job.nextIn.length := by
      rcases ready with inScoop | ⟨-, inNext⟩
      · rw [empty, List.length_nil] at inScoop
        omega
      · exact inNext
    refine ⟨{ job with nextIn := job.nextIn.drop len }, ?_, rfl, ?_, by simp⟩
    · rw [rsScoopAdvance, if_neg (not_not.mpr empty), if_pos inNext]
    · simp only [input, empty, List.nil_append]
      rw [List.drop_append_of_le_length inNext]
  · have inScoop : len ≤ job.scoop.length := ready.resolve_right fun other => empty other.1
    refine ⟨{ job with scoop := job.scoop.drop len }, ?_, rfl, ?_, le_rfl⟩
    · rw [rsScoopAdvance, if_pos empty, if_pos inScoop]
    · simp only [input]
      rw [List.drop_append_of_le_length inScoop]

/-- What is in the scoop or the input buffer is read at once. -/
theorem rsScoopRead_done (rest : Bytes) (len : ℕ) (job : Job σ)
    (there : len ≤ job.scoop.length + job.nextIn.length) :
    ∃ next, rsScoopRead len job = .ok (.done, (job.input rest).take len, next) ∧ job.Takes next len rest := by
  obtain ⟨middle, read, first, ready⟩ := rsScoopReadahead_done rest len job there
  obtain ⟨next, advance, second⟩ := rsScoopAdvance_takes rest ready
  exact ⟨next, rsScoopRead_of_done middle read advance, first.trans second⟩

/-- The same for reading. -/
theorem rsScoopRead_short (short : job.scoop.length + job.nextIn.length < len) :
    (rsScoopRead len job = .ok (.blocked, [], { job with scoop := job.scoop ++ job.nextIn, nextIn := [] }) ∧
      (job.scoop ++ job.nextIn = [] → job.eofIn = false)) ∨
    (rsScoopRead len job = .ok (.inputEnded, [], job) ∧ job.scoop ++ job.nextIn = [] ∧ job.eofIn = true) :=
  (rsScoopReadahead_short short).imp (And.imp_left fun read => rsScoopRead_of_not_done [] read (by decide))
    (And.imp_left fun read => rsScoopRead_of_not_done [] read (by decide))

/-- Input that a job knows to be there, but does not have yet, is still to come. -/
theorem Job.Sound.unread (sound : job.Sound rest) (known : len ≤ (job.input rest).length)
    (missing : ¬ len ≤ job.scoop.length + job.nextIn.length) : job.eofIn = false := by
  by_contra ended
  rw [Bool.not_eq_false] at ended
  simp only [input, sound.ended ended, List.append_nil, List.length_append] at known
  omega

/-- A job waits for input that it knows to be there. -/
theorem rsScoopRead_known (sound : job.Sound rest) (known : len ≤ (job.input rest).length) :
    (∃ next, rsScoopRead len job = .ok (.done, (job.input rest).take len, next) ∧ job.Takes next len rest) ∨
      ∃ next, rsScoopRead len job = .ok (.blocked, [], next) ∧ job.Takes next 0 rest ∧ next.nextIn = [] ∧
        next.eofIn = false := by
  by_cases there : len ≤ job.scoop.length + job.nextIn.length
  · exact .inl (rsScoopRead_done rest len job there)
  · have unread := sound.unread known there
    rcases rsScoopRead_short (Nat.lt_of_not_le there) with ⟨blocked, -⟩ | ⟨-, -, ended⟩
    · refine .inr ⟨_, blocked, ⟨rfl, ?_, Nat.zero_le _⟩, rfl, unread⟩
      simp [input]
    · rw [unread] at ended
      cases ended

/-- A call that reads octets it knows to be there, and goes on to other own fields once it has them. -/
theorem Job.step_of_read {statefn : Job σ → Except Abort (Result × Job σ)} {Inv : σ → Bool → Bytes → Bytes → Prop}
    {Final : σ → Bytes → Prop} {Fails : Result → Prop} {potential : σ → Bytes → Bytes → ℕ} {hasOut : Bool} (len : ℕ) (own : σ)
    (sound : job.Sound rest) (idle : job.Idle) (inv : Inv job.own job.eofIn (job.emitted out rest) (job.pending rest))
    (known : len ≤ (job.pending rest).length)
    (waiting : ∀ next, rsScoopRead len job = .ok (.blocked, [], next) → statefn job = .ok (.blocked, next))
    (ready : ∀ next, next.own = job.own → rsScoopRead len job = .ok (.done, (job.pending rest).take len, next) →
      statefn job = .ok (.running, { next with own := own }))
    (inv' : Inv own job.eofIn (job.emitted out rest) ((job.pending rest).drop len))
    (pays : potential own (job.emitted out rest) ((job.pending rest).drop len) + 1 ≤
      potential job.own (job.emitted out rest) (job.pending rest)) :
    ∃ result next, statefn job = .ok (result, next) ∧ job.Extends next rest ∧
      job.Outcome Inv Final Fails potential hasOut next out rest result := by
  have pends : job.pending rest = job.input rest := by rw [Job.pending, idle.2, List.drop_zero]
  rcases rsScoopRead_known sound (pends ▸ known) with ⟨next, read, takes⟩ | ⟨next, read, takes, starved, unread⟩
  · have moved := takes.toExtends sound idle
    have emits : ({ next with own := own } : Job σ).emitted out rest = job.emitted out rest := takes.emitted idle
    have behind : ({ next with own := own } : Job σ).pending rest = (job.pending rest).drop len :=
      takes.pending idle
    rw [← pends] at read
    refine ⟨_, _, ready next takes.own read,
      ⟨⟨moved.sound.copies, moved.sound.ended, moved.sound.detached, moved.sound.room⟩, moved.eofIn,
        moved.attached, moved.complete, moved.availOut, moved.nextIn⟩, .running ?_ ?_⟩
    · rw [emits, behind]
      change Inv own next.eofIn _ _
      rw [takes.eofIn]
      exact inv'
    · have tube : ({ next with own := own } : Job σ).tube = 0 := idle_iff_tube.mp (takes.idle idle)
      have room : ({ next with own := own } : Job σ).availOut = job.availOut := takes.availOut
      rw [Pays, emits, behind, tube, room, idle_iff_tube.mp idle]
      change potential own _ _ + 0 + _ + 1 ≤ _
      omega
  · refine ⟨_, _, waiting next read, takes.toExtends sound idle, .blocked ?_ ?_ (.inr ⟨starved, unread⟩)⟩
    · rw [takes.own, takes.eofIn, takes.emitted idle, takes.pending idle, List.drop_zero]
      exact inv
    · simp only [Pays, takes.own, takes.emitted idle, takes.pending idle, List.drop_zero, idle_iff_tube.mp (takes.idle idle),
        takes.availOut, idle_iff_tube.mp idle, Nat.add_zero, le_refl]

@[simp] theorem netint_length (width value : ℕ) : (netint width value).length = width := by
  simp [netint]

/-- A network integer is read back up to its width. -/
theorem ofNetint_netint (width value : ℕ) : ofNetint (netint width value) = value % 256 ^ width := by
  rw [ofNetint, netint, List.reverse_reverse, toNatLE_ofNatLE]

/-- A call that reads a network integer. -/
theorem Job.step_of_suck {statefn : Job σ → Except Abort (Result × Job σ)} {Inv : σ → Bool → Bytes → Bytes → Prop}
    {Final : σ → Bytes → Prop} {Fails : Result → Prop} {potential : σ → Bytes → Bytes → ℕ} {hasOut : Bool}
    {width value : ℕ} {behind : Bytes} (own : σ) (sound : job.Sound rest) (idle : job.Idle)
    (inv : Inv job.own job.eofIn (job.emitted out rest) (job.pending rest))
    (pends : job.pending rest = netint width value ++ behind) (small : value < 256 ^ width)
    (waiting : ∀ next, rsSuckNetint width job = .ok (.blocked, 0, next) → statefn job = .ok (.blocked, next))
    (ready : ∀ next, next.own = job.own → rsSuckNetint width job = .ok (.done, value, next) →
      statefn job = .ok (.running, { next with own := own }))
    (inv' : Inv own job.eofIn (job.emitted out rest) behind)
    (pays : potential own (job.emitted out rest) behind + 1 ≤
      potential job.own (job.emitted out rest) (netint width value ++ behind)) :
    ∃ result next, statefn job = .ok (result, next) ∧ job.Extends next rest ∧
      job.Outcome Inv Final Fails potential hasOut next out rest result := by
  have size := netint_length width value
  have taken : (job.pending rest).take width = netint width value := by rw [pends, List.take_left' size]
  have left : (job.pending rest).drop width = behind := by rw [pends, List.drop_left' size]
  apply Job.step_of_read width own sound idle inv
  · rw [pends, List.length_append, size]
    omega
  · intro next read
    apply waiting
    simp [rsSuckNetint, read, bind, Except.bind, pure, Except.pure, ofNetint, toNatLE]
  · intro next same read
    apply ready next same
    simp only [rsSuckNetint, read, bind, Except.bind, pure, Except.pure, taken, ofNetint_netint,
      Nat.mod_eq_of_lt small]
  · rw [left]
    exact inv'
  · rw [left, pends]
    exact pays

/-- Looking ahead for octets that a job knows to be there. -/
theorem rsScoopReadahead_known (sound : job.Sound rest) (known : len ≤ (job.input rest).length) :
    (∃ octets next, rsScoopReadahead len job = .ok (.done, octets, next) ∧ job.Takes next 0 rest ∧
      len ≤ next.scoop.length + next.nextIn.length) ∨
    ∃ next, rsScoopReadahead len job = .ok (.blocked, [], next) ∧ job.Takes next 0 rest ∧ next.nextIn = [] ∧
      next.eofIn = false := by
  by_cases there : len ≤ job.scoop.length + job.nextIn.length
  · obtain ⟨next, read, takes, ready⟩ := rsScoopReadahead_done rest len job there
    refine .inl ⟨_, next, read, takes, ?_⟩
    rcases ready with inScoop | ⟨-, inNext⟩
    · exact inScoop.trans (Nat.le_add_right _ _)
    · exact inNext.trans (Nat.le_add_left _ _)
  · have unread := sound.unread known there
    rcases rsScoopReadahead_short (Nat.lt_of_not_le there) with ⟨blocked, -⟩ | ⟨-, -, ended⟩
    · exact .inr ⟨_, blocked, ⟨rfl, by simp [input], Nat.zero_le _⟩, rfl, unread⟩
    · rw [unread] at ended
      cases ended

/-- The job with octets in its idle tube and new own fields. -/
def Job.queue (job : Job σ) (buf : Bytes) (own : σ) : Job σ := { job with writeBuf := buf, own := own }

@[simp] theorem queue_own (buf : Bytes) (own : σ) : (job.queue buf own).own = own := rfl

@[simp] theorem queue_availOut (buf : Bytes) (own : σ) : (job.queue buf own).availOut = job.availOut := rfl

@[simp] theorem queue_pending (buf : Bytes) (own : σ) : (job.queue buf own).pending rest = job.pending rest := rfl

theorem queue_tube (idle : job.Idle) (buf : Bytes) (own : σ) : (job.queue buf own).tube = buf.length := by
  simp [Job.queue, tube, idle.2]

theorem queue_emitted (idle : job.Idle) (buf : Bytes) (own : σ) :
    (job.queue buf own).emitted out rest = job.emitted out rest ++ buf := by
  simp [Job.queue, emitted, input, idle.1, idle.2]

theorem queue_extends (sound : job.Sound rest) (buf : Bytes) (own : σ) : job.Extends (job.queue buf own) rest :=
  ⟨⟨sound.copies, sound.ended, sound.detached, sound.room⟩, rfl, rfl, rfl, le_rfl, le_rfl⟩

end DeltaCFS
