import DeltaCFS.Model.Librsync.Signature
import DeltaCFS.Proofs.Librsync.Scoop

/-! # The signature of a file

The signature job writes, and the load job reads back, the weak sum of every block of 2048 octets of
the old file, the last of which may be short.
-/

namespace DeltaCFS

open Bytes Job

/-- The blocks of the old file. -/
def blockAt (old : Bytes) (i : ℕ) : Bytes := (old.drop (defaultBlockLen * i)).take defaultBlockLen

def blockCount (old : Bytes) : ℕ := (old.length + (defaultBlockLen - 1)) / defaultBlockLen

/-- The signature entries of the blocks `first … first + count - 1`. -/
def sigEntries (stack : Stack) (old : Bytes) (first count : ℕ) : Bytes :=
  (List.range' first count).flatMap fun i =>
    netint 4 (rsCalcWeakSum (blockAt old i)).toNat ++ stack.octets i defaultStrongLen

def sigHeader : Bytes := netint 4 sigMagic ++ (netint 4 defaultBlockLen ++ netint 4 defaultStrongLen)

@[simp] theorem Stack.octets_length (stack : Stack) (use len : ℕ) : (stack.octets use len).length = len := by
  simp [Stack.octets]

theorem sigEntries_succ (stack : Stack) (old : Bytes) (first count : ℕ) :
    sigEntries stack old first (count + 1) = sigEntries stack old first count ++
      (netint 4 (rsCalcWeakSum (blockAt old (first + count))).toNat ++
        stack.octets (first + count) defaultStrongLen) := by
  simp [sigEntries, List.range'_concat, List.flatMap_append]

theorem sigEntries_cons (stack : Stack) (old : Bytes) (first count : ℕ) :
    sigEntries stack old first (count + 1) =
      netint 4 (rsCalcWeakSum (blockAt old first)).toNat ++ (stack.octets first defaultStrongLen ++
        sigEntries stack old (first + 1) count) := by
  simp [sigEntries, List.range'_succ]

/-! ## Writing -/

/-- The invariant of the signature job. -/
def SigInv (stack : Stack) (old : Bytes) (own : SigJob) (_ : Bool) (emitted pending : Bytes) : Prop :=
  own.blockLen = defaultBlockLen ∧ own.strongSumLen = defaultStrongLen ∧
    match own.statefn with
    | .header => own.sigBlocks = 0 ∧ emitted = [] ∧ pending = old
    | .generate => own.sigBlocks ≤ blockCount old ∧
        emitted = sigHeader ++ sigEntries stack old 0 own.sigBlocks ∧
        pending = old.drop (defaultBlockLen * own.sigBlocks)

def sigPotential (own : SigJob) (pending : Bytes) : ℕ :=
  13 * pending.length + if own.statefn = .header then 13 else 0

variable {stack : Stack} {old out rest : Bytes} {job : Job SigJob}

theorem rsSigSHeader_spec (sound : job.Sound rest) (idle : job.Idle) (header : job.own.statefn = .header)
    (inv : SigInv stack old job.own job.eofIn (job.emitted out rest) (job.pending rest)) :
    ∃ result next, rsSigSHeader job = .ok (result, next) ∧ job.Extends next rest ∧
      job.Outcome (SigInv stack old) (fun _ emitted => emitted = sigHeader ++ sigEntries stack old 0 (blockCount old))
        (fun _ => False) (fun own _ => sigPotential own) true next out rest result := by
  obtain ⟨blockLen, strongSumLen, state⟩ := inv
  rw [header] at state
  obtain ⟨sigBlocks, emits, pends⟩ := state
  have value : rsSigSHeader job = .ok (.running, job.queue sigHeader { job.own with statefn := .generate }) := by
    simp [rsSigSHeader, rsSquirtN4, rsSquirtNetint, rsTubeWrite, idle.1, idle.2, tubeSize, bind, Except.bind, pure,
      Except.pure, sigHeader, blockLen, strongSumLen, queue]
  refine ⟨_, _, value, queue_extends sound _ _, .running ⟨blockLen, strongSumLen, ?_⟩ ?_⟩
  · refine ⟨by simp [sigBlocks], ?_, ?_⟩
    · rw [queue_emitted idle, emits]
      simp [sigBlocks, sigEntries]
    · simpa [sigBlocks] using pends
  · simp only [Pays, sigPotential, queue_tube idle, idle_iff_tube.mp idle, header, queue_own, queue_pending,
      queue_availOut, ↓reduceIte, sigHeader, List.length_append, netint_length, reduceCtorEq]
    omega

/-- A block goes into the signature. -/
theorem rsSigDoBlock_value (idle : job.Idle) (strongSumLen : job.own.strongSumLen = defaultStrongLen)
    (block : Bytes) :
    rsSigDoBlock stack block job = .ok (.running, job.queue
      (netint 4 (rsCalcWeakSum block).toNat ++ stack.octets job.own.sigBlocks defaultStrongLen)
      { job.own with sigBlocks := job.own.sigBlocks + 1 }) := by
  simp [rsSigDoBlock, rsSquirtN4, rsSquirtNetint, rsTubeWrite, idle.1, idle.2, tubeSize, bind, Except.bind, pure,
    Except.pure, strongSumLen, queue, defaultStrongLen]

/-- Taking the next block and writing its entry. -/
theorem rsSigDoBlock_outcome {next : Job SigJob} {len : ℕ} (sound : job.Sound rest) (idle : job.Idle)
    (generate : job.own.statefn = .generate)
    (inv : SigInv stack old job.own job.eofIn (job.emitted out rest) (job.pending rest))
    (nonempty : job.pending rest ≠ []) (takes : job.Takes next len rest) (positive : 0 < len)
    (block : (job.pending rest).take len = (job.pending rest).take defaultBlockLen)
    (behind : (job.pending rest).drop len = (job.pending rest).drop defaultBlockLen) :
    ∃ result final, rsSigDoBlock stack ((job.pending rest).take len) next = .ok (result, final) ∧
      job.Extends final rest ∧
      job.Outcome (SigInv stack old) (fun _ emitted => emitted = sigHeader ++ sigEntries stack old 0 (blockCount old))
        (fun _ => False) (fun own _ => sigPotential own) true final out rest result := by
  obtain ⟨blockLen, strongSumLen, state⟩ := inv
  rw [generate] at state
  obtain ⟨bound, emits, pends⟩ := state
  have idle' := takes.idle idle
  have own := takes.own
  have more : job.own.sigBlocks < blockCount old := by
    rw [pends] at nonempty
    have := List.length_pos_of_ne_nil nonempty
    simp only [List.length_drop, blockCount, defaultBlockLen] at this ⊢
    omega
  have this_block : (job.pending rest).take len = blockAt old job.own.sigBlocks := by
    rw [block, pends, blockAt]
  refine ⟨_, _, rsSigDoBlock_value idle' (own ▸ strongSumLen) _,
    (takes.toExtends sound idle).trans (queue_extends (takes.toExtends sound idle).sound _ _),
    .running ⟨by simp [own, blockLen], by simp [own, strongSumLen], ?_⟩ ?_⟩
  · simp only [queue_own, own, generate]
    refine ⟨more, ?_, ?_⟩
    · rw [queue_emitted idle', takes.emitted idle, emits, this_block, sigEntries_succ, Nat.zero_add,
        List.append_assoc]
    · rw [queue_pending, takes.pending idle, behind, pends, List.drop_drop, Nat.mul_succ]
  · have length := List.length_pos_of_ne_nil nonempty
    simp only [Pays, sigPotential, queue_tube idle', idle_iff_tube.mp idle, own, generate, queue_own, queue_pending,
      queue_availOut, takes.availOut, takes.pending idle, reduceCtorEq, ↓reduceIte, List.length_append,
      netint_length, Stack.octets_length, defaultStrongLen, List.length_drop]
    omega

theorem rsSigSGenerate_spec (sound : job.Sound rest) (idle : job.Idle) (generate : job.own.statefn = .generate)
    (inv : SigInv stack old job.own job.eofIn (job.emitted out rest) (job.pending rest)) :
    ∃ result next, rsSigSGenerate stack job = .ok (result, next) ∧ job.Extends next rest ∧
      job.Outcome (SigInv stack old) (fun _ emitted => emitted = sigHeader ++ sigEntries stack old 0 (blockCount old))
        (fun _ => False) (fun own _ => sigPotential own) true next out rest result := by
  have blockLen := inv.1
  have pends : job.pending rest = job.input rest := by rw [pending, idle.2, List.drop_zero]
  by_cases there : defaultBlockLen ≤ job.scoop.length + job.nextIn.length
  · obtain ⟨next, read, takes⟩ := rsScoopRead_done rest defaultBlockLen job there
    have nonempty : job.pending rest ≠ [] := by
      rw [pends]
      intro empty
      simp only [input, List.append_eq_nil_iff] at empty
      simp [empty.1, empty.2.1, defaultBlockLen] at there
    obtain ⟨result, final, wrote, rest_spec⟩ := rsSigDoBlock_outcome sound idle generate inv nonempty takes
      (by decide) rfl rfl
    refine ⟨result, final, ?_, rest_spec⟩
    rw [pends] at wrote
    simp [rsSigSGenerate, blockLen, read, bind, Except.bind, wrote]
  · have short := Nat.lt_of_not_le there
    rcases rsScoopRead_short short with ⟨blocked, unread⟩ | ⟨atEnd, empty, ended⟩
    · have scooped : job.Takes { job with scoop := job.scoop ++ job.nextIn, nextIn := [] } 0 rest :=
        ⟨rfl, by simp [input], Nat.zero_le _⟩
      by_cases ended : job.eofIn = true
      · have all : job.pending rest = job.scoop ++ job.nextIn := by
          rw [pends, input, sound.ended ended, List.append_nil]
        have nonempty : job.pending rest ≠ [] := by
          rw [all]
          intro empty
          simp [unread empty] at ended
        have length : (job.pending rest).length < defaultBlockLen := by
          rw [all, List.length_append]
          exact short
        obtain ⟨next, read, takes⟩ := rsScoopRead_done rest (job.pending rest).length
          { job with scoop := job.scoop ++ job.nextIn, nextIn := [] } (by simp [all])
        have input_eq : ({ job with scoop := job.scoop ++ job.nextIn, nextIn := [] } : Job SigJob).input rest =
            job.pending rest := by
          rw [scooped.input, List.drop_zero, pends]
        have takes' : job.Takes next (job.pending rest).length rest := by
          refine ⟨takes.shape.trans rfl, ?_, takes.nextIn.trans (Nat.zero_le _)⟩
          rw [takes.input, input_eq, pends]
        obtain ⟨result, final, wrote, rest_spec⟩ := rsSigDoBlock_outcome sound idle generate inv nonempty takes'
          (List.length_pos_of_ne_nil nonempty)
          (by rw [List.take_length, List.take_of_length_le (Nat.le_of_lt length)])
          (by rw [List.drop_length, List.drop_eq_nil_of_le (Nat.le_of_lt length)])
        refine ⟨result, final, ?_, rest_spec⟩
        have total : rsScoopTotalAvail { job with scoop := job.scoop ++ job.nextIn, nextIn := [] } =
            (job.pending rest).length := by
          simp [rsScoopTotalAvail, all]
        rw [input_eq] at read
        rw [List.take_length] at read wrote
        simp only [rsSigSGenerate, blockLen, blocked, bind, Except.bind]
        rw [if_pos ⟨trivial, ended⟩, rsScoopReadRest, total, read]
        exact wrote
      · refine ⟨.blocked, _, ?_, scooped.toExtends sound idle, .blocked ?_ ?_ (.inr ⟨rfl, by simpa using ended⟩)⟩
        · simp [rsSigSGenerate, blockLen, blocked, bind, Except.bind, ended, pure, Except.pure]
        · rw [scooped.emitted idle, scooped.pending idle, List.drop_zero]
          exact inv
        · simp only [Pays, scooped.pending idle, List.drop_zero, idle_iff_tube.mp (scooped.idle idle)]
          omega
    · have nothing : job.pending rest = [] := by
        rw [pends, input, sound.ended ended, List.append_nil, empty]
      refine ⟨.done, job, ?_, .refl sound, .done ?_ nothing ?_ (by simp)⟩
      · simp [rsSigSGenerate, blockLen, atEnd, bind, Except.bind, pure, Except.pure]
      · obtain ⟨-, -, state⟩ := inv
        rw [generate] at state
        obtain ⟨bound, emits, behind⟩ := state
        have last : job.own.sigBlocks = blockCount old := by
          rw [nothing] at behind
          have := List.drop_eq_nil_iff.mp behind.symm
          simp only [blockCount, defaultBlockLen] at this bound ⊢
          omega
        rw [emits, last]
      · exact (List.append_eq_nil_iff.mp empty).2

/-- The signature job meets its specification. -/
def sigSpec (stack : Stack) (old : Bytes) : JobSpec (rsSigStatefn stack) true where
  Inv := SigInv stack old
  Final := fun _ emitted => emitted = sigHeader ++ sigEntries stack old 0 (blockCount old)
  potential := fun own _ => sigPotential own
  ended := id
  silent := by simp
  step := by
    intro job out rest sound idle _ inv
    rw [rsSigStatefn]
    split
    · next header => exact rsSigSHeader_spec sound idle header inv
    · next generate => exact rsSigSGenerate_spec sound idle generate inv

/-- `rs_sig_file` writes the entries of all blocks. -/
theorem rsSigFile_done (stack : Stack) (old : Bytes) {fuel : ℕ} (enough : 15 * old.length + 16 < fuel) :
    rsSigFile stack fuel old defaultBlockLen defaultStrongLen =
      .ok (.done, sigHeader ++ sigEntries stack old 0 (blockCount old)) := by
  have fuelled : (sigSpec stack old).potential (rsSigBegin defaultBlockLen defaultStrongLen) [] old +
      2 * old.length + 3 < fuel := by
    simp only [sigSpec, sigPotential, rsSigBegin, ↓reduceIte]
    omega
  obtain ⟨job, sig, ran, final⟩ := (sigSpec stack old).rsWholeRun_done
    (rsSigBegin defaultBlockLen defaultStrongLen) old (fun _ => id) ⟨rfl, rfl, rfl, rfl, rfl⟩ fuelled
  simp only [rsSigFile, ran, bind, Except.bind, pure, Except.pure]
  exact congrArg (fun sig => Except.ok (Result.done, sig)) final

/-! ## Loading -/

/-- The block sums of the first `count` blocks, numbered from one. -/
def loadedSigs (stack : Stack) (old : Bytes) (count : ℕ) : List BlockSig :=
  (List.range count).map fun i => ⟨i + 1, rsCalcWeakSum (blockAt old i), stack.octets i defaultStrongLen⟩

theorem loadedSigs_succ (stack : Stack) (old : Bytes) (count : ℕ) :
    loadedSigs stack old (count + 1) = loadedSigs stack old count ++
      [⟨count + 1, rsCalcWeakSum (blockAt old count), stack.octets count defaultStrongLen⟩] := by
  simp [loadedSigs, List.range_succ]

@[simp] theorem loadedSigs_length (stack : Stack) (old : Bytes) (count : ℕ) :
    (loadedSigs stack old count).length = count := by
  simp [loadedSigs]

/-- The invariant of the load job, by what it still has to read. -/
def LoadsigInv (stack : Stack) (old : Bytes) (own : LoadsigJob) (_ : Bool) (emitted pending : Bytes) : Prop :=
  emitted = [] ∧
    match own.statefn with
    | .magic => own.blockSigs = [] ∧ pending = sigHeader ++ sigEntries stack old 0 (blockCount old)
    | .blocklen => own.blockSigs = [] ∧
        pending = netint 4 defaultBlockLen ++ (netint 4 defaultStrongLen ++ sigEntries stack old 0 (blockCount old))
    | .stronglen => own.blockSigs = [] ∧ own.blockLen = defaultBlockLen ∧
        pending = netint 4 defaultStrongLen ++ sigEntries stack old 0 (blockCount old)
    | .weak => own.blockLen = defaultBlockLen ∧ own.strongSumLen = defaultStrongLen ∧
        ∃ loaded left, loaded + left = blockCount old ∧ loaded < 2 ^ 31 ∧ own.blockSigs = loadedSigs stack old loaded ∧
          pending = sigEntries stack old loaded left
    | .strong => own.blockLen = defaultBlockLen ∧ own.strongSumLen = defaultStrongLen ∧
        ∃ loaded left, loaded + 1 + left = blockCount old ∧ loaded < 2 ^ 31 ∧ own.blockSigs = loadedSigs stack old loaded ∧
          own.weakSig = rsCalcWeakSum (blockAt old loaded) ∧
          pending = stack.octets loaded defaultStrongLen ++ sigEntries stack old (loaded + 1) left

/-- What the load job has in the end. -/
def LoadsigFinal (stack : Stack) (old : Bytes) (own : LoadsigJob) (emitted : Bytes) : Prop :=
  emitted = [] ∧ own.blockLen = defaultBlockLen ∧ own.strongSumLen = defaultStrongLen ∧
    own.blockSigs = loadedSigs stack old (blockCount old) ∧ blockCount old < 2 ^ 31

/-- How it fails. -/
def LoadsigFails (old : Bytes) (result : Result) : Prop := result = .memError ∧ 2 ^ 31 ≤ blockCount old

section Loadsig

variable {job : Job LoadsigJob}

/-- What a call of a state function of the load job establishes. -/
private def LoadsigStep (stack : Stack) (old out rest : Bytes) (job : Job LoadsigJob)
    (statefn : Job LoadsigJob → Except Abort (Result × Job LoadsigJob)) : Prop :=
  ∃ result next, statefn job = .ok (result, next) ∧ job.Extends next rest ∧
    job.Outcome (LoadsigInv stack old) (LoadsigFinal stack old) (LoadsigFails old) (fun _ _ pending => pending.length)
      false next out rest result

/-- A state function that reads one network integer. -/
private theorem loadsigStep_of_suck {statefn : Job LoadsigJob → Except Abort (Result × Job LoadsigJob)}
    (own : LoadsigJob) {value : ℕ} {behind : Bytes} (sound : job.Sound rest) (idle : job.Idle)
    (inv : LoadsigInv stack old job.own job.eofIn (job.emitted out rest) (job.pending rest))
    (pends : job.pending rest = netint 4 value ++ behind) (small : value < 2 ^ 32)
    (waiting : ∀ next, rsSuckNetint 4 job = .ok (.blocked, 0, next) → statefn job = .ok (.blocked, next))
    (ready : ∀ next, next.own = job.own → rsSuckNetint 4 job = .ok (.done, value, next) →
      statefn job = .ok (.running, { next with own := own }))
    (inv' : LoadsigInv stack old own job.eofIn [] behind) : LoadsigStep stack old out rest job statefn := by
  apply Job.step_of_suck own sound idle inv pends small waiting ready
  · rw [inv.1]
    exact inv'
  · rw [List.length_append, netint_length]
    omega

private theorem rsLoadsigSMagic_spec (sound : job.Sound rest) (idle : job.Idle) (state : job.own.statefn = .magic)
    (inv : LoadsigInv stack old job.own job.eofIn (job.emitted out rest) (job.pending rest)) :
    LoadsigStep stack old out rest job rsLoadsigSMagic := by
  have fields := inv.2
  rw [state] at fields
  refine loadsigStep_of_suck { job.own with statefn := .blocklen } sound idle inv
    (fields.2.trans (List.append_assoc _ _ _)) (by decide) ?_ ?_ ⟨rfl, fields.1, rfl⟩
  · intro next read
    simp [rsLoadsigSMagic, read, bind, Except.bind, pure, Except.pure]
  · intro next same read
    simp [rsLoadsigSMagic, read, bind, Except.bind, pure, Except.pure, same]

private theorem rsLoadsigSBlocklen_spec (sound : job.Sound rest) (idle : job.Idle)
    (state : job.own.statefn = .blocklen)
    (inv : LoadsigInv stack old job.own job.eofIn (job.emitted out rest) (job.pending rest)) :
    LoadsigStep stack old out rest job rsLoadsigSBlocklen := by
  have fields := inv.2
  rw [state] at fields
  refine loadsigStep_of_suck { job.own with blockLen := defaultBlockLen, statefn := .stronglen } sound
    idle inv fields.2 (by decide) ?_ ?_ ⟨rfl, fields.1, rfl, rfl⟩
  · intro next read
    simp [rsLoadsigSBlocklen, read, bind, Except.bind, pure, Except.pure]
  · intro next same read
    simp [rsLoadsigSBlocklen, read, bind, Except.bind, pure, Except.pure, same, defaultBlockLen]

private theorem rsLoadsigSStronglen_spec (sound : job.Sound rest) (idle : job.Idle)
    (state : job.own.statefn = .stronglen)
    (inv : LoadsigInv stack old job.own job.eofIn (job.emitted out rest) (job.pending rest)) :
    LoadsigStep stack old out rest job rsLoadsigSStronglen := by
  have fields := inv.2
  rw [state] at fields
  refine loadsigStep_of_suck { job.own with strongSumLen := defaultStrongLen, statefn := .weak } sound
    idle inv fields.2.2 (by decide) ?_ ?_
    ⟨rfl, fields.2.1, rfl, 0, blockCount old, Nat.zero_add _, by decide, fields.1, rfl⟩
  · intro next read
    simp [rsLoadsigSStronglen, read, bind, Except.bind, pure, Except.pure]
  · intro next same read
    simp [rsLoadsigSStronglen, read, bind, Except.bind, pure, Except.pure, same, defaultStrongLen, md4Length]

private theorem rsLoadsigSWeak_spec (sound : job.Sound rest) (idle : job.Idle) (state : job.own.statefn = .weak)
    (inv : LoadsigInv stack old job.own job.eofIn (job.emitted out rest) (job.pending rest)) :
    LoadsigStep stack old out rest job rsLoadsigSWeak := by
  have fields := inv.2
  rw [state] at fields
  obtain ⟨blockLen, strongSumLen, loaded, left, count, few, sigs, pends⟩ := fields
  cases left with
  | succ left =>
    rw [sigEntries_cons] at pends
    refine loadsigStep_of_suck
      { job.own with weakSig := rsCalcWeakSum (blockAt old loaded), statefn := .strong } sound idle inv
      pends (UInt32.toNat_lt _) ?_ ?_ ⟨rfl, blockLen, strongSumLen, loaded, left, by omega, few, sigs, rfl, rfl⟩
    · intro next read
      simp [rsLoadsigSWeak, read, bind, Except.bind, pure, Except.pure]
    · intro next same read
      simp [rsLoadsigSWeak, read, bind, Except.bind, pure, Except.pure, same]
  | zero =>
    have nothing : job.input rest = [] := by
      simpa [pending, idle.2, sigEntries] using pends
    have empty := nothing
    simp only [input, List.append_eq_nil_iff] at empty
    have short : job.scoop.length + job.nextIn.length < 4 := by simp [empty.1, empty.2.1]
    rcases rsScoopRead_short short with ⟨blocked, unread⟩ | ⟨atEnd, -, ended⟩
    · have scooped : job.Takes { job with scoop := job.scoop ++ job.nextIn, nextIn := [] } 0 rest :=
        ⟨rfl, by simp [input], Nat.zero_le _⟩
      refine ⟨.blocked, _, ?_, scooped.toExtends sound idle, .blocked ?_ ?_ (.inr ⟨rfl, unread (by simp [empty])⟩)⟩
      · simp [rsLoadsigSWeak, rsSuckNetint, blocked, bind, Except.bind, pure, Except.pure]
      · rw [scooped.emitted idle, scooped.pending idle, List.drop_zero]
        exact inv
      · simp only [Pays, scooped.pending idle, List.drop_zero, idle_iff_tube.mp (scooped.idle idle)]
        omega
    · refine ⟨.done, job, ?_, .refl sound, .done ?_ (by simp [pending, nothing]) empty.2.1 (by omega)⟩
      · simp [rsLoadsigSWeak, rsSuckNetint, atEnd, bind, Except.bind, pure, Except.pure]
      · refine ⟨inv.1, blockLen, strongSumLen, ?_⟩
        rw [sigs, ← count, Nat.add_zero]
        exact ⟨rfl, few⟩

private theorem rsLoadsigSStrong_spec (sound : job.Sound rest) (idle : job.Idle) (state : job.own.statefn = .strong)
    (inv : LoadsigInv stack old job.own job.eofIn (job.emitted out rest) (job.pending rest)) :
    LoadsigStep stack old out rest job rsLoadsigSStrong := by
  have fields := inv.2
  rw [state] at fields
  obtain ⟨blockLen, strongSumLen, loaded, left, count, few, sigs, weak, pends⟩ := fields
  have eight : (stack.octets loaded defaultStrongLen).length = defaultStrongLen := Stack.octets_length _ _ _
  have known : defaultStrongLen ≤ (job.pending rest).length := by
    rw [pends, List.length_append, eight]
    omega
  have taken : (job.pending rest).take defaultStrongLen = stack.octets loaded defaultStrongLen := by
    rw [pends, List.take_left' eight]
  have behind : (job.pending rest).drop defaultStrongLen = sigEntries stack old (loaded + 1) left := by
    rw [pends, List.drop_left' eight]
  have waiting (next : Job LoadsigJob) (read : rsScoopRead defaultStrongLen job = .ok (.blocked, [], next)) :
      rsLoadsigSStrong job = .ok (.blocked, next) := by
    simp [rsLoadsigSStrong, strongSumLen, read, bind, Except.bind, pure, Except.pure]
  by_cases many : 2 ^ 31 ≤ loaded + 1
  · have all : job.pending rest = job.input rest := by rw [Job.pending, idle.2, List.drop_zero]
    rcases rsScoopRead_known sound (all ▸ known) with ⟨next, read, takes⟩ | ⟨next, read, takes, starved, unread⟩
    · refine ⟨.memError, next, ?_, takes.toExtends sound idle, .fails _ ⟨rfl, by omega⟩ (by decide)⟩
      simp only [rsLoadsigSStrong, strongSumLen, read, bind, Except.bind, pure, Except.pure, takes.own, sigs,
        loadedSigs_length, if_pos many, ne_eq, not_true_eq_false, ↓reduceIte]
    · refine ⟨.blocked, next, waiting next read, takes.toExtends sound idle, .blocked ?_ ?_ (.inr ⟨starved, unread⟩)⟩
      · rw [takes.own, takes.eofIn, takes.emitted idle, takes.pending idle, List.drop_zero]
        exact inv
      · simp only [Pays, takes.pending idle, List.drop_zero, idle_iff_tube.mp (takes.idle idle), takes.availOut,
          idle_iff_tube.mp idle, Nat.add_zero, le_refl]
  apply Job.step_of_read defaultStrongLen
    { job.own with blockSigs := loadedSigs stack old (loaded + 1), statefn := .weak } sound idle inv known waiting
  · intro next same read
    simp only [rsLoadsigSStrong, strongSumLen, read, bind, Except.bind, pure, Except.pure, same, sigs, loadedSigs_length,
      if_neg many, taken, weak, loadedSigs_succ, ne_eq, not_true_eq_false, ↓reduceIte]
  · rw [behind]
    exact ⟨inv.1, blockLen, strongSumLen, loaded + 1, left, count, by omega, rfl, rfl⟩
  · rw [behind, pends, List.length_append, eight, defaultStrongLen]
    omega

end Loadsig

/-- The load job meets its specification. -/
def loadsigSpec (stack : Stack) (old : Bytes) : JobSpec rsLoadsigStatefn false where
  Inv := LoadsigInv stack old
  Final := LoadsigFinal stack old
  Fails := LoadsigFails old
  potential := fun _ _ pending => pending.length
  ended := id
  silent := fun _ => ⟨fun inv => inv.1, fun final => final.1⟩
  step := by
    intro job out rest sound idle _ inv
    rw [rsLoadsigStatefn]
    split
    · next state => exact rsLoadsigSMagic_spec sound idle state inv
    · next state => exact rsLoadsigSBlocklen_spec sound idle state inv
    · next state => exact rsLoadsigSStronglen_spec sound idle state inv
    · next state => exact rsLoadsigSWeak_spec sound idle state inv
    · next state => exact rsLoadsigSStrong_spec sound idle state inv

/-- The signature of a file as `rs_loadsig_file` loads it. -/
def loadedSignature (stack : Stack) (old : Bytes) : Signature :=
  ⟨defaultBlockLen, defaultStrongLen, loadedSigs stack old (blockCount old)⟩

theorem sigEntries_length (stack : Stack) (old : Bytes) (first count : ℕ) :
    (sigEntries stack old first count).length = 12 * count := by
  induction count with
  | zero => rfl
  | succ count ih =>
    rw [sigEntries_succ, List.length_append, ih, List.length_append, netint_length, Stack.octets_length,
      defaultStrongLen]
    omega

/-- `rs_loadsig_file` reads back what `rs_sig_file` writes, or the number of blocks is no `int`. -/
theorem rsLoadsigFile_ends (stack : Stack) (old : Bytes) {fuel : ℕ} (enough : 36 * blockCount old + 39 < fuel) :
    (blockCount old < 2 ^ 31 ∧ rsLoadsigFile fuel (sigHeader ++ sigEntries stack old 0 (blockCount old)) =
      .ok (.done, loadedSignature stack old)) ∨
    (2 ^ 31 ≤ blockCount old ∧ ∃ sig, rsLoadsigFile fuel (sigHeader ++ sigEntries stack old 0 (blockCount old)) =
      .ok (.memError, sig)) := by
  have fuelled : (loadsigSpec stack old).potential rsLoadsigBegin []
      (sigHeader ++ sigEntries stack old 0 (blockCount old)) +
      2 * (sigHeader ++ sigEntries stack old 0 (blockCount old)).length + 3 < fuel := by
    simp only [loadsigSpec, List.length_append, sigEntries_length, sigHeader, netint_length]
    omega
  obtain ⟨result, job, out, ran, ⟨rfl, -, blockLen, strongSumLen, sigs, few⟩ | ⟨⟨rfl, many⟩, -⟩⟩ :=
    (loadsigSpec stack old).rsWholeRun_ends rsLoadsigBegin (sigHeader ++ sigEntries stack old 0 (blockCount old))
      ⟨rfl, rfl, rfl⟩ fuelled
  · refine .inl ⟨few, ?_⟩
    simp only [rsLoadsigFile, ran, bind, Except.bind, pure, Except.pure, blockLen, strongSumLen, sigs, loadedSignature]
  · exact .inr ⟨many, _, by simp only [rsLoadsigFile, ran, bind, Except.bind, pure, Except.pure]; rfl⟩

theorem rsLoadsigFile_done (stack : Stack) {old : Bytes} (few : blockCount old < 2 ^ 31) {fuel : ℕ}
    (enough : 36 * blockCount old + 39 < fuel) :
    rsLoadsigFile fuel (sigHeader ++ sigEntries stack old 0 (blockCount old)) = .ok (.done, loadedSignature stack old) := by
  rcases rsLoadsigFile_ends stack old enough with ⟨-, loaded⟩ | ⟨many, -⟩
  · exact loaded
  · exact absurd few (Nat.not_lt.mpr many)

/-! ## Writing and loading -/

theorem flatMap_blockAt (file : Bytes) (count : ℕ) :
    (List.range count).flatMap (blockAt file) = file.take (defaultBlockLen * count) := by
  induction count with
  | zero => rfl
  | succ count ih =>
    rw [List.range_succ, List.flatMap_append, ih, List.flatMap_singleton, blockAt, Nat.mul_succ, List.take_add]

/-- `rs_loadsig_file` has from what `rs_sig_file` writes the weak sum of every block of the file, in their order;
the strong sums are whatever was on the stack. The number of blocks is an `int`. -/
theorem signature_round_trip (stack : Stack) (file : Bytes) (few : file.length ≤ 2048 * (2 ^ 31 - 1)) (fuel : ℕ)
    (enough : 15 * file.length + 75 < fuel) :
    ∃ (sig : Bytes) (blocks : List Bytes), rsSigFile stack fuel file defaultBlockLen defaultStrongLen = .ok (.done, sig) ∧
      sig.length = 12 + 12 * blocks.length ∧ blocks.flatten = file ∧
      (∀ block ∈ blocks, block ≠ [] ∧ block.length ≤ defaultBlockLen) ∧
      (∀ block ∈ blocks.dropLast, block.length = defaultBlockLen) ∧
      rsLoadsigFile fuel sig = .ok (.done, ⟨defaultBlockLen, defaultStrongLen,
        blocks.mapIdx fun i block => ⟨i + 1, rsCalcWeakSum block, stack.octets i defaultStrongLen⟩⟩) := by
  have count : 36 * blockCount file ≤ 15 * file.length + 36 := by
    simp only [blockCount, defaultBlockLen]
    omega
  have sizes (i : ℕ) : (blockAt file i).length = min defaultBlockLen (file.length - defaultBlockLen * i) := by
    rw [blockAt, List.length_take, List.length_drop]
  refine ⟨_, (List.range (blockCount file)).map (blockAt file), rsSigFile_done stack file (by omega), ?_, ?_, ?_, ?_, ?_⟩
  · rw [List.length_append, sigEntries_length, List.length_map, List.length_range]
    simp only [sigHeader, List.length_append, netint_length]
  · rw [← List.flatMap_def, flatMap_blockAt, List.take_of_length_le]
    simp only [blockCount, defaultBlockLen]
    omega
  · intro block member
    obtain ⟨i, bound, rfl⟩ := List.mem_map.mp member
    rw [List.mem_range, blockCount] at bound
    refine ⟨List.ne_nil_of_length_pos ?_, sizes i ▸ min_le_left _ _⟩
    rw [sizes]
    simp only [defaultBlockLen] at bound ⊢
    omega
  · intro block member
    rw [← List.map_dropLast, List.dropLast_eq_take, List.length_range, List.take_range] at member
    obtain ⟨i, bound, rfl⟩ := List.mem_map.mp member
    rw [List.mem_range, blockCount] at bound
    rw [sizes]
    simp only [defaultBlockLen] at bound ⊢
    omega
  · have few' : blockCount file < 2 ^ 31 := by
      simp only [blockCount, defaultBlockLen]
      omega
    rw [rsLoadsigFile_done stack few' (by omega), loadedSignature, loadedSigs]
    congr 3
    refine List.ext_getElem (by simp) fun i first second => ?_
    simp

/-- A file with a short block behind a full one. -/
theorem signature_round_trip_short :
    ∃ sig, rsSigFile (fun _ i => UInt8.ofNat i) 31000 (List.replicate 2049 7) defaultBlockLen defaultStrongLen =
        .ok (.done, sig) ∧ sig.length = 36 ∧
      rsLoadsigFile 31000 sig = .ok (.done, ⟨defaultBlockLen, defaultStrongLen,
        [⟨1, rsCalcWeakSum (List.replicate 2048 7), [0, 1, 2, 3, 4, 5, 6, 7]⟩,
          ⟨2, rsCalcWeakSum [7], [0, 1, 2, 3, 4, 5, 6, 7]⟩]⟩) := by
  have length : (List.replicate 2049 (7 : UInt8)).length = 2049 := List.length_replicate
  obtain ⟨sig, blocks, written, size, whole, short, full, loaded⟩ := signature_round_trip (fun _ i => UInt8.ofNat i)
    (List.replicate 2049 7) (by rw [length]; decide) 31000 (by rw [length]; decide)
  obtain rfl : blocks = [List.replicate 2048 7, [7]] := by
    have total := congrArg List.length whole
    rw [length] at total
    match blocks with
    | [] => exact absurd total (by simp)
    | [block] =>
      have small := (short block List.mem_cons_self).2
      simp only [List.flatten_cons, List.flatten_nil, List.append_nil, defaultBlockLen] at total small
      omega
    | [first, last] =>
      have long : first.length = 2048 := full first List.mem_cons_self
      rw [List.flatten_cons, List.flatten_singleton, show (2049 : ℕ) = 2048 + 1 from rfl, List.replicate_add] at whole
      obtain ⟨rfl, rfl⟩ := List.append_inj whole (by rw [long, List.length_replicate])
      rfl
    | first :: second :: third :: rest =>
      have long : first.length = 2048 := full first List.mem_cons_self
      have long' : second.length = 2048 := full second (List.mem_cons_of_mem _ List.mem_cons_self)
      simp only [List.flatten_cons, List.length_append] at total
      omega
  exact ⟨sig, written, size, loaded⟩

end DeltaCFS
