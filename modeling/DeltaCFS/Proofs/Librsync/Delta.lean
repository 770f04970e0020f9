import DeltaCFS.Proofs.Librsync.Checksum
import DeltaCFS.Proofs.Librsync.Greedy

/-! # The delta job

What the delta job has emitted, with what the plain scan would go on to write, is the delta of the plain scan,
however the files are cut into buffers; and the job terminates.
-/

namespace DeltaCFS

open Bytes Job Command

/-- The searches of the delta job; their state is their number and the position of the old file. -/
def jobSearch (env : DeltaEnv) (state : ℕ × ℕ) (window : Bytes) : Option ℕ × ℕ × ℕ :=
  let (found, pos) := rsSearchForBlock env state.1 (rsCalcWeakSum window) window state.2
  (found, state.1 + 1, pos)

/-- The searches that the delta job makes. -/
def deltaSearches (env : DeltaEnv) (new : Bytes) : List ((ℕ × ℕ) × Bytes) :=
  scanned (jobSearch env) (0, env.oldFile.length) new

/-- The commands of the delta. -/
def deltaCommands (env : DeltaEnv) (new : Bytes) : List Command :=
  greedyFrom (jobSearch env) (0, env.oldFile.length) new (.missed [])

/-- The delta. -/
def deltaOctets (env : DeltaEnv) (new : Bytes) : Bytes :=
  netint 4 deltaMagic ++ (encodeAll (deltaCommands env new) ++ [0])

/-- What the job holds. -/
def DeltaJob.held (own : DeltaJob) (pending : Bytes) : Held :=
  if own.basisLen ≠ 0 then .matched own.basisPos own.basisLen else .missed (pending.take own.scoopPos)

/-- The window of the new file at the point scanned to. -/
def scanWindow (own : DeltaJob) (pending : Bytes) : Bytes := nextWindow (pending.drop own.scoopPos)

/-- The fields of the job fit what it has before it. -/
structure Tracks (own : DeltaJob) (pending : Bytes) : Prop where
  scanned : own.scoopPos ≤ pending.length
  short : own.basisLen = 0 → own.scoopPos ≤ bufLen
  covers : own.weakSum.Covers ((scanWindow own pending).take own.weakSum.count)
  window : own.weakSum.count = 0 ∨ own.weakSum.count = (scanWindow own pending).length

/-- What has been emitted, with what is still to come, is the delta. -/
def Emits (env : DeltaEnv) (new : Bytes) (own : DeltaJob) (emitted pending : Bytes) : Prop :=
  emitted ++ encodeAll (greedyFrom (jobSearch env) (own.searches, own.oldPos) (pending.drop own.scoopPos)
    (own.held pending)) = netint 4 deltaMagic ++ encodeAll (deltaCommands env new)

/-- What flushing costs. -/
def flushCost (own : DeltaJob) : ℕ :=
  if own.basisLen ≠ 0 then 17 else if own.scoopPos ≠ 0 then own.scoopPos + 5 else 0

def deltaPhase : DeltaState → ℕ
  | .header => 8
  | .scan => 3
  | .flush => 2
  | .finish => 1

def deltaPotential (own : DeltaJob) (pending : Bytes) : ℕ :=
  25 * (pending.length - own.scoopPos) + flushCost own + deltaPhase own.statefn

variable {old new emitted pending out rest : Bytes} {own : DeltaJob} {env : DeltaEnv}

theorem scanWindow_length (own : DeltaJob) (pending : Bytes) :
    (scanWindow own pending).length = min defaultBlockLen (pending.length - own.scoopPos) := by
  rw [scanWindow, nextWindow_length, List.length_drop]

namespace DeltaJob

theorem held_matched (last : own.basisLen ≠ 0) (pending : Bytes) :
    own.held pending = .matched own.basisPos own.basisLen := if_pos last

theorem held_missed (last : own.basisLen = 0) (pending : Bytes) :
    own.held pending = .missed (pending.take own.scoopPos) := if_neg (not_not.mpr last)

/-- A match that does not go on where the last one ended. -/
theorem held_match {matchPos len : ℕ} (apart : ¬ (own.basisLen ≠ 0 ∧ own.basisPos + own.basisLen = matchPos)) :
    (own.held pending).match_ matchPos len = ((own.held pending).commands, .matched matchPos len) := by
  by_cases last : own.basisLen = 0
  · rw [held_missed last, Held.match_]
  · rw [held_matched last, Held.match_, if_neg fun adjacent => apart ⟨last, adjacent⟩]

/-- A missed octet behind a match, or behind a literal that is full. -/
theorem held_miss (scanned : own.scoopPos ≤ pending.length) (full : own.basisLen ≠ 0 ∨ bufLen ≤ own.scoopPos)
    (octet : UInt8) : (own.held pending).miss octet = ((own.held pending).commands, .missed [octet]) := by
  by_cases last : own.basisLen = 0
  · have long : ¬ (pending.take own.scoopPos).length < bufLen := by
      rw [List.length_take_of_le scanned]
      exact Nat.not_lt_of_le (full.resolve_left (not_not.mpr last))
    rw [held_missed last, Held.miss, if_neg long]
  · rw [held_matched last, Held.miss]

theorem held_commands_length (short : own.basisLen = 0 → own.scoopPos ≤ bufLen)
    (scanned : own.scoopPos ≤ pending.length) : (encodeAll (own.held pending).commands).length ≤ flushCost own := by
  by_cases last : own.basisLen = 0
  · have small := short last
    have size : (pending.take own.scoopPos).length = own.scoopPos := List.length_take_of_le scanned
    rw [held_missed last, flushCost, if_neg (not_not.mpr last)]
    by_cases none : own.scoopPos = 0
    · simp [none, Held.commands]
    · have some_ : pending.take own.scoopPos ≠ [] := List.ne_nil_of_length_pos (by omega)
      rw [Held.commands, if_neg some_, if_pos none, encodeAll_singleton, encode, List.length_append,
        literalHeader_length, size, rsIntLen]
      simp only [bufLen] at small
      split_ifs <;> omega
  · rw [held_matched last, flushCost, if_pos last, Held.commands, encodeAll_singleton]
    exact copyHeader_le _ _

end DeltaJob

namespace Tracks

/-- Flushing moves what is scanned behind the commands. -/
theorem flush (tracks : Tracks own pending) :
    Tracks { own with scoopPos := 0, basisLen := 0 } (pending.drop own.scoopPos) :=
  ⟨Nat.zero_le _, fun _ => Nat.zero_le _, tracks.covers, tracks.window⟩

/-- A match that has been recorded can be taken off the input. -/
theorem process (tracks : Tracks own pending) : Tracks { own with scoopPos := 0 } (pending.drop own.scoopPos) :=
  ⟨Nat.zero_le _, fun _ => Nat.zero_le _, tracks.covers, tracks.window⟩

/-- Behind a match the sum begins again. -/
theorem match_ {len basisPos basisLen : ℕ} (inside : own.scoopPos + len ≤ pending.length) (last : basisLen ≠ 0) :
    Tracks { own with
      scoopPos := own.scoopPos + len, basisPos := basisPos, basisLen := basisLen, weakSum := rollsumInit } pending :=
  ⟨inside, fun zero => absurd zero last, by simpa [rollsumInit] using rollsumInit_covers, .inl rfl⟩

theorem miss {weakSum : Rollsum} (some_ : own.scoopPos < pending.length) (room : own.scoopPos < bufLen)
    (covers : weakSum.Covers ((pending.drop (own.scoopPos + 1)).take defaultBlockLen)) :
    Tracks { own with scoopPos := own.scoopPos + 1, weakSum := weakSum } pending := by
  refine ⟨some_, fun _ => room, ?_, .inr covers.1⟩
  change weakSum.Covers (((pending.drop (own.scoopPos + 1)).take defaultBlockLen).take weakSum.count)
  rw [List.take_of_length_le (le_of_eq covers.1.symm)]
  exact covers

/-- The state function does not count. -/
theorem setState (tracks : Tracks own pending) (statefn : DeltaState) : Tracks { own with statefn := statefn } pending :=
  ⟨tracks.scanned, tracks.short, tracks.covers, tracks.window⟩

end Tracks

/-! ## Appending -/

variable {job : Job DeltaJob}

/-- Scanned octets are dropped from the scoop. -/
theorem Job.Moves.of_drop {σ : Type} {job : Job σ} {len : ℕ} (sound : job.Sound rest) (copied : job.copyLen = 0)
    (there : len ≤ job.scoop.length) (own : σ) :
    job.Moves { job with scoop := job.scoop.drop len, own := own } rest [] len := by
  refine ⟨⟨⟨by simp [copied], sound.ended, sound.detached, sound.room⟩, rfl, rfl, rfl, le_rfl, le_rfl⟩,
    fun out => ?_, ?_, rfl⟩
  · simp [Job.emitted, copied]
  · simp only [Job.pending, input, copied, List.drop_zero]
    rw [List.drop_append_of_le_length there]

theorem rsProcessmatch_moves (sound : job.Sound rest) (copied : job.copyLen = 0)
    (there : job.own.scoopPos ≤ job.scoop.length) :
    ∃ result next, rsProcessmatch job = (result, next) ∧ job.Moves next rest [] job.own.scoopPos ∧
      next.own = { job.own with scoopPos := 0 } ∧ next.Settled result := by
  have dropped := Moves.of_drop sound copied there { job.own with scoopPos := 0 }
  obtain ⟨result, next, caught, moves, own, settled⟩ := rsTubeCatchup_moves dropped.sound
  exact ⟨result, next, caught, by simpa using dropped.trans moves, own, settled⟩

theorem rsProcessmiss_moves (sound : job.Sound rest) (copied : job.copyLen = 0) (small : job.own.scoopPos ≤ bufLen)
    (there : job.own.scoopPos ≤ (job.pending rest).length) :
    ∃ result next, rsProcessmiss job = .ok (result, next) ∧
      job.Moves next rest ((job.pending rest).take job.own.scoopPos) job.own.scoopPos ∧
      next.own = { job.own with scoopPos := 0 } ∧ next.Settled result := by
  have pends : job.pending rest = job.input rest := by rw [Job.pending, copied, List.drop_zero]
  rw [pends] at there ⊢
  have queued : job.Moves { job with copyLen := job.own.scoopPos, own := { job.own with scoopPos := 0 } } rest
      ((job.input rest).take job.own.scoopPos) job.own.scoopPos := by
    refine ⟨⟨⟨there, sound.ended, sound.detached, sound.room⟩, rfl, rfl, rfl, le_rfl, le_rfl⟩, fun out => ?_, ?_, ?_⟩
    · simp [Job.emitted, copied, input]
    · rw [pends]
      rfl
    · rw [List.length_take, min_eq_left there]
      simp only [tube, copied, Nat.add_zero]
  obtain ⟨result, next, caught, moves, own, settled⟩ := rsTubeCatchup_moves queued.sound
  refine ⟨result, next, ?_, by simpa using queued.trans moves, own, settled⟩
  simp only [bufLen] at small
  simp only [rsProcessmiss, rsTubeCopy, Nat.mod_eq_of_lt (show job.own.scoopPos < 2 ^ 32 by omega), copied,
    show job.own.scoopPos < 2 ^ 31 by omega, and_self, ↓reduceIte, bind, Except.bind, pure, Except.pure, caught]

theorem rsAppendflush_moves (sound : job.Sound rest) (idle : job.Idle)
    (there : job.own.scoopPos ≤ job.scoop.length) (short : job.own.basisLen = 0 → job.own.scoopPos ≤ bufLen) :
    ∃ result next, rsAppendflush job = .ok (result, next) ∧
      job.Moves next rest (encodeAll (job.own.held (job.pending rest)).commands) job.own.scoopPos ∧
      next.own = { job.own with scoopPos := 0, basisLen := 0 } ∧ next.Settled result := by
  have pends : job.pending rest = job.input rest := by rw [Job.pending, idle.2, List.drop_zero]
  have inside : job.own.scoopPos ≤ (job.pending rest).length := by
    rw [pends, input, List.length_append]
    omega
  by_cases last : job.own.basisLen = 0
  · rw [DeltaJob.held_missed last, Held.commands]
    by_cases none : job.own.scoopPos = 0
    · refine ⟨.done, job, by simp [rsAppendflush, last, none], ?_, ?_, .inl ⟨rfl, idle⟩⟩
      · simpa [none] using Moves.of_flows (.refl sound)
      · cases fields : job.own
        simp_all
    · have small := short last
      have some_ : (job.pending rest).take job.own.scoopPos ≠ [] :=
        List.ne_nil_of_length_pos (by rw [List.length_take_of_le inside]; omega)
      have header := Moves.of_queue sound idle (literalHeader job.own.scoopPos) job.own
      obtain ⟨result, next, processed, moves, own, settled⟩ :=
        rsProcessmiss_moves header.sound (show (job.queue _ _).copyLen = 0 from idle.2) small inside
      refine ⟨result, next, ?_, ?_, ?_, settled⟩
      · simp only [rsAppendflush, last, none, ne_eq, not_true_eq_false, not_false_eq_true, ↓reduceIte,
          rsEmitLiteralCmd_value idle (show job.own.scoopPos < 2 ^ 32 by simp only [bufLen] at small; omega), bind,
          Except.bind, processed]
      · have both := header.trans moves
        rw [if_neg some_, encodeAll_singleton, encode, List.length_take_of_le inside]
        simpa using both
      · rw [own, queue_own, ← last]
  · have header := Moves.of_queue sound idle (copyHeader job.own.basisPos job.own.basisLen)
      { job.own with basisLen := 0 }
    obtain ⟨result, next, processed, moves, own, settled⟩ :=
      rsProcessmatch_moves header.sound (show (job.queue _ _).copyLen = 0 from idle.2) there
    refine ⟨result, next, ?_, ?_, own, settled⟩
    · simp only [rsAppendflush, last, ne_eq, not_false_eq_true, ↓reduceIte, rsEmitCopyCmd_value idle, bind,
        Except.bind, pure, Except.pure]
      exact congrArg Except.ok processed
    · have both := header.trans moves
      rw [DeltaJob.held_matched last, Held.commands, encodeAll_singleton, encode]
      simpa using both

/-- A round of the loops scans `len` octets: it writes and holds what it should, and pays for what it emits. -/
structure Advances (job next : Job DeltaJob) (result : Result) (rest : Bytes) (len : ℕ) (after : List Command × Held) :
    Prop where
  moves : ∃ moved, job.Moves next rest (encodeAll after.1) moved ∧
    moved + next.own.scoopPos = job.own.scoopPos + len ∧
    deltaPotential next.own ((job.pending rest).drop moved) + (encodeAll after.1).length ≤
      deltaPotential job.own (job.pending rest)
  tracks : Tracks next.own (next.pending rest)
  held : next.own.held (next.pending rest) = after.2
  searches : next.own.searches = job.own.searches
  oldPos : next.own.oldPos = job.own.oldPos
  settled : next.Settled result
  statefn : next.own.statefn = job.own.statefn

/-- The fields and the potential of the strings after a move. -/
theorem Advances.of_moves {next : Job DeltaJob} {result : Result} {after : List Command × Held} {len moved : ℕ}
    (moves : job.Moves next rest (encodeAll after.1) moved) (place : moved + next.own.scoopPos = job.own.scoopPos + len)
    (positive : 0 < len) (inside : job.own.scoopPos + len ≤ (job.pending rest).length)
    (cost : flushCost next.own + (encodeAll after.1).length ≤ flushCost job.own + 24 * len)
    (same : next.own.statefn = job.own.statefn ∧ next.own.searches = job.own.searches ∧
      next.own.oldPos = job.own.oldPos)
    (tracks : Tracks next.own ((job.pending rest).drop moved))
    (held : next.own.held ((job.pending rest).drop moved) = after.2) (settled : next.Settled result) :
    Advances job next result rest len after := by
  refine ⟨⟨moved, moves, place, ?_⟩, ?_, ?_, same.2.1, same.2.2, settled, same.1⟩
  · simp only [deltaPotential, same.1, List.length_drop]
    omega
  · rw [moves.pending]
    exact tracks
  · rw [moves.pending]
    exact held

theorem flushCost_match {own : DeltaJob} (last : own.basisLen ≠ 0) : flushCost own = 17 := if_pos last

/-- With everything in the scoop. -/
theorem scoop_length {σ : Type} {job : Job σ} (rest : Bytes) (idle : job.Idle) (drawn : job.nextIn = []) :
    job.scoop.length + rest.length = (job.pending rest).length := by
  rw [Job.pending, idle.2, List.drop_zero, input, drawn, List.nil_append, List.length_append]

theorem Job.Moves.drawn {σ : Type} {job next : Job σ} {octets : Bytes} {len : ℕ}
    (moves : job.Moves next rest octets len) (drawn : job.nextIn = []) : next.nextIn = [] :=
  List.eq_nil_of_length_eq_zero (Nat.le_zero.mp (by simpa [drawn] using moves.nextIn))

/-- A match is appended. -/
theorem rsMatchRound_advances {len : ℕ} (matchPos : ℕ) (sound : job.Sound rest) (idle : job.Idle)
    (drawn : job.nextIn = []) (tracks : Tracks job.own (job.pending rest))
    (there : job.own.scoopPos + len ≤ job.scoop.length) (positive : 0 < len) :
    ∃ result next, rsMatchRound matchPos len job = .ok (.again (result, next)) ∧
      Advances job next result rest len ((job.own.held (job.pending rest)).match_ matchPos len) := by
  have total := scoop_length rest idle drawn
  have nonzero : len ≠ 0 := Nat.ne_of_gt positive
  have inside : job.own.scoopPos + len ≤ (job.pending rest).length := by omega
  by_cases extended : job.own.basisLen ≠ 0 ∧ job.own.basisPos + job.own.basisLen = matchPos
  · have grown : job.own.basisLen + len ≠ 0 := by omega
    have owned := Moves.of_own sound
      { job.own with basisLen := job.own.basisLen + len, scoopPos := job.own.scoopPos + len }
    obtain ⟨result, next, processed, moves, own, settled⟩ := rsProcessmatch_moves owned.sound idle.2 there
    have after : (job.own.held (job.pending rest)).match_ matchPos len =
        ([], .matched job.own.basisPos (job.own.basisLen + len)) := by
      rw [DeltaJob.held_matched extended.1, Held.match_, if_pos extended.2]
    rw [after]
    refine ⟨result, { next with own := { next.own with weakSum := rollsumInit } }, ?_, ?_⟩
    · simp only [rsMatchRound, rsAppendmatch, if_pos extended, bind, Except.bind, ↓reduceIte, pure, Except.pure,
        processed]
    · have whole := (owned.trans moves).setOwn { next.own with weakSum := rollsumInit }
      simp only [List.nil_append, Nat.zero_add] at whole
      refine .of_moves whole ?_ positive inside ?_ ?_ ?_ ?_ settled
      · rw [own]
        rfl
      · rw [own, flushCost_match grown, flushCost_match extended.1]
        simp
      · rw [own]
        exact ⟨rfl, rfl, rfl⟩
      · rw [own]
        exact (@Tracks.match_ _ job.own len job.own.basisPos _ inside grown).process
      · rw [own]
        exact DeltaJob.held_matched grown _
  · obtain ⟨result, middle, flushed, moves, own, settled⟩ :=
      rsAppendflush_moves sound idle (by omega) tracks.short
    have paid := DeltaJob.held_commands_length tracks.short tracks.scanned
    have matched := @Tracks.match_ ((job.pending rest).drop job.own.scoopPos)
      { job.own with scoopPos := 0, basisLen := 0 } len matchPos len (by rw [List.length_drop]; change 0 + len ≤ _; omega)
      nonzero
    rw [DeltaJob.held_match extended]
    have owned := moves.setOwn { middle.own with basisPos := matchPos, basisLen := len, scoopPos := 0 + len }
    rcases settled with ⟨rfl, idle'⟩ | ⟨rfl, waits⟩
    · have total' := scoop_length rest idle' (moves.drawn drawn)
      rw [moves.pending, List.length_drop] at total'
      obtain ⟨result, next, processed, moves', own', settled⟩ :=
        rsProcessmatch_moves owned.sound idle'.2 (show 0 + len ≤ middle.scoop.length by omega)
      refine ⟨result, { next with own := { next.own with weakSum := rollsumInit } }, ?_, ?_⟩
      · simp only [rsMatchRound, rsAppendmatch, if_neg extended, flushed, bind, Except.bind, ↓reduceIte, pure,
          Except.pure, own]
        rw [own] at processed
        rw [processed]
      · have whole := (owned.trans moves').setOwn { next.own with weakSum := rollsumInit }
        rw [own] at own' whole
        simp only [List.append_nil, Nat.zero_add] at whole
        refine .of_moves whole ?_ positive inside ?_ ?_ ?_ ?_ settled
        · rw [own']
          rfl
        · rw [own', flushCost_match nonzero]
          change 17 + (encodeAll (job.own.held (job.pending rest)).commands).length ≤ _
          omega
        · rw [own']
          exact ⟨rfl, rfl, rfl⟩
        · rw [own', ← List.drop_drop]
          have done := matched.process
          simp only [Nat.zero_add] at done
          exact done
        · rw [own']
          exact DeltaJob.held_matched nonzero _
    · refine ⟨.blocked, { middle with own := { middle.own with
          basisPos := matchPos, basisLen := len, scoopPos := 0 + len, weakSum := rollsumInit } }, ?_, ?_⟩
      · simp only [rsMatchRound, rsAppendmatch, if_neg extended, flushed, bind, Except.bind, pure, Except.pure, own,
          reduceCtorEq, ↓reduceIte]
      · refine .of_moves (owned.setOwn _) ?_ positive inside ?_ ?_ ?_ ?_ (.inr ⟨rfl, waits⟩)
        · change _ + (0 + len) = _
          omega
        · rw [flushCost_match nonzero]
          change 17 + (encodeAll (job.own.held (job.pending rest)).commands).length ≤ _
          omega
        · change middle.own.statefn = _ ∧ middle.own.searches = _ ∧ middle.own.oldPos = _
          rw [own]
          exact ⟨rfl, rfl, rfl⟩
        · rw [own]
          exact matched
        · exact DeltaJob.held_matched nonzero _

/-- A missed octet is appended. -/
theorem rsMissRound_advances {weakSum : Rollsum} (sound : job.Sound rest) (idle : job.Idle)
    (drawn : job.nextIn = []) (tracks : Tracks job.own (job.pending rest))
    (there : job.own.scoopPos < job.scoop.length)
    (covers : weakSum.Covers (((job.pending rest).drop (job.own.scoopPos + 1)).take defaultBlockLen)) :
    ∃ result next, rsMissRound weakSum job = .ok (.again (result, next)) ∧
      Advances job next result rest 1
        ((job.own.held (job.pending rest)).miss (((job.pending rest).drop job.own.scoopPos).getD 0 0)) := by
  have total := scoop_length rest idle drawn
  have owned := Moves.of_own sound { job.own with weakSum := weakSum }
  have more : (job.pending rest).drop job.own.scoopPos ≠ [] := by
    rw [ne_eq, List.drop_eq_nil_iff]
    omega
  by_cases flush : job.own.basisLen ≠ 0 ∨ bufLen ≤ job.own.scoopPos
  · obtain ⟨result, middle, flushed, moves, own, settled⟩ :=
      rsAppendflush_moves owned.sound idle (show job.own.scoopPos ≤ job.scoop.length by omega) tracks.short
    have paid := DeltaJob.held_commands_length tracks.short tracks.scanned
    have whole := (owned.trans moves).setOwn { middle.own with scoopPos := middle.own.scoopPos + 1 }
    simp only [List.nil_append, Nat.zero_add] at whole
    rw [DeltaJob.held_miss (by omega) flush]
    refine ⟨result, { middle with own := { middle.own with scoopPos := middle.own.scoopPos + 1 } }, ?_, ?_⟩
    · simp only [rsMissRound, rsAppendmiss, if_pos flush, flushed, bind, Except.bind, pure, Except.pure]
    · refine .of_moves whole ?_ Nat.one_pos (by omega) ?_ ?_ ?_ ?_ settled
      · rw [own]
      · rw [own]
        have few : flushCost { job.own with weakSum := weakSum, scoopPos := 0 + 1, basisLen := 0 } = 6 := rfl
        change flushCost { job.own with weakSum := weakSum, scoopPos := 0 + 1, basisLen := 0 } +
          (encodeAll (job.own.held (job.pending rest)).commands).length ≤ _
        omega
      · rw [own]
        exact ⟨rfl, rfl, rfl⟩
      · rw [own]
        refine @Tracks.miss _ { job.own with scoopPos := 0, basisLen := 0 } _ ?_ (show 0 < bufLen by decide) ?_
        · rw [List.length_drop]
          change 0 < _
          omega
        · rw [List.drop_drop]
          exact covers
      · rw [own]
        exact (DeltaJob.held_missed rfl _).trans (congrArg Held.missed (take_one more))
  · rw [not_or, not_not, Nat.not_le] at flush
    have stay : ¬ (job.own.basisLen ≠ 0 ∨ bufLen ≤ job.own.scoopPos) := by
      rw [not_or, not_not, Nat.not_le]
      exact flush
    have room : ((job.pending rest).take job.own.scoopPos).length < bufLen := by
      rw [List.length_take_of_le (by omega)]
      exact flush.2
    have last : ({ job.own with weakSum := weakSum, scoopPos := job.own.scoopPos + 1 } : DeltaJob).basisLen = 0 := flush.1
    rw [DeltaJob.held_missed flush.1, Held.miss, if_pos room]
    refine ⟨.done, { job with own := { job.own with weakSum := weakSum, scoopPos := job.own.scoopPos + 1 } }, ?_, ?_⟩
    · simp only [rsMissRound, rsAppendmiss, if_neg stay, bind, Except.bind, pure, Except.pure]
    · refine .of_moves (Moves.of_own sound _) (Nat.zero_add _) Nat.one_pos (by omega) ?_ ⟨rfl, rfl, rfl⟩ ?_ ?_
        (.inl ⟨rfl, idle⟩)
      · simp only [flushCost, flush.1, ne_eq, not_true_eq_false, ↓reduceIte, encodeAll_nil, List.length_nil]
        split_ifs <;> omega
      · rw [List.drop_zero]
        exact Tracks.miss (by omega) flush.2 covers
      · rw [List.drop_zero, DeltaJob.held_missed last, ← take_one more]
        exact congrArg Held.missed List.take_add

/-! ## Finding matches -/

/-- `rs_findmatch` searches for the window whose sum it has, or for the one it sums up. -/
theorem rsFindmatch_eq (blockLen : env.sig.blockLen = defaultBlockLen) {window : Bytes}
    (inbuf : (job.scoop.drop job.own.scoopPos).take window.length = window)
    (rolled : (window ≠ [] ∧ job.own.weakSum.Covers window) ∨ (job.own.weakSum.Covers [] ∧
      window.length = min (job.scoop.length - job.own.scoopPos) defaultBlockLen)) :
    ∃ found weakSum oldPos, rsFindmatch env job =
        (found, window.length, { job with own := { job.own with
          weakSum := weakSum, oldPos := oldPos, searches := job.own.searches + 1 } }) ∧
      weakSum.Covers window ∧
      rsSearchForBlock env job.own.searches (rsCalcWeakSum window) window job.own.oldPos = (found, oldPos) := by
  obtain ⟨weakSum, summed, covers⟩ : ∃ weakSum,
      (if job.own.weakSum.count = 0 then
        (min (job.scoop.length - job.own.scoopPos) defaultBlockLen,
          rollsumUpdate job.own.weakSum ((job.scoop.drop job.own.scoopPos).take
            (min (job.scoop.length - job.own.scoopPos) defaultBlockLen)))
      else (job.own.weakSum.count, job.own.weakSum)) = (window.length, weakSum) ∧ weakSum.Covers window := by
    rcases rolled with ⟨nonempty, covers⟩ | ⟨empty, full⟩
    · have counted : job.own.weakSum.count ≠ 0 := by
        rw [covers.1]
        exact fun zero => nonempty (List.length_eq_zero_iff.mp zero)
      exact ⟨job.own.weakSum, by rw [if_neg counted, covers.1], covers⟩
    · refine ⟨rollsumUpdate job.own.weakSum window, ?_, empty.update window⟩
      rw [if_pos (show job.own.weakSum.count = 0 from empty.1), ← full, inbuf]
  obtain ⟨found, oldPos, searched⟩ : ∃ found oldPos, rsSearchForBlock env job.own.searches (rsCalcWeakSum window)
      window job.own.oldPos = (found, oldPos) := ⟨_, _, rfl⟩
  refine ⟨found, weakSum, oldPos, ?_, covers, searched⟩
  rw [← covers.digest] at searched
  simp only [rsFindmatch, blockLen, summed, inbuf, searched]

/-- `rs_findmatch` makes the search of the window, and leaves its sum. -/
theorem rsFindmatch_spec (blockLen : env.sig.blockLen = defaultBlockLen) (idle : job.Idle) (drawn : job.nextIn = [])
    (tracks : Tracks job.own (job.pending rest)) (there : job.own.scoopPos ≤ job.scoop.length)
    (full : (scanWindow job.own (job.pending rest)).length =
      min (job.scoop.length - job.own.scoopPos) defaultBlockLen) :
    ∃ found weakSum oldPos, rsFindmatch env job =
        (found, (scanWindow job.own (job.pending rest)).length, { job with own := { job.own with
          weakSum := weakSum, oldPos := oldPos, searches := job.own.searches + 1 } }) ∧
      weakSum.Covers (scanWindow job.own (job.pending rest)) ∧
      jobSearch env (job.own.searches, job.own.oldPos) (scanWindow job.own (job.pending rest)) =
        (found, job.own.searches + 1, oldPos) := by
  have pends : job.pending rest = job.scoop ++ rest := by
    rw [Job.pending, idle.2, List.drop_zero, input, drawn, List.nil_append]
  have inbuf : (job.scoop.drop job.own.scoopPos).take (scanWindow job.own (job.pending rest)).length =
      scanWindow job.own (job.pending rest) := by
    have inScoop : (scanWindow job.own (job.pending rest)).length ≤ (job.scoop.drop job.own.scoopPos).length := by
      rw [full, List.length_drop]
      exact min_le_left _ _
    have begins : job.scoop.drop job.own.scoopPos <+: (job.pending rest).drop job.own.scoopPos := by
      rw [pends, List.drop_append_of_le_length there]
      exact List.prefix_append _ _
    have front : scanWindow job.own (job.pending rest) <+: (job.pending rest).drop job.own.scoopPos :=
      List.take_prefix _ _
    exact (List.prefix_iff_eq_take.mp (List.prefix_of_prefix_length_le front begins inScoop)).symm
  have rolled : (scanWindow job.own (job.pending rest) ≠ [] ∧
      job.own.weakSum.Covers (scanWindow job.own (job.pending rest))) ∨ (job.own.weakSum.Covers [] ∧
        (scanWindow job.own (job.pending rest)).length =
          min (job.scoop.length - job.own.scoopPos) defaultBlockLen) := by
    have covers := tracks.covers
    by_cases fresh : job.own.weakSum.count = 0
    · rw [fresh, List.take_zero] at covers
      exact .inr ⟨covers, full⟩
    · have counted := tracks.window.resolve_left fresh
      rw [counted, List.take_length] at covers
      exact .inl ⟨fun empty => fresh (by rw [counted, empty, List.length_nil]), covers⟩
  obtain ⟨found, weakSum, oldPos, value, covers, searched⟩ := rsFindmatch_eq blockLen inbuf rolled
  refine ⟨found, weakSum, oldPos, value, covers, ?_⟩
  simp only [jobSearch, searched]

/-! ## The loops -/

/-- The states of the loops of a call that began in `start`. -/
structure Scanning (start : Job DeltaJob) (out rest : Bytes) (state : Result × Job DeltaJob) : Prop where
  reached : start.Extends state.2 rest
  tracks : Tracks state.2.own (state.2.pending rest)
  pays : start.Pays (fun own _ => deltaPotential own) state.2 out rest 0
  settled : state.2.Settled state.1
  drawn : state.2.nextIn = []
  statefn : state.2.own.statefn = start.own.statefn

/-- What is left to scan in the scoop, while the output is not blocked. -/
def scanMeasure (rest : Bytes) (state : Result × Job DeltaJob) : ℕ :=
  if state.1 = .done then (state.2.pending rest).length - rest.length - state.2.own.scoopPos else 0

variable {start : Job DeltaJob}

namespace Scanning

theorem idle {result : Result} (scanning : Scanning start out rest (result, job)) (done : result = .done) :
    job.Idle := by
  rcases scanning.settled with ⟨-, idle⟩ | ⟨blocked, -⟩
  · exact idle
  · cases done.symm.trans blocked

/-- A search changes no strings. -/
theorem found {result : Result} {weakSum : Rollsum} (scanning : Scanning start out rest (result, job))
    (covers : weakSum.Covers (scanWindow job.own (job.pending rest))) (oldPos searches : ℕ) :
    Scanning start out rest (result, { job with own := { job.own with
      weakSum := weakSum, oldPos := oldPos, searches := searches } }) := by
  obtain ⟨reached, tracks, pays, settled, drawn, statefn⟩ := scanning
  have owned := Moves.of_own reached.sound
    { job.own with weakSum := weakSum, oldPos := oldPos, searches := searches }
  refine ⟨reached.trans owned.toExtends, ⟨tracks.scanned, tracks.short, ?_, .inr covers.1⟩, pays, settled, drawn, statefn⟩
  change weakSum.Covers ((scanWindow job.own (job.pending rest)).take weakSum.count)
  rw [covers.1, List.take_length]
  exact covers

theorem advance {result : Result} {next : Job DeltaJob} {len : ℕ} {after : List Command × Held}
    (scanning : Scanning start out rest (.done, job)) (advances : Advances job next result rest len after)
    (positive : 0 < len) (there : job.own.scoopPos + len ≤ job.scoop.length) :
    Scanning start out rest (result, next) ∧ scanMeasure rest (result, next) < scanMeasure rest (.done, job) ∧
      (next.pending rest).length + job.own.scoopPos + len = (job.pending rest).length + next.own.scoopPos := by
  obtain ⟨⟨moved, moves, place, cost⟩, tracks, -, -, -, settled, statefn⟩ := advances
  have total := scoop_length rest (scanning.idle rfl) scanning.drawn
  have behind : (next.pending rest).length = (job.pending rest).length - moved := by
    rw [moves.pending, List.length_drop]
  refine ⟨⟨scanning.reached.trans moves.toExtends, tracks, ?_, settled, moves.drawn scanning.drawn,
    statefn.trans scanning.statefn⟩, ?_, by omega⟩
  · have pays := scanning.pays
    have credit := moves.credit
    simp only [Pays, moves.pending] at pays ⊢
    omega
  · simp only [scanMeasure, ↓reduceIte]
    split <;> omega

end Scanning

/-- What is still to come when a search has been made and its outcome is not yet recorded. -/
def EmitsFound (env : DeltaEnv) (new : Bytes) (found : Option ℕ) (own : DeltaJob) (emitted pending : Bytes) : Prop :=
  emitted ++ encodeAll (((own.held pending).next found (pending.drop own.scoopPos)).1 ++
      greedyFrom (jobSearch env) (own.searches, own.oldPos)
        ((pending.drop own.scoopPos).drop (reach found (pending.drop own.scoopPos)))
        ((own.held pending).next found (pending.drop own.scoopPos)).2) =
    netint 4 deltaMagic ++ encodeAll (deltaCommands env new)

namespace Emits

/-- A search tells what comes next. -/
theorem search {found : Option ℕ} {searches oldPos : ℕ} (emits : Emits env new own emitted pending)
    (some_ : own.scoopPos < pending.length)
    (searched : jobSearch env (own.searches, own.oldPos) (scanWindow own pending) = (found, searches, oldPos))
    (weakSum : Rollsum) :
    EmitsFound env new found { own with weakSum := weakSum, oldPos := oldPos, searches := searches } emitted pending := by
  have more : pending.drop own.scoopPos ≠ [] := by
    rw [ne_eq, List.drop_eq_nil_iff]
    omega
  rw [Emits, greedyFrom_more more] at emits
  change jobSearch env _ (nextWindow _) = _ at searched
  rw [searched] at emits
  exact emits

/-- The round records it. -/
theorem advance {found : Option ℕ} {result : Result} {next : Job DeltaJob} {len : ℕ}
    (emits : EmitsFound env new found job.own (job.emitted out rest) (job.pending rest))
    (far : len = reach found ((job.pending rest).drop job.own.scoopPos))
    (advances : Advances job next result rest len
      ((job.own.held (job.pending rest)).next found ((job.pending rest).drop job.own.scoopPos))) :
    Emits env new next.own (next.emitted out rest) (next.pending rest) := by
  obtain ⟨⟨moved, moves, place, -⟩, -, held, searches, oldPos, -, -⟩ := advances
  have behind : (next.pending rest).drop next.own.scoopPos =
      ((job.pending rest).drop job.own.scoopPos).drop (reach found ((job.pending rest).drop job.own.scoopPos)) := by
    rw [moves.pending, List.drop_drop, List.drop_drop, place, far]
  rw [EmitsFound, encodeAll_append, ← List.append_assoc] at emits
  rw [Emits, moves.emitted, behind, held, searches, oldPos]
  exact emits

end Emits

/-- The states of the loops, with what is still to come. -/
structure Searching (env : DeltaEnv) (new : Bytes) (start : Job DeltaJob) (out rest : Bytes)
    (state : Result × Job DeltaJob) : Prop where
  scanning : Scanning start out rest state
  emits : Emits env new state.2.own (state.2.emitted out rest) (state.2.pending rest)

/-- A round with the outcome of a search: a match of the window, or a miss with the next sum. -/
theorem Scanning.round {found : Option ℕ} {weakSum : Rollsum} (scanning : Scanning start out rest (.done, job))
    (emits : EmitsFound env new found job.own (job.emitted out rest) (job.pending rest))
    (some_ : job.own.scoopPos < (job.pending rest).length)
    (there : job.own.scoopPos + (scanWindow job.own (job.pending rest)).length ≤ job.scoop.length)
    (covers : weakSum.Covers (((job.pending rest).drop (job.own.scoopPos + 1)).take defaultBlockLen)) :
    ∃ state, (match found with
        | some matchPos => rsMatchRound matchPos (scanWindow job.own (job.pending rest)).length job
        | none => rsMissRound weakSum job) = .ok (.again state) ∧
      Searching env new start out rest state ∧ scanMeasure rest state < scanMeasure rest (.done, job) ∧
      (state.2.pending rest).length + job.own.scoopPos ≤ (job.pending rest).length + state.2.own.scoopPos := by
  have idle := scanning.idle rfl
  have drawn : job.nextIn = [] := scanning.drawn
  have sound : job.Sound rest := scanning.reached.sound
  have tracks : Tracks job.own (job.pending rest) := scanning.tracks
  have positive : 0 < (scanWindow job.own (job.pending rest)).length := by
    rw [scanWindow_length, defaultBlockLen]
    omega
  cases found with
  | some matchPos =>
    obtain ⟨result, next, ran, advances⟩ := rsMatchRound_advances matchPos sound idle drawn tracks there positive
    obtain ⟨scanning', smaller, place⟩ := scanning.advance advances positive there
    refine ⟨(result, next), ran, ⟨scanning', .advance emits rfl advances⟩, smaller, ?_⟩
    change (next.pending rest).length + _ ≤ _ + next.own.scoopPos
    omega
  | none =>
    obtain ⟨result, next, ran, advances⟩ := rsMissRound_advances sound idle drawn tracks (by omega) covers
    obtain ⟨scanning', smaller, place⟩ := scanning.advance advances Nat.one_pos (by omega)
    refine ⟨(result, next), ran, ⟨scanning', .advance emits rfl advances⟩, smaller, ?_⟩
    change (next.pending rest).length + _ ≤ _ + next.own.scoopPos
    omega

/-- The sum of the window one octet further. -/
private theorem covers_rotate {weakSum : Rollsum} (covers : weakSum.Covers (scanWindow own pending))
    (long : own.scoopPos + defaultBlockLen < pending.length) :
    (rollsumRotate weakSum ((pending.drop own.scoopPos).getD 0 0)
      ((pending.drop own.scoopPos).getD defaultBlockLen 0)).Covers
        ((pending.drop (own.scoopPos + 1)).take defaultBlockLen) := by
  have size : defaultBlockLen < (pending.drop own.scoopPos).length := by
    rw [List.length_drop]
    omega
  rw [scanWindow, nextWindow] at covers
  rw [← List.drop_drop]
  cases behind : pending.drop own.scoopPos with
  | nil => simp [behind] at size
  | cons leaves tail =>
    rw [behind] at covers size
    have inside : defaultBlockLen - 1 < tail.length := by
      simp only [List.length_cons, defaultBlockLen] at *
      omega
    have front : weakSum.Covers (leaves :: tail.take (defaultBlockLen - 1)) := covers
    have rotated := front.rotate (tail.getD (defaultBlockLen - 1) 0)
    have enters : tail.take (defaultBlockLen - 1) ++ [tail.getD (defaultBlockLen - 1) 0] =
        tail.take (defaultBlockLen - 1 + 1) := by
      rw [List.take_add_one, List.getD_eq_getElem?_getD, List.getElem?_eq_getElem inside, Option.toList_some,
        Option.getD_some]
    rw [enters] at rotated
    exact rotated

/-- The sum of the last window without its first octet. -/
private theorem covers_rollout {weakSum : Rollsum} (covers : weakSum.Covers (scanWindow own pending))
    (some_ : own.scoopPos < pending.length) (last : pending.length ≤ own.scoopPos + defaultBlockLen) :
    (rollsumRollout weakSum ((pending.drop own.scoopPos).getD 0 0)).Covers
      ((pending.drop (own.scoopPos + 1)).take defaultBlockLen) := by
  have size : 0 < (pending.drop own.scoopPos).length ∧ (pending.drop own.scoopPos).length ≤ defaultBlockLen := by
    rw [List.length_drop]
    omega
  rw [scanWindow, nextWindow, List.take_of_length_le size.2] at covers
  rw [← List.drop_drop]
  cases behind : pending.drop own.scoopPos with
  | nil => simp [behind] at size
  | cons leaves tail =>
    rw [behind] at covers size
    rw [List.take_of_length_le (by simp only [List.length_drop]; omega)]
    exact covers.rollout

/-- The octets that the rolling sum reads are those of the input. -/
private theorem scoop_getD (rest : Bytes) (i : ℕ) (idle : job.Idle) (drawn : job.nextIn = [])
    (inside : job.own.scoopPos + i < job.scoop.length) :
    job.scoop.getD (job.own.scoopPos + i) 0 = ((job.pending rest).drop job.own.scoopPos).getD i 0 := by
  have pends : job.pending rest = job.scoop ++ rest := by
    rw [Job.pending, idle.2, List.drop_zero, input, drawn, List.nil_append]
  simp only [List.getD_eq_getElem?_getD, List.getElem?_drop, pends, List.getElem?_append_left inside]

/-- One round of the loop of `rs_delta_s_scan`. -/
theorem rsScanRound_keeps (blockLen : env.sig.blockLen = defaultBlockLen) (state : Result × Job DeltaJob)
    (searching : Searching env new start out rest state) :
    Round.Keeps (Searching env new start out rest) (scanMeasure rest)
      (fun final => Searching env new start out rest final ∧
        (final.1 = .done → final.2.scoop.length ≤ final.2.own.scoopPos + defaultBlockLen))
      state (rsScanRound env state) := by
  obtain ⟨result, job⟩ := state
  by_cases goes : result = .done ∧ job.own.scoopPos + defaultBlockLen < job.scoop.length
  · right
    obtain ⟨rfl, long⟩ := goes
    obtain ⟨scanning, emits⟩ := searching
    have idle := scanning.idle rfl
    have drawn : job.nextIn = [] := scanning.drawn
    have total := scoop_length rest idle drawn
    have length := scanWindow_length job.own (job.pending rest)
    have some_ : job.own.scoopPos < (job.pending rest).length := by omega
    obtain ⟨found, weakSum, oldPos, value, covers, searched⟩ := rsFindmatch_spec blockLen idle drawn
      scanning.tracks (by omega) (by omega)
    have rotated := covers_rotate covers (by omega)
    rw [← scoop_getD rest 0 idle drawn (by omega), ← scoop_getD rest defaultBlockLen idle drawn long] at rotated
    obtain ⟨state, ran, searching, smaller, -⟩ := (scanning.found covers oldPos (job.own.searches + 1)).round
      (emits.search some_ searched weakSum) some_
      (show job.own.scoopPos + (scanWindow job.own (job.pending rest)).length ≤ job.scoop.length by omega) rotated
    refine ⟨state, ?_, searching, smaller⟩
    rw [rsScanRound, blockLen, if_pos ⟨rfl, long⟩, value]
    exact ran
  · left
    refine ⟨(result, job), by simp only [rsScanRound, blockLen, if_neg goes], searching, ?_⟩
    intro done
    exact Nat.le_of_not_lt fun long => goes ⟨done, long⟩

/-- One round of the loop of `rs_delta_s_flush`, with all that is left in the last window. -/
theorem rsFlushRound_keeps (blockLen : env.sig.blockLen = defaultBlockLen) (ended : rest = [])
    (state : Result × Job DeltaJob)
    (flushing : Searching env new start out rest state ∧
      (state.2.pending rest).length ≤ state.2.own.scoopPos + defaultBlockLen) :
    Round.Keeps (fun state => Searching env new start out rest state ∧
        (state.2.pending rest).length ≤ state.2.own.scoopPos + defaultBlockLen) (scanMeasure rest)
      (fun final => (Searching env new start out rest final ∧
        (final.2.pending rest).length ≤ final.2.own.scoopPos + defaultBlockLen) ∧
        (final.1 = .done → final.2.scoop.length ≤ final.2.own.scoopPos))
      state (rsFlushRound env state) := by
  obtain ⟨result, job⟩ := state
  obtain ⟨searching, last⟩ := flushing
  by_cases goes : result = .done ∧ job.own.scoopPos < job.scoop.length
  · right
    obtain ⟨rfl, more⟩ := goes
    obtain ⟨scanning, emits⟩ := searching
    have idle := scanning.idle rfl
    have drawn : job.nextIn = [] := scanning.drawn
    have total := scoop_length rest idle drawn
    rw [ended, List.length_nil, Nat.add_zero, ← ended] at total
    have length := scanWindow_length job.own (job.pending rest)
    have some_ : job.own.scoopPos < (job.pending rest).length := by omega
    change (job.pending rest).length ≤ job.own.scoopPos + defaultBlockLen at last
    obtain ⟨found, weakSum, oldPos, value, covers, searched⟩ := rsFindmatch_spec blockLen idle drawn
      scanning.tracks (by omega) (by omega)
    have rolled := covers_rollout covers (by omega) last
    rw [← scoop_getD rest 0 idle drawn (by omega)] at rolled
    obtain ⟨state, ran, searching, smaller, place⟩ := (scanning.found covers oldPos (job.own.searches + 1)).round
      (emits.search some_ searched weakSum) some_
      (show job.own.scoopPos + (scanWindow job.own (job.pending rest)).length ≤ job.scoop.length by omega) rolled
    change _ + job.own.scoopPos ≤ (job.pending rest).length + _ at place
    refine ⟨state, ?_, ⟨searching, by omega⟩, smaller⟩
    rw [rsFlushRound, if_pos ⟨rfl, more⟩, value]
    exact ran
  · left
    refine ⟨(result, job), by simp only [rsFlushRound, if_neg goes], ⟨searching, last⟩, ?_⟩
    intro done
    exact Nat.le_of_not_lt fun more => goes ⟨done, more⟩

/-! ## The state functions -/

/-- The invariant of the delta job. -/
def DeltaInv (env : DeltaEnv) (new : Bytes) (own : DeltaJob) (eofIn : Bool) (emitted pending : Bytes) : Prop :=
  match own.statefn with
  | .header => emitted = [] ∧ pending = new ∧ own = rsDeltaBegin env.oldFile
  | .scan => Tracks own pending ∧ Emits env new own emitted pending
  | .flush => (Tracks own pending ∧ Emits env new own emitted pending) ∧ eofIn = true ∧
      pending.length ≤ own.scoopPos + defaultBlockLen
  | .finish => pending = [] ∧ emitted = netint 4 deltaMagic ++ encodeAll (deltaCommands env new)

/-- What a call of a state function of the delta job establishes. -/
abbrev DeltaStep (env : DeltaEnv) (new out rest : Bytes) (job : Job DeltaJob)
    (statefn : Job DeltaJob → Except Abort (Result × Job DeltaJob)) : Prop :=
  ∃ result next, statefn job = .ok (result, next) ∧ job.Extends next rest ∧
    job.Outcome (DeltaInv env new) (fun _ emitted => emitted = deltaOctets env new) (fun _ => False)
      (fun own _ => deltaPotential own) true next out rest result

theorem rsDeltaSHeader_spec (sound : job.Sound rest) (idle : job.Idle) (header : job.own.statefn = .header)
    (inv : DeltaInv env new job.own job.eofIn (job.emitted out rest) (job.pending rest)) :
    DeltaStep env new out rest job rsDeltaSHeader := by
  rw [DeltaInv, header] at inv
  obtain ⟨emits, pends, own⟩ := inv
  have moves := Moves.of_queue sound idle (netint 4 deltaMagic) { job.own with statefn := .scan }
  refine ⟨.running, _, ?_, moves.toExtends, .running ?_ ?_⟩
  · simp [rsDeltaSHeader, rsEmitDeltaHeader, rsSquirtN4, rsSquirtNetint, rsTubeWrite, idle.1, idle.2, tubeSize,
      queue, bind, Except.bind, pure, Except.pure]
  · rw [moves.emitted, moves.pending, emits, pends, List.nil_append, List.drop_zero, queue_own, own]
    refine ⟨⟨Nat.zero_le _, fun _ => Nat.zero_le _, ?_, .inl rfl⟩, ?_⟩
    · simpa [rsDeltaBegin, rollsumInit] using rollsumInit_covers
    · simp [Emits, deltaCommands, rsDeltaBegin, DeltaJob.held]
  · simp only [Pays, queue_tube idle, idle_iff_tube.mp idle, queue_pending, queue_availOut, queue_own, deltaPotential,
      deltaPhase, flushCost, netint_length, own, rsDeltaBegin, ne_eq, not_true_eq_false, ↓reduceIte]
    omega

theorem rsGetinput_value {σ : Type} (job : Job σ) :
    rsGetinput job = .ok { job with scoop := job.scoop ++ job.nextIn, nextIn := [] } := by
  rw [rsGetinput, rsScoopTotalAvail]
  by_cases more : job.nextIn = []
  · cases job
    simp_all
  · have positive := List.length_pos_of_ne_nil more
    rw [if_pos (by omega), rsScoopInput, if_pos (by omega)]
    simp only [Nat.add_sub_cancel_left, min_self, List.take_length, List.drop_length]

/-- The start of `rs_delta_s_scan` and `rs_delta_s_flush`. -/
theorem rsGetinput_searching (sound : job.Sound rest) (idle : job.Idle) (tracks : Tracks job.own (job.pending rest))
    (emits : Emits env new job.own (job.emitted out rest) (job.pending rest)) :
    ∃ middle, rsGetinput job = .ok middle ∧ Searching env new job out rest (rsTubeCatchup middle) ∧
      scanMeasure rest (rsTubeCatchup middle) < middle.scoop.length + 1 ∧
      ((rsTubeCatchup middle).2.pending rest).length ≤ (job.pending rest).length ∧
      (rsTubeCatchup middle).2.own = job.own := by
  have scooped : job.Takes { job with scoop := job.scoop ++ job.nextIn, nextIn := [] } 0 rest :=
    ⟨rfl, by simp [input], Nat.zero_le _⟩
  have moved := scooped.toExtends sound idle
  have total := scoop_length rest (scooped.idle idle) rfl
  have pends := scooped.pending idle
  have emitted_ : ({ job with scoop := job.scoop ++ job.nextIn, nextIn := [] } : Job DeltaJob).emitted out rest =
      job.emitted out rest := scooped.emitted idle
  have tube := idle_iff_tube.mp (scooped.idle idle)
  refine ⟨_, rsGetinput_value job, ?_⟩
  obtain ⟨result, next, caught, moves, own, settled⟩ := rsTubeCatchup_moves moved.sound
  rw [caught]
  have behind : next.pending rest = job.pending rest := by
    rw [moves.pending, pends, List.drop_zero, List.drop_zero]
  refine ⟨⟨⟨moved.trans moves.toExtends, ?_, ?_, settled, moves.drawn rfl, by rw [own]⟩, ?_⟩, ?_,
    le_of_eq (by rw [behind]), own⟩
  · rw [own, behind]
    exact tracks
  · have credit := moves.credit
    rw [tube, List.length_nil] at credit
    simp only [Pays, own, behind, idle_iff_tube.mp idle]
    change _ + job.availOut = _ at credit
    omega
  · rw [own, moves.emitted, emitted_, behind, List.append_nil]
    exact emits
  · rw [pends, List.drop_zero] at total
    change (job.scoop ++ job.nextIn).length + _ = _ at total
    simp only [scanMeasure, behind]
    split <;> omega

theorem rsDeltaSScan_spec (blockLen : env.sig.blockLen = defaultBlockLen) (sound : job.Sound rest) (idle : job.Idle)
    (state : job.own.statefn = .scan)
    (inv : DeltaInv env new job.own job.eofIn (job.emitted out rest) (job.pending rest)) :
    DeltaStep env new out rest job (rsDeltaSScan env) := by
  rw [DeltaInv, state] at inv
  obtain ⟨middle, input_, searching, enough, -, -⟩ := rsGetinput_searching sound idle inv.1 inv.2
  obtain ⟨⟨result, next⟩, ran, ⟨scanned, emits⟩, short⟩ := Round.loop_total Abort.outOfFuel
    (rsScanRound_keeps blockLen) searching enough
  have tracks : Tracks next.own (next.pending rest) := scanned.tracks
  have statefn : next.own.statefn = .scan := scanned.statefn.trans state
  have running : DeltaInv env new next.own next.eofIn (next.emitted out rest) (next.pending rest) := by
    rw [DeltaInv, statefn]
    exact ⟨tracks, emits⟩
  have value : rsDeltaSScan env job =
      if result = .done then
        if next.eofIn then .ok (.running, { next with own := { next.own with statefn := .flush } })
        else .ok (.blocked, next)
      else .ok (result, next) := by
    simp only [rsDeltaSScan, input_, ran, bind, Except.bind, pure, Except.pure]
  rcases scanned.settled with ⟨done, idle'⟩ | ⟨blocked, waits⟩
  · change result = .done at done
    subst done
    by_cases ended : next.eofIn = true
    · have owned := Moves.of_own scanned.reached.sound { next.own with statefn := .flush }
      refine ⟨.running, _, by rw [value, if_pos rfl, if_pos ended], scanned.reached.trans owned.toExtends,
        .running ⟨⟨tracks.setState .flush, emits⟩, ended, ?_⟩ ?_⟩
      · have total := scoop_length rest idle' scanned.drawn
        have exhausted : rest = [] := scanned.reached.sound.ended ended
        rw [exhausted, List.length_nil, Nat.add_zero] at total
        rw [exhausted]
        exact total ▸ short rfl
      · have pays := scanned.pays
        have phase : deltaPotential { next.own with statefn := .flush } (next.pending rest) + 3 =
            deltaPotential next.own (next.pending rest) + 2 := by
          rw [deltaPotential, deltaPotential, statefn]
          rfl
        rw [Pays] at pays ⊢
        change deltaPotential { next.own with statefn := .flush } (next.pending rest) + next.tube + _ + 1 ≤ _
        change deltaPotential next.own (next.pending rest) + next.tube + _ + 0 ≤ _ + next.availOut at pays
        change _ ≤ _ + next.availOut
        omega
    · refine ⟨.blocked, next, by rw [value, if_pos rfl, if_neg ended], scanned.reached,
        .blocked running scanned.pays (.inr ⟨scanned.drawn, Bool.not_eq_true _ ▸ ended⟩)⟩
  · change result = .blocked at blocked
    subst blocked
    exact ⟨.blocked, next, by rw [value, if_neg (by decide)], scanned.reached, .blocked running scanned.pays waits⟩

theorem rsDeltaSFlush_spec (blockLen : env.sig.blockLen = defaultBlockLen) (sound : job.Sound rest) (idle : job.Idle)
    (state : job.own.statefn = .flush)
    (inv : DeltaInv env new job.own job.eofIn (job.emitted out rest) (job.pending rest)) :
    DeltaStep env new out rest job (rsDeltaSFlush env) := by
  rw [DeltaInv, state] at inv
  obtain ⟨inv, ended, last⟩ := inv
  have exhausted : rest = [] := sound.ended ended
  obtain ⟨middle, input_, searching, enough, shrinks, own⟩ := rsGetinput_searching sound idle inv.1 inv.2
  obtain ⟨⟨result, next⟩, ran, ⟨⟨scanned, emits⟩, window⟩, short⟩ := Round.loop_total Abort.outOfFuel
    (rsFlushRound_keeps blockLen exhausted) ⟨searching, by rw [own]; omega⟩ enough
  have tracks : Tracks next.own (next.pending rest) := scanned.tracks
  have statefn : next.own.statefn = .flush := scanned.statefn.trans state
  rcases scanned.settled with ⟨done, idle'⟩ | ⟨blocked, waits⟩
  · change result = .done at done
    subst done
    have total := scoop_length rest idle' scanned.drawn
    rw [exhausted, List.length_nil, Nat.add_zero, ← exhausted] at total
    have all : (next.pending rest).drop next.own.scoopPos = [] := List.drop_eq_nil_of_le (total ▸ short rfl)
    obtain ⟨result, final, flushed, moves, own', settled⟩ :=
      rsAppendflush_moves scanned.reached.sound idle' (total ▸ tracks.scanned) tracks.short
    have nothing : final.pending rest = [] := moves.pending.trans all
    -- what was still to come is what has been held, and that has been flushed
    have finished : DeltaInv env new { final.own with statefn := .finish } final.eofIn (final.emitted out rest)
        (final.pending rest) := by
      rw [Emits, all, greedyFrom_nil] at emits
      rw [moves.emitted]
      exact ⟨nothing, emits⟩
    have owned := moves.setOwn { final.own with statefn := .finish }
    have pays : job.Pays (fun own _ => deltaPotential own)
        { final with own := { final.own with statefn := .finish } } out rest 1 := by
      have paid := DeltaJob.held_commands_length tracks.short tracks.scanned
      have pays := scanned.pays
      have credit : final.tube + next.availOut = next.tube +
        (encodeAll (next.own.held (next.pending rest)).commands).length + final.availOut := moves.credit
      have potential : deltaPotential { final.own with statefn := .finish } (final.pending rest) = 1 := by
        rw [nothing, own']
        rfl
      rw [Pays, deltaPotential, statefn] at pays
      change deltaPotential { final.own with statefn := .finish } (final.pending rest) + final.tube + _ + 1 ≤
        deltaPotential job.own (job.pending rest) + _ + final.availOut
      change _ + flushCost next.own + 2 + next.tube + _ + 0 ≤ _ + next.availOut at pays
      omega
    have value : rsDeltaSFlush env job =
        if result = .done then .ok (.running, { final with own := { final.own with statefn := .finish } })
        else .ok (result, { final with own := { final.own with statefn := .finish } }) := by
      simp only [rsDeltaSFlush, input_, ran, flushed, bind, Except.bind, pure, Except.pure, ↓reduceIte]
    rcases settled with ⟨rfl, -⟩ | ⟨rfl, waits⟩
    · exact ⟨.running, _, by rw [value, if_pos rfl], scanned.reached.trans owned.toExtends, .running finished pays⟩
    · refine ⟨.blocked, _, by rw [value, if_neg (by decide)], scanned.reached.trans owned.toExtends,
        .blocked finished ?_ waits⟩
      rw [Pays] at pays ⊢
      omega
  · change result = .blocked at blocked
    subst blocked
    refine ⟨.blocked, next, ?_, scanned.reached, .blocked ?_ scanned.pays waits⟩
    · simp [rsDeltaSFlush, input_, ran, bind, Except.bind, pure, Except.pure]
    · rw [DeltaInv, statefn]
      exact ⟨⟨tracks, emits⟩, scanned.reached.eofIn.trans ended, window⟩

theorem rsDeltaSEnd_spec (sound : job.Sound rest) (idle : job.Idle) (state : job.own.statefn = .finish)
    (inv : DeltaInv env new job.own job.eofIn (job.emitted out rest) (job.pending rest)) :
    DeltaStep env new out rest job rsDeltaSEnd := by
  rw [DeltaInv, state] at inv
  obtain ⟨nothing, emits⟩ := inv
  have moves := Moves.of_queue sound idle [0] job.own
  refine ⟨.done, _, ?_, moves.toExtends, .done ?_ ?_ ?_ ?_⟩
  · simp [rsDeltaSEnd, rsEmitEndCmd, rsSquirtByte, rsTubeWrite, idle.1, idle.2, tubeSize, queue, bind, Except.bind,
      pure, Except.pure]
  · rw [moves.emitted, emits, deltaOctets, List.append_assoc]
  · rw [moves.pending, nothing, List.drop_zero]
  · simp only [Job.pending, idle.2, List.drop_zero, input, List.append_eq_nil_iff] at nothing
    exact nothing.2.1
  · rw [queue_tube idle, idle_iff_tube.mp idle, queue_availOut, deltaPotential, state]
    simp only [List.length_singleton, deltaPhase]
    omega

/-- The delta job meets its specification. -/
def deltaSpec (env : DeltaEnv) (blockLen : env.sig.blockLen = defaultBlockLen) (new : Bytes) :
    JobSpec (rsDeltaStatefn env) true where
  Inv := DeltaInv env new
  Final := fun _ emitted => emitted = deltaOctets env new
  potential := fun own _ => deltaPotential own
  ended := by
    intro own emitted pending inv
    rw [DeltaInv] at inv ⊢
    split at inv
    · exact inv
    · exact inv
    · exact absurd inv.2.1 Bool.false_ne_true
    · exact inv
  silent := by simp
  step := by
    intro job out rest sound idle _ inv
    rw [rsDeltaStatefn]
    split
    · next state => exact rsDeltaSHeader_spec sound idle state inv
    · next state => exact rsDeltaSScan_spec blockLen sound idle state inv
    · next state => exact rsDeltaSFlush_spec blockLen sound idle state inv
    · next state => exact rsDeltaSEnd_spec sound idle state inv

/-- `rs_delta_file` always completes, with the delta of the plain scan. -/
theorem rsDeltaFile_done (env : DeltaEnv) (blockLen : env.sig.blockLen = defaultBlockLen) (new : Bytes) {fuel : ℕ}
    (enough : 27 * new.length + 11 < fuel) : rsDeltaFile env fuel new = .ok (.done, deltaOctets env new) := by
  have fuelled : (deltaSpec env blockLen new).potential (rsDeltaBegin env.oldFile) [] new + 2 * new.length + 3 < fuel := by
    simp only [deltaSpec, deltaPotential, rsDeltaBegin, flushCost, deltaPhase, ne_eq, not_true_eq_false, ↓reduceIte]
    omega
  obtain ⟨job, delta, ran, rfl⟩ := (deltaSpec env blockLen new).rsWholeRun_done
    (rsDeltaBegin env.oldFile) new (fun _ => id) ⟨rfl, rfl, rfl⟩ fuelled
  simp only [rsDeltaFile, ran, bind, Except.bind, pure, Except.pure]

/-- The commands of the delta. -/
theorem deltaCommands_formed (env : DeltaEnv) (new : Bytes) : ∀ command ∈ deltaCommands env new, command.WellFormed :=
  greedyFrom_formed _ _ _ (Nat.zero_le _)

end DeltaCFS
