import DeltaCFS.Proofs.TruncateMessage
import DeltaCFS.Proofs.Wire

/-! # The upload of a new file

`func_newfile` passes the start of the payload to every `write`. What it stores is the payload as
long as each call takes octets that are the same at the start and at the position reached, as one
call for all of them does.
-/

namespace DeltaCFS

open Bytes

variable {schedule : Schedule} {payload written : Bytes} {dir : Dir} {workload : Bytes} {request : NewfileRequest}

/-- What `write` reports for a request of all octets that are left behind `sent`. -/
def writeResult (schedule : Schedule) (total k sent : ℕ) : ℕ := transfer schedule k (total - sent)

/-- `writebytes` after so many calls. -/
def writeBytes (schedule : Schedule) (total : ℕ) : ℕ → ℕ
  | 0 => 0
  | k + 1 =>
    let sent := writeBytes schedule total k
    if sent < total then sent + writeResult schedule total k sent else sent

/-- Call `k` reports what fits an `int`, and the octets it takes are the ones at the position
reached. -/
def InStep (schedule : Schedule) (payload : Bytes) (k : ℕ) : Prop :=
  let sent := writeBytes schedule payload.length k
  let count := writeResult schedule payload.length k sent
  sent < payload.length → count < 2 ^ 31 ∧ payload.take count = (payload.drop sent).take count

instance (schedule : Schedule) (payload : Bytes) (k : ℕ) : Decidable (InStep schedule payload k) :=
  inferInstanceAs (Decidable (_ → _))

theorem writeResult_bounds (schedule : Schedule) {total k sent : ℕ} (more : sent < total) :
    0 < writeResult schedule total k sent ∧ sent + writeResult schedule total k sent ≤ total := by
  obtain ⟨progress, most⟩ := transfer_bounds schedule k (show 0 < total - sent by omega)
  simp only [writeResult]
  omega

/-! ## Termination -/

theorem writeBytes_le (schedule : Schedule) (total k : ℕ) : writeBytes schedule total k ≤ total := by
  induction k with
  | zero => exact Nat.zero_le _
  | succ k ih =>
    simp only [writeBytes]
    split
    · next more => exact (writeResult_bounds schedule more).2
    · exact ih

/-- Every call moves an octet. -/
theorem le_writeBytes (schedule : Schedule) (total k : ℕ) : min k total ≤ writeBytes schedule total k := by
  induction k with
  | zero => simp [writeBytes]
  | succ k ih =>
    have bound := writeBytes_le schedule total k
    simp only [writeBytes]
    split
    · next more =>
      have progress := (writeResult_bounds schedule (k := k) more).1
      omega
    · omega

theorem writeBytes_total (schedule : Schedule) (total : ℕ) : writeBytes schedule total total = total := by
  have low := le_writeBytes schedule total total
  have high := writeBytes_le schedule total total
  omega

/-! ## Content -/

/-- The loop writes as many octets as are left. -/
theorem writeLoop_length (fuel k sent : ℕ) {result : Bytes} (bound : sent ≤ payload.length)
    (enough : payload.length - sent ≤ fuel) (wrote : writeLoop schedule payload fuel k sent written = .ok result) :
    ∃ rest, result = written ++ rest ∧ rest.length = payload.length - sent := by
  induction fuel generalizing k sent written with
  | zero => exact ⟨[], by simpa [writeLoop, eq_comm] using wrote, by simp only [List.length_nil]; omega⟩
  | succ fuel ih =>
    simp only [writeLoop] at wrote
    split at wrote
    · next more =>
      obtain ⟨progress, most⟩ := writeResult_bounds schedule (k := k) more
      simp only [writeResult] at progress most
      split at wrote
      · obtain ⟨rest, rfl, length⟩ := ih _ _ (by omega) (by omega) wrote
        refine ⟨_, List.append_assoc _ _ _, ?_⟩
        rw [List.length_append, List.length_take, length]
        omega
      · exact absurd wrote (by simp)
    · exact ⟨[], by simpa [eq_comm] using wrote, by simp only [List.length_nil]; omega⟩

/-- What is written from call `k` on is what was to be written exactly when every call is in step. -/
theorem writeLoop_eq_iff (fuel k : ℕ) (enough : payload.length - writeBytes schedule payload.length k ≤ fuel) :
    writeLoop schedule payload fuel k (writeBytes schedule payload.length k) written =
        .ok (written ++ payload.drop (writeBytes schedule payload.length k)) ↔
      ∀ later, k ≤ later → InStep schedule payload later := by
  have settled (first : ℕ) (done : ¬ writeBytes schedule payload.length first < payload.length) (later : ℕ)
      (after : first ≤ later) : InStep schedule payload later := by
    have stays : ∀ later, first ≤ later → ¬ writeBytes schedule payload.length later < payload.length := by
      intro later after
      induction after with
      | refl => exact done
      | step _ ih =>
        rw [writeBytes]
        simpa only [ih, ↓reduceIte] using ih
    exact fun more => absurd more (stays later after)
  induction fuel generalizing k written with
  | zero =>
    have bound := writeBytes_le schedule payload.length k
    have all : payload.drop (writeBytes schedule payload.length k) = [] := List.drop_eq_nil_of_le (by omega)
    simp only [writeLoop, all, List.append_nil, true_iff]
    exact settled k (by omega)
  | succ fuel ih =>
    simp only [writeLoop]
    split
    · next more =>
      obtain ⟨progress, most⟩ := writeResult_bounds schedule (k := k) more
      have next : writeBytes schedule payload.length (k + 1) = writeBytes schedule payload.length k +
          transfer schedule k (payload.length - writeBytes schedule payload.length k) := by
        simp only [writeBytes, more, ↓reduceIte, writeResult]
      simp only [writeResult] at progress most
      have rest := @ih (written ++ payload.take
        (transfer schedule k (payload.length - writeBytes schedule payload.length k))) (k + 1) (by rw [next]; omega)
      rw [next] at rest
      -- the part of the payload this call should write, and the part behind it
      have parts : payload.drop (writeBytes schedule payload.length k) =
          (payload.drop (writeBytes schedule payload.length k)).take
            (transfer schedule k (payload.length - writeBytes schedule payload.length k)) ++
          payload.drop (writeBytes schedule payload.length k +
            transfer schedule k (payload.length - writeBytes schedule payload.length k)) := by
        rw [← List.drop_drop, List.take_append_drop]
      constructor
      · intro wrote later after
        split at wrote
        · next small =>
          obtain ⟨tail, same, length⟩ := writeLoop_length fuel (k + 1) _ (by omega) (by omega) wrote
          rw [parts, List.append_assoc] at same
          have chunks := List.append_cancel_left same
          have sizes : ((payload.drop (writeBytes schedule payload.length k)).take
              (transfer schedule k (payload.length - writeBytes schedule payload.length k))).length =
              (payload.take (transfer schedule k (payload.length - writeBytes schedule payload.length k))).length := by
            simp only [List.length_take, List.length_drop]
            omega
          obtain ⟨chunk, -⟩ := List.append_inj chunks sizes
          rcases after.eq_or_lt with rfl | behind
          · exact fun _ => ⟨small, chunk.symm⟩
          · refine rest.mp ?_ later behind
            rw [wrote, parts, chunk, List.append_assoc]
        · exact absurd wrote (by simp)
      · intro inStep
        obtain ⟨small, chunk⟩ := inStep k le_rfl more
        simp only [writeResult] at small chunk
        rw [if_pos small, rest.mpr fun later after => inStep later (by omega), parts, chunk, List.append_assoc]
    · next done =>
      have all : payload.drop (writeBytes schedule payload.length k) = [] := List.drop_eq_nil_of_le (by omega)
      simp only [all, List.append_nil, true_iff]
      exact settled k done

/-- The loop of `func_newfile` ends after at most one call for each octet, and the payload is what is
stored if and only if every call is in step. -/
theorem newfile_stored_iff (schedule : Schedule) (dir : Dir) (workload : Bytes) (request : NewfileRequest)
    (read : readNewfile workload = .ok request) :
    (∃ calls ≤ request.payload.length, writeBytes schedule request.payload.length calls = request.payload.length) ∧
      ((∃ reply, funcNewfile schedule dir workload = .ok reply ∧ reply.dir request.newver = some request.payload) ↔
        ∀ k, InStep schedule request.payload k) := by
  refine ⟨⟨_, le_rfl, writeBytes_total schedule _⟩, ?_⟩
  have loop := @writeLoop_eq_iff schedule request.payload [] request.payload.length 0 (Nat.sub_le _ _)
  simp only [writeBytes, List.drop_zero, List.nil_append, Nat.zero_le, true_implies] at loop
  rw [← loop]
  constructor
  · rintro ⟨reply, served, stored⟩
    simp only [funcNewfile, read, Except.bind_eq_ok, Except.ok.injEq, exists_eq_left'] at served
    obtain ⟨content, wrote, same⟩ := served
    obtain rfl := Except.ok.inj same
    simp only [Dir.set, ↓reduceIte, Option.some.injEq] at stored
    rw [wrote, stored]
  · intro wrote
    refine ⟨⟨dir.set request.newver request.payload, some true⟩, ?_, by simp [Dir.set]⟩
    simp [funcNewfile, read, wrote, bind, Except.bind, pure, Except.pure]

/-- Three equal octets are written one by one. -/
theorem newfile_stored_whole :
    ∃ reply, funcNewfile (fun _ _ => 1) (fun _ => none) (sendNewfile (packedNode .newfile) [7, 7, 7]) = .ok reply ∧
      reply.dir (verToName 9) = some [7, 7, 7] := by
  have read : readNewfile (sendNewfile (packedNode .newfile) [7, 7, 7]) = .ok ⟨verToName 9, [47, 97], [7, 7, 7], 20⟩ := by
    decide +kernel
  refine (newfile_stored_iff (fun _ _ => 1) (fun _ => none) _ _ read).2.mpr fun k => ?_
  match k with
  | 0 => decide
  | 1 => decide
  | 2 => decide
  | k + 3 =>
    have done : ¬ writeBytes (fun _ _ => 1) 3 (k + 3) < 3 := by
      induction k with
      | zero => decide
      | succ k ih =>
        rw [writeBytes]
        simpa only [ih, ↓reduceIte] using ih
    exact fun more => absurd more done

/-- The message of a new file of three octets. -/
def threeOctets : Bytes := sendNewfile (packedNode .newfile) [1, 2, 3]

/-- Two octets are written at first, and the third one is taken from the start again. -/
theorem short_write_stores_start :
    readNewfile threeOctets = .ok ⟨verToName 9, [47, 97], [1, 2, 3], 20⟩ ∧
      ∃ reply, funcNewfile (fun _ _ => 2) (fun _ => none) threeOctets = .ok reply ∧
        reply.dir (verToName 9) = some [1, 2, 1] ∧ reply.dir (verToName 9) ≠ some [1, 2, 3] := by
  refine ⟨by decide +kernel, Except.exists_ok ?_⟩
  decide +kernel

end DeltaCFS
