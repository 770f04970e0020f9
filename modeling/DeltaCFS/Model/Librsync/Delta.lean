import DeltaCFS.Model.Librsync.Signature
import Mathlib.Data.List.Sort
import Mathlib.Logic.Function.Basic

/-! # Deltas

`search.c` looks blocks up by their weak sum and compares them with the old file, `emit.c` writes
the commands, and `delta.c` scans the new file. The tag table, the targets and the file `old_file`
belong to the signature in the source; here they make up a `DeltaEnv`.
-/

namespace DeltaCFS

open Bytes

/-! ## Search -/

/-- `gettag`. -/
def gettag (sum : UInt32) : ℕ := (sum.toNat % 2 ^ 16 + sum.toNat / 2 ^ 16) % 2 ^ 16

/-- `rs_target_t`. -/
structure Target where
  t : ℕ
  i : ℕ
deriving DecidableEq, Repr

/-- `rs_compare_targets`. -/
def rsCompareTargets (t1 t2 : Target) : ℤ := t1.t - t2.t

/-- A `qsort` of targets: it leaves open in which order targets of one tag come. -/
structure Qsort where
  run : List Target → List Target
  perm : ∀ targets, (run targets).Perm targets
  sorted : ∀ targets, (run targets).Pairwise fun t1 t2 => rsCompareTargets t1 t2 ≤ 0

/-- Targets of one tag in the order of their blocks. -/
def Qsort.stable : Qsort where
  run := List.insertionSort fun t1 t2 => rsCompareTargets t1 t2 ≤ 0
  perm := List.perm_insertionSort _
  sorted targets := by
    have total : Std.Total fun t1 t2 => rsCompareTargets t1 t2 ≤ 0 := ⟨fun t1 t2 => by
      simp only [rsCompareTargets]
      omega⟩
    have trans : IsTrans Target fun t1 t2 => rsCompareTargets t1 t2 ≤ 0 := ⟨fun t1 t2 t3 first second => by
      simp only [rsCompareTargets] at *
      omega⟩
    exact List.pairwise_insertionSort _ targets

/-- What a delta job reads: `tag_table` maps tags to positions in `targets`, with `none` for
`NULL_TAG`, and `stack` is the uninitialised `oldbuf`, by call of `rs_search_for_block` and octet. -/
structure DeltaEnv where
  sig : Signature
  targets : List Target
  tagTable : ℕ → Option ℕ
  oldFile : Bytes
  stack : Stack

/-- `rs_build_hash_table`. The second loop runs from the last target to the first. -/
def rsBuildHashTable (qsort : Qsort) (sig : Signature) (oldFile : Bytes) (stack : Stack) : DeltaEnv :=
  let targets := qsort.run (sig.blockSigs.mapIdx fun i block => ⟨gettag block.weakSum, i⟩)
  let tagTable : ℕ → Option ℕ := targets.zipIdx.foldr
    (fun entry table => Function.update table entry.1.t (some entry.2)) fun _ => none
  ⟨sig, targets, tagTable, oldFile, stack⟩

/-- `fseek(old_file, i * block_len, 0)`: the product is an `int`, and a negative offset leaves the
position as it was. -/
def seekBlock (i blockLen pos : ℕ) : ℕ :=
  let offset := i * blockLen % 2 ^ 32
  if offset < 2 ^ 31 then offset else pos

/-- The loop of `rs_search_for_block` over the targets from `j` on: `match_where`, if there is a
match, and the position of `old_file`. A short `fread` leaves the rest of `oldbuf`. -/
def rsSearchLoop (env : DeltaEnv) (weakSum : UInt32) (inbuf : Bytes) :
    List Target → Bytes → ℕ → Option ℕ × ℕ
  | [], _, pos => (none, pos)
  | target :: targets, oldbuf, pos =>
    if target.t ≠ gettag weakSum then (none, pos)
    else
      let block := env.sig.blockSigs.getD target.i default
      if weakSum ≠ block.weakSum then rsSearchLoop env weakSum inbuf targets oldbuf pos
      else
        let pos := seekBlock target.i env.sig.blockLen pos
        let got := pread env.oldFile pos env.sig.blockLen
        let oldbuf := got ++ oldbuf.drop got.length
        if oldbuf.take inbuf.length = inbuf then
          (some ((block.i - 1) * env.sig.blockLen), pos + got.length)
        else rsSearchLoop env weakSum inbuf targets oldbuf (pos + got.length)

/-- `rs_search_for_block`; `call` numbers the calls. -/
def rsSearchForBlock (env : DeltaEnv) (call : ℕ) (weakSum : UInt32) (inbuf : Bytes) (pos : ℕ) : Option ℕ × ℕ :=
  match env.tagTable (gettag weakSum) with
  | none => (none, pos)
  | some j => rsSearchLoop env weakSum inbuf (env.targets.drop j) (env.stack.octets call bufLen) pos

/-! ## Commands -/

/-- `RS_DELTA_MAGIC`. -/
def deltaMagic : ℕ := 0x72730236

variable {σ : Type}

/-- `rs_emit_delta_header`. -/
def rsEmitDeltaHeader (job : Job σ) : Except Abort (Job σ) := rsSquirtN4 deltaMagic job

/-- `rs_emit_literal_cmd`. -/
def rsEmitLiteralCmd (len : ℕ) (job : Job σ) : Except Abort (Job σ) := do
  let paramLen := rsIntLen len
  let cmd ←
    if paramLen = 1 then .ok 0x41
    else if paramLen = 2 then .ok 0x42
    else if paramLen = 4 then .ok 0x43
    else .error .assertion
  let job ← rsSquirtByte cmd job
  rsSquirtNetint len paramLen job

/-- `rs_emit_copy_cmd`. -/
def rsEmitCopyCmd (position len : ℕ) (job : Job σ) : Except Abort (Job σ) := do
  let whereBytes := rsIntLen position
  let lenBytes := rsIntLen len
  let base ←
    if whereBytes = 8 then .ok 0x51
    else if whereBytes = 4 then .ok 0x4d
    else if whereBytes = 2 then .ok 0x49
    else if whereBytes = 1 then .ok 0x45
    else .error .assertion
  let cmd ←
    if lenBytes = 1 then .ok base
    else if lenBytes = 2 then .ok (base + 1)
    else if lenBytes = 4 then .ok (base + 2)
    else if lenBytes = 8 then .ok (base + 3)
    else .error .assertion
  let job ← rsSquirtByte cmd job
  let job ← rsSquirtNetint position whereBytes job
  rsSquirtNetint len lenBytes job

/-- `rs_emit_end_cmd`. -/
def rsEmitEndCmd (job : Job σ) : Except Abort (Job σ) := rsSquirtByte 0 job

/-! ## The delta job -/

inductive DeltaState where
  | header | scan | flush | finish
deriving DecidableEq, Repr

/-- The fields of a delta job, with the position of `old_file` and the number of searches so far. -/
structure DeltaJob where
  statefn : DeltaState
  weakSum : Rollsum
  scoopPos : ℕ
  basisPos : ℕ
  basisLen : ℕ
  oldPos : ℕ
  searches : ℕ

/-- `rs_delta_begin`; the signature job has read `old_file` to its end. -/
def rsDeltaBegin (oldFile : Bytes) : DeltaJob := ⟨.header, rollsumInit, 0, 0, 0, oldFile.length, 0⟩

/-- `rs_getinput`. -/
def rsGetinput (job : Job σ) : Except Abort (Job σ) :=
  let len := rsScoopTotalAvail job
  if job.scoop.length < len then rsScoopInput len job else .ok job

/-- `rs_processmatch`. -/
def rsProcessmatch (job : Job DeltaJob) : Result × Job DeltaJob :=
  rsTubeCatchup { job with
    scoop := job.scoop.drop job.own.scoopPos
    own := { job.own with scoopPos := 0 } }

/-- `rs_processmiss`. -/
def rsProcessmiss (job : Job DeltaJob) : Except Abort (Result × Job DeltaJob) := do
  let job ← rsTubeCopy job.own.scoopPos job
  return rsTubeCatchup { job with own := { job.own with scoopPos := 0 } }

/-- `rs_appendflush`. -/
def rsAppendflush (job : Job DeltaJob) : Except Abort (Result × Job DeltaJob) :=
  if job.own.basisLen ≠ 0 then do
    let job ← rsEmitCopyCmd job.own.basisPos job.own.basisLen job
    return rsProcessmatch { job with own := { job.own with basisLen := 0 } }
  else if job.own.scoopPos ≠ 0 then do
    let job ← rsEmitLiteralCmd job.own.scoopPos job
    rsProcessmiss job
  else .ok (.done, job)

/-- `rs_appendmatch`. -/
def rsAppendmatch (matchPos matchLen : ℕ) (job : Job DeltaJob) : Except Abort (Result × Job DeltaJob) := do
  let (result, job) ←
    if job.own.basisLen ≠ 0 ∧ job.own.basisPos + job.own.basisLen = matchPos then
      .ok (.done, { job with own := { job.own with basisLen := job.own.basisLen + matchLen } })
    else do
      let (result, job) ← rsAppendflush job
      pure (result, { job with own := { job.own with basisPos := matchPos, basisLen := matchLen } })
  let job := { job with own := { job.own with scoopPos := job.own.scoopPos + matchLen } }
  if result = .done then return rsProcessmatch job else return (result, job)

/-- `rs_appendmiss`. -/
def rsAppendmiss (missLen : ℕ) (job : Job DeltaJob) : Except Abort (Result × Job DeltaJob) := do
  let (result, job) ←
    if job.own.basisLen ≠ 0 ∨ bufLen ≤ job.own.scoopPos then rsAppendflush job else .ok (.done, job)
  return (result, { job with own := { job.own with scoopPos := job.own.scoopPos + missLen } })

section Delta

variable (env : DeltaEnv)

/-- `rs_findmatch`: `match_pos`, if there is a match, and `match_len`. -/
def rsFindmatch (job : Job DeltaJob) : Option ℕ × ℕ × Job DeltaJob :=
  let (matchLen, weakSum) :=
    if job.own.weakSum.count = 0 then
      let len := min (job.scoop.length - job.own.scoopPos) env.sig.blockLen
      (len, rollsumUpdate job.own.weakSum ((job.scoop.drop job.own.scoopPos).take len))
    else (job.own.weakSum.count, job.own.weakSum)
  let inbuf := (job.scoop.drop job.own.scoopPos).take matchLen
  let (found, oldPos) := rsSearchForBlock env job.own.searches (rollsumDigest weakSum) inbuf job.own.oldPos
  let own := { job.own with weakSum := weakSum, oldPos := oldPos, searches := job.own.searches + 1 }
  (found, matchLen, { job with own := own })

/-- A match in the loops of `rs_delta_s_scan` and `rs_delta_s_flush`. -/
def rsMatchRound (matchPos matchLen : ℕ) (job : Job DeltaJob) :
    Except Abort (Round (Result × Job DeltaJob) (Result × Job DeltaJob)) := do
  let (result, job) ← rsAppendmatch matchPos matchLen job
  return .again (result, { job with own := { job.own with weakSum := rollsumInit } })

/-- A miss in these loops, with the new sum. -/
def rsMissRound (weakSum : Rollsum) (job : Job DeltaJob) :
    Except Abort (Round (Result × Job DeltaJob) (Result × Job DeltaJob)) := do
  let (result, job) ← rsAppendmiss 1 { job with own := { job.own with weakSum := weakSum } }
  return .again (result, job)

/-- One round of the loop of `rs_delta_s_scan`. -/
def rsScanRound (state : Result × Job DeltaJob) :
    Except Abort (Round (Result × Job DeltaJob) (Result × Job DeltaJob)) :=
  let (result, job) := state
  if result = .done ∧ job.own.scoopPos + env.sig.blockLen < job.scoop.length then
    let (found, matchLen, job) := rsFindmatch env job
    match found with
    | some matchPos => rsMatchRound matchPos matchLen job
    | none =>
      rsMissRound (rollsumRotate job.own.weakSum (job.scoop.getD job.own.scoopPos 0)
        (job.scoop.getD (job.own.scoopPos + env.sig.blockLen) 0)) job
  else .ok (.stop state)

/-- One round of the loop of `rs_delta_s_flush`. -/
def rsFlushRound (state : Result × Job DeltaJob) :
    Except Abort (Round (Result × Job DeltaJob) (Result × Job DeltaJob)) :=
  let (result, job) := state
  if result = .done ∧ job.own.scoopPos < job.scoop.length then
    let (found, matchLen, job) := rsFindmatch env job
    match found with
    | some matchPos => rsMatchRound matchPos matchLen job
    | none => rsMissRound (rollsumRollout job.own.weakSum (job.scoop.getD job.own.scoopPos 0)) job
  else .ok (.stop state)

/-- `rs_delta_s_header`; the block length of a loaded signature is not zero. -/
def rsDeltaSHeader (job : Job DeltaJob) : Except Abort (Result × Job DeltaJob) := do
  let job ← rsEmitDeltaHeader job
  return (.running, { job with own := { job.own with statefn := .scan } })

/-- `rs_delta_s_scan`: every round scans at least one octet of the scoop. -/
def rsDeltaSScan (job : Job DeltaJob) : Except Abort (Result × Job DeltaJob) := do
  let job ← rsGetinput job
  let (result, job) ← Round.loop .outOfFuel (rsScanRound env) (job.scoop.length + 1) (rsTubeCatchup job)
  if result = .done then
    if job.eofIn then return (.running, { job with own := { job.own with statefn := .flush } })
    else return (.blocked, job)
  else return (result, job)

/-- `rs_delta_s_flush`. -/
def rsDeltaSFlush (job : Job DeltaJob) : Except Abort (Result × Job DeltaJob) := do
  let job ← rsGetinput job
  let (result, job) ← Round.loop .outOfFuel (rsFlushRound env) (job.scoop.length + 1) (rsTubeCatchup job)
  if result = .done then
    let (result, job) ← rsAppendflush job
    let job := { job with own := { job.own with statefn := .finish } }
    if result = .done then return (.running, job) else return (result, job)
  else return (result, job)

/-- `rs_delta_s_end`. -/
def rsDeltaSEnd (job : Job DeltaJob) : Except Abort (Result × Job DeltaJob) := do
  let job ← rsEmitEndCmd job
  return (.done, job)

def rsDeltaStatefn (job : Job DeltaJob) : Except Abort (Result × Job DeltaJob) :=
  match job.own.statefn with
  | .header => rsDeltaSHeader job
  | .scan => rsDeltaSScan env job
  | .flush => rsDeltaSFlush env job
  | .finish => rsDeltaSEnd job

/-- `rs_delta_file`: the delta file. -/
def rsDeltaFile (fuel : ℕ) (newFile : Bytes) : Except Abort (Result × Bytes) := do
  let (result, _, delta) ← rsWholeRun (rsDeltaStatefn env) fuel true (rsDeltaBegin env.oldFile) newFile
  return (result, delta)

end Delta

end DeltaCFS
