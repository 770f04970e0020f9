import DeltaCFS.Model.Librsync.Delta

/-! # Patches

`patch.c` interprets a delta, with the command table of `prototab.c` and the copy callback of
`buf.c`; `deltaPipeline` is the part of `compute_delta` that works on the content of its files.
-/

namespace DeltaCFS

open Bytes

/-- `rs_op_kind`, with the kinds of the table. -/
inductive OpKind where
  | ending | literal | copy | reserved
deriving DecidableEq, Repr

/-- `rs_prototab_ent_t`. -/
structure PrototabEnt where
  kind : OpKind
  immediate : ℕ
  len1 : ℕ
  len2 : ℕ
deriving DecidableEq, Repr

/-- `rs_prototab`: `RS_OP_END`, `RS_OP_LITERAL_1 … 64`, `RS_OP_LITERAL_N1 … N8`,
`RS_OP_COPY_N1_N1 … N8_N8` and the reserved commands. -/
def rsPrototab (op : ℕ) : PrototabEnt :=
  if op = 0 then ⟨.ending, 0, 0, 0⟩
  else if op ≤ 0x40 then ⟨.literal, op, 0, 0⟩
  else if op ≤ 0x44 then ⟨.literal, 0, 2 ^ (op - 0x41), 0⟩
  else if op ≤ 0x54 then ⟨.copy, 0, 2 ^ ((op - 0x45) / 4), 2 ^ ((op - 0x45) % 4)⟩
  else ⟨.reserved, op, 0, 0⟩

inductive PatchState where
  | header | cmdbyte | params | run | literal | copy | copying
deriving DecidableEq, Repr

/-- The fields of a patch job; parameters are `rs_long_t` in two's complement. -/
structure PatchJob where
  statefn : PatchState
  op : ℕ
  param1 : ℕ
  param2 : ℕ
  basisPos : ℕ
  basisLen : ℕ

/-- `rs_patch_begin`. -/
def rsPatchBegin : PatchJob := ⟨.header, 0, 0, 0, 0, 0⟩

/-- `rs_file_copy_cb`. -/
def rsFileCopyCb (basis : Bytes) (pos len : ℕ) : Result × Bytes :=
  let got := pread basis pos len
  if got = [] then (.inputEnded, []) else (.done, got)

/-- `rs_patch_s_header`. -/
def rsPatchSHeader (job : Job PatchJob) : Except Abort (Result × Job PatchJob) := do
  let (result, v, job) ← rsSuckNetint 4 job
  if result ≠ .done then return (result, job)
  else if v ≠ deltaMagic then return (.badMagic, job)
  else return (.running, { job with own := { job.own with statefn := .cmdbyte } })

/-- `rs_patch_s_cmdbyte`. -/
def rsPatchSCmdbyte (job : Job PatchJob) : Except Abort (Result × Job PatchJob) := do
  let (result, op, job) ← rsSuckNetint 1 job
  if result ≠ .done then return (result, job)
  else if (rsPrototab op).len1 ≠ 0 then
    return (.running, { job with own := { job.own with op := op, statefn := .params } })
  else
    let own := { job.own with op := op, param1 := (rsPrototab op).immediate, statefn := .run }
    return (.running, { job with own := own })

/-- `rs_patch_s_params`. -/
def rsPatchSParams (job : Job PatchJob) : Except Abort (Result × Job PatchJob) := do
  let cmd := rsPrototab job.own.op
  if cmd.len1 + cmd.len2 = 0 then throw .assertion
  let (result, _, job) ← rsScoopReadahead (cmd.len1 + cmd.len2) job
  if result ≠ .done then return (result, job)
  let (result, param1, job) ← rsSuckNetint cmd.len1 job
  if result ≠ .done then throw .assertion
  let job := { job with own := { job.own with param1 := param1 } }
  if cmd.len2 ≠ 0 then
    let (result, param2, job) ← rsSuckNetint cmd.len2 job
    if result ≠ .done then throw .assertion
    return (.running, { job with own := { job.own with param2 := param2, statefn := .run } })
  else return (.running, { job with own := { job.own with statefn := .run } })

/-- `rs_patch_s_run`. -/
def rsPatchSRun (job : Job PatchJob) : Except Abort (Result × Job PatchJob) :=
  match (rsPrototab job.own.op).kind with
  | .literal => .ok (.running, { job with own := { job.own with statefn := .literal } })
  | .ending => .ok (.done, job)
  | .copy => .ok (.running, { job with own := { job.own with statefn := .copy } })
  | .reserved => .ok (.corrupt, job)

/-- `rs_patch_s_literal`. -/
def rsPatchSLiteral (job : Job PatchJob) : Except Abort (Result × Job PatchJob) := do
  let len := job.own.param1
  if 2 ^ 63 ≤ len then return (.corrupt, job)
  else
    let job ← rsTubeCopy len job
    return (.running, { job with own := { job.own with statefn := .cmdbyte } })

/-- `rs_patch_s_copy`. -/
def rsPatchSCopy (job : Job PatchJob) : Except Abort (Result × Job PatchJob) :=
  let position := job.own.param1
  let len := job.own.param2
  if 2 ^ 63 ≤ len then .ok (.corrupt, job)
  else if 2 ^ 63 ≤ position then .ok (.corrupt, job)
  else .ok (.running, { job with own := { job.own with basisPos := position, basisLen := len, statefn := .copying } })

/-- `rs_patch_s_copying`. -/
def rsPatchSCopying (basis : Bytes) (job : Job PatchJob) : Except Abort (Result × Job PatchJob) :=
  let len := min job.own.basisLen job.availOut
  if len = 0 then .ok (.blocked, job)
  else
    let (result, octets) := rsFileCopyCb basis job.own.basisPos len
    if result ≠ .done then .ok (result, job)
    else
      let own := { job.own with
        basisPos := job.own.basisPos + octets.length, basisLen := job.own.basisLen - octets.length }
      let own := if own.basisLen = 0 then { own with statefn := .cmdbyte } else own
      .ok (.running, { job with
        written := job.written ++ octets, availOut := job.availOut - octets.length, own := own })

def rsPatchStatefn (basis : Bytes) (job : Job PatchJob) : Except Abort (Result × Job PatchJob) :=
  match job.own.statefn with
  | .header => rsPatchSHeader job
  | .cmdbyte => rsPatchSCmdbyte job
  | .params => rsPatchSParams job
  | .run => rsPatchSRun job
  | .literal => rsPatchSLiteral job
  | .copy => rsPatchSCopy job
  | .copying => rsPatchSCopying basis job

/-- `rs_patch_file`: the new file. -/
def rsPatchFile (fuel : ℕ) (basis delta : Bytes) : Except Abort (Result × Bytes) := do
  let (result, _, new) ← rsWholeRun (rsPatchStatefn basis) fuel true rsPatchBegin delta
  return (result, new)

/-- The signature, load, table and delta calls of `compute_delta` on the content of its files, with
`none` for its return value 1. The two stacks are what the uninitialised buffers of
`rs_sig_do_block` and `rs_search_for_block` hold. -/
def deltaPipeline (qsort : Qsort) (sigStack searchStack : Stack) (fuel : ℕ) (old new : Bytes) : Except Abort (Option Bytes) := do
  let (result, sigfile) ← rsSigFile sigStack fuel old defaultBlockLen defaultStrongLen
  if result ≠ .done then return none
  let (result, sumset) ← rsLoadsigFile fuel sigfile
  if result ≠ .done then return none
  let (result, delta) ← rsDeltaFile (rsBuildHashTable qsort sumset old searchStack) fuel new
  if result ≠ .done then return none
  return some delta

/-- Fuel for the signature, load and delta jobs. -/
def pipelineFuel (old new : Bytes) : ℕ := 36 * old.length + 27 * new.length + 40

end DeltaCFS
