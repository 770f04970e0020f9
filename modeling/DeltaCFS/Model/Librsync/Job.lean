import DeltaCFS.ToMathlib.Bytes
import DeltaCFS.ToMathlib.Loop

/-! # Jobs of librsync

The streaming machinery shared by the four jobs: the scoop in front of the input (`scoop.c`), the
tube in front of the output (`tube.c`, `stream.c`), network integers (`netint.c`), the job loop
(`job.c`) and the file buffers that drive it (`buf.c`, `whole.c`). A pointer into a buffer and the
length behind it are the octets they delimit. Statistics, traces and allocation sizes are left out.
-/

namespace DeltaCFS

open Bytes

/-- `rs_result`, with the results the jobs return. -/
inductive Result where
  | done | blocked | running | inputEnded | badMagic | corrupt | internalError | memError
deriving DecidableEq, Repr

/-- A failed `assert` or `rs_fatal`; the loops of the model also stop when they run out of fuel. -/
inductive Abort where
  | assertion | outOfFuel
deriving DecidableEq, Repr

/-- `rs_inbuflen` and `rs_outbuflen`. -/
def bufLen : ℕ := 16000

/-- The size of `write_buf`. -/
def tubeSize : ℕ := 20

/-- `rs_job_t` with its `rs_buffers_t`. `written` holds the octets between the start of the output
buffer and `next_out`, `attached` tells `next_out` from `NULL`, `complete` is
`statefn == rs_job_s_complete`, and `own` holds the state function and the fields of one kind of
job. -/
structure Job (σ : Type) where
  nextIn : Bytes
  eofIn : Bool
  written : Bytes
  availOut : ℕ
  attached : Bool
  scoop : Bytes
  writeBuf : Bytes
  copyLen : ℕ
  complete : Bool
  own : σ

variable {σ : Type}

/-- `rs_job_new` and `rs_bzero(buf)`. -/
def Job.new (own : σ) : Job σ := ⟨[], false, [], 0, false, [], [], 0, false, own⟩

/-! ## Scoop -/

/-- `rs_scoop_input`: take input to get up to `len` octets in the scoop. -/
def rsScoopInput (len : ℕ) (job : Job σ) : Except Abort (Job σ) :=
  if job.scoop.length < len then
    let tocopy := min (len - job.scoop.length) job.nextIn.length
    .ok { job with scoop := job.scoop ++ job.nextIn.take tocopy, nextIn := job.nextIn.drop tocopy }
  else .error .assertion

/-- `rs_scoop_advance`. -/
def rsScoopAdvance (len : ℕ) (job : Job σ) : Except Abort (Job σ) :=
  if job.scoop ≠ [] then
    if len ≤ job.scoop.length then .ok { job with scoop := job.scoop.drop len } else .error .assertion
  else
    if len ≤ job.nextIn.length then .ok { job with nextIn := job.nextIn.drop len } else .error .assertion

/-- `rs_scoop_readahead`: the octets are meaningful for the result `done`. -/
def rsScoopReadahead (len : ℕ) (job : Job σ) : Except Abort (Result × Bytes × Job σ) :=
  if len ≤ job.scoop.length then .ok (.done, job.scoop.take len, job)
  else if job.scoop ≠ [] then do
    let job ← rsScoopInput len job
    if job.scoop.length < len then return (.blocked, [], job)
    else return (.done, job.scoop.take len, job)
  else if len ≤ job.nextIn.length then .ok (.done, job.nextIn.take len, job)
  else if job.nextIn ≠ [] then do
    let job ← rsScoopInput len job
    return (.blocked, [], job)
  else if job.eofIn then .ok (.inputEnded, [], job)
  else .ok (.blocked, [], job)

/-- `rs_scoop_read`. -/
def rsScoopRead (len : ℕ) (job : Job σ) : Except Abort (Result × Bytes × Job σ) := do
  let (result, octets, job) ← rsScoopReadahead len job
  if result = .done then
    let job ← rsScoopAdvance len job
    return (.done, octets, job)
  else return (result, [], job)

/-- `rs_scoop_total_avail`. -/
def rsScoopTotalAvail (job : Job σ) : ℕ := job.scoop.length + job.nextIn.length

/-- `rs_scoop_read_rest`. -/
def rsScoopReadRest (job : Job σ) : Except Abort (Result × Bytes × Job σ) :=
  rsScoopRead (rsScoopTotalAvail job) job

/-! ## Tube -/

/-- `rs_tube_catchup_write`. -/
def rsTubeCatchupWrite (job : Job σ) : Job σ :=
  let len := min job.writeBuf.length job.availOut
  { job with
    written := job.written ++ job.writeBuf.take len
    availOut := job.availOut - len
    writeBuf := job.writeBuf.drop len }

/-- `rs_tube_copy_from_scoop`. -/
def rsTubeCopyFromScoop (job : Job σ) : Job σ :=
  let len := min (min job.copyLen job.scoop.length) job.availOut
  { job with
    written := job.written ++ job.scoop.take len
    availOut := job.availOut - len
    scoop := job.scoop.drop len
    copyLen := job.copyLen - len }

/-- `rs_buffers_copy(stream, job->copy_len)` and the update of `copy_len`. -/
def rsBuffersCopy (job : Job σ) : Job σ :=
  let len := min (min job.copyLen job.nextIn.length) job.availOut
  { job with
    written := job.written ++ job.nextIn.take len
    availOut := job.availOut - len
    nextIn := job.nextIn.drop len
    copyLen := job.copyLen - len }

/-- `rs_tube_catchup_copy`. -/
def rsTubeCatchupCopy (job : Job σ) : Job σ :=
  let job := if job.scoop ≠ [] then rsTubeCopyFromScoop job else job
  if job.copyLen ≠ 0 then rsBuffersCopy job else job

/-- `rs_tube_catchup`. -/
def rsTubeCatchup (job : Job σ) : Result × Job σ :=
  let job := if job.writeBuf ≠ [] then rsTubeCatchupWrite job else job
  if job.writeBuf ≠ [] then (.blocked, job)
  else
    let job := if job.copyLen ≠ 0 then rsTubeCatchupCopy job else job
    if job.copyLen ≠ 0 then
      if job.eofIn && job.nextIn.isEmpty && job.scoop.isEmpty then (.inputEnded, job)
      else (.blocked, job)
    else (.done, job)

/-- `rs_tube_is_idle`. -/
def rsTubeIsIdle (job : Job σ) : Bool := job.writeBuf.isEmpty && job.copyLen == 0

/-- `rs_tube_copy`: the length is an `int`. A negative one is kept, and fails the
`assert(job->copy_len > 0)` of the `rs_tube_catchup` that comes next. -/
def rsTubeCopy (len : ℕ) (job : Job σ) : Except Abort (Job σ) :=
  let len := len % 2 ^ 32
  if job.copyLen = 0 ∧ len < 2 ^ 31 then .ok { job with copyLen := len } else .error .assertion

/-- `rs_tube_write`. -/
def rsTubeWrite (buf : Bytes) (job : Job σ) : Except Abort (Job σ) :=
  if job.copyLen = 0 ∧ job.writeBuf.length + buf.length ≤ tubeSize then
    .ok { job with writeBuf := job.writeBuf ++ buf }
  else .error .assertion

/-! ## Network integers -/

/-- The `len` low-order octets of `d`, most significant first. -/
def netint (len d : ℕ) : Bytes := (ofNatLE len d).reverse

/-- The number a big-endian string denotes. -/
def ofNetint (octets : Bytes) : ℕ := toNatLE octets.reverse

/-- `rs_squirt_netint`. -/
def rsSquirtNetint (d len : ℕ) (job : Job σ) : Except Abort (Job σ) := rsTubeWrite (netint len d) job

/-- `rs_squirt_byte`. -/
def rsSquirtByte (byte : UInt8) (job : Job σ) : Except Abort (Job σ) := rsTubeWrite [byte] job

/-- `rs_squirt_n4`. -/
def rsSquirtN4 (val : ℕ) (job : Job σ) : Except Abort (Job σ) := rsSquirtNetint val 4 job

/-- `rs_suck_netint`; with one octet also `rs_suck_byte`, with four `rs_suck_n4`. -/
def rsSuckNetint (len : ℕ) (job : Job σ) : Except Abort (Result × ℕ × Job σ) := do
  let (result, octets, job) ← rsScoopRead len job
  return (result, ofNetint octets, job)

/-- `rs_int_len` of a non-negative `rs_long_t`. -/
def rsIntLen (val : ℕ) : ℕ :=
  if val < 2 ^ 8 then 1 else if val < 2 ^ 16 then 2 else if val < 2 ^ 32 then 4 else 8

/-! ## The job loop -/

/-- `rs_job_complete`. -/
def rsJobComplete (result : Result) (job : Job σ) : Result × Job σ :=
  let job := { job with complete := true }
  if result = .done ∧ ¬ rsTubeIsIdle job then (.blocked, job) else (result, job)

section Run

variable (statefn : Job σ → Except Abort (Result × Job σ))

/-- One round of the loop of `rs_job_work`. -/
def rsJobRound (job : Job σ) : Except Abort (Round (Job σ) (Result × Job σ)) :=
  let (result, job) := rsTubeCatchup job
  if result = .blocked then .ok (.stop (.blocked, job))
  else if result ≠ .done then .ok (.stop (rsJobComplete result job))
  else if job.complete then .ok (.stop (if rsTubeIsIdle job then .done else .blocked, job))
  else do
    let (result, job) ← statefn job
    if result = .running then return .again job
    else if result = .blocked then return .stop (.blocked, job)
    else return .stop (rsJobComplete result job)

/-- `rs_job_work`. -/
def rsJobWork (fuel : ℕ) (job : Job σ) : Except Abort (Result × Job σ) :=
  Round.loop .outOfFuel (rsJobRound statefn) fuel job

/-- `rs_job_iter`. -/
def rsJobIter (fuel : ℕ) (job : Job σ) : Except Abort (Result × Job σ) := do
  let origIn := job.nextIn.length
  let origOut := job.availOut
  let (result, job) ← rsJobWork statefn fuel job
  if (result = .blocked ∨ result = .done) ∧ origIn = job.nextIn.length ∧ origOut = job.availOut ∧
      origIn ≠ 0 ∧ origOut ≠ 0 then
    return (.internalError, job)
  else return (result, job)

/-! ## Files -/

/-- A file open for reading: the octets behind its position and its end-of-file indicator. -/
structure InFile where
  rest : Bytes
  feof : Bool

/-- `rs_infilebuf_fill`. -/
def rsInfilebufFill (job : Job σ) (file : InFile) : Job σ × InFile :=
  if job.eofIn || file.feof then ({ job with eofIn := true }, file)
  else if job.nextIn ≠ [] then (job, file)
  else
    -- a short count sets the end-of-file indicator
    let read : InFile := ⟨file.rest.drop bufLen, decide (file.rest.length < bufLen)⟩
    if file.rest = [] then ({ job with eofIn := true }, read)
    else ({ job with nextIn := file.rest.take bufLen }, read)

/-- `rs_outfilebuf_drain`: also what is now in the output file. -/
def rsOutfilebufDrain (job : Job σ) (out : Bytes) : Job σ × Bytes :=
  if job.attached then
    if job.written ≠ [] then ({ job with written := [], availOut := bufLen }, out ++ job.written)
    else (job, out)
  else ({ job with attached := true, availOut := bufLen }, out)

/-- One round of the loop of `rs_job_drive`. `hasOut` tells whether there is an output file. -/
def rsDriveRound (fuel : ℕ) (hasOut : Bool) (state : Job σ × InFile × Bytes) :
    Except Abort (Round (Job σ × InFile × Bytes) (Result × Job σ × Bytes)) := do
  let (job, file, out) := state
  let (job, file) := if job.eofIn then (job, file) else rsInfilebufFill job file
  let (result, job) ← rsJobIter statefn fuel job
  if result ≠ .done ∧ result ≠ .blocked then return .stop (result, job, out)
  let (job, out) := if hasOut then rsOutfilebufDrain job out else (job, out)
  if result = .done then return .stop (.done, job, out)
  return .again (job, file, out)

/-- `rs_whole_run` on the octets of an input file: result, job and output file. -/
def rsWholeRun (fuel : ℕ) (hasOut : Bool) (own : σ) (input : Bytes) : Except Abort (Result × Job σ × Bytes) :=
  Round.loop .outOfFuel (rsDriveRound statefn fuel hasOut) fuel (Job.new own, ⟨input, false⟩, [])

end Run

end DeltaCFS
