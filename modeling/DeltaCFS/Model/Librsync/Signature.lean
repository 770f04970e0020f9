import DeltaCFS.Model.Librsync.Job
import DeltaCFS.Model.Librsync.Checksum

/-! # Signatures

`mksum.c` writes the signature of the old file and `readsums.c` loads it. The strong sums are never
computed: what is written in their place is whatever the uninitialised `strong_sum` holds, here
`stack`, by block and octet.
-/

namespace DeltaCFS

open Bytes

/-- `RS_SIG_MAGIC`. -/
def sigMagic : ℕ := 0x72730136

/-- `RS_MD4_LENGTH`. -/
def md4Length : ℕ := 16

/-- `RS_DEFAULT_BLOCK_LEN`. -/
def defaultBlockLen : ℕ := 2048

/-- `RS_DEFAULT_STRONG_LEN`. -/
def defaultStrongLen : ℕ := 8

/-- Uninitialised memory, by use and octet. -/
abbrev Stack := ℕ → ℕ → UInt8

def Stack.octets (stack : Stack) (use len : ℕ) : Bytes := (List.range len).map (stack use)

/-! ## Writing -/

inductive SigState where
  | header | generate
deriving DecidableEq, Repr

structure SigJob where
  statefn : SigState
  blockLen : ℕ
  strongSumLen : ℕ
  sigBlocks : ℕ

/-- `rs_sig_begin`. -/
def rsSigBegin (blockLen strongSumLen : ℕ) : SigJob := ⟨.header, blockLen, strongSumLen, 0⟩

/-- `rs_sig_s_header`. -/
def rsSigSHeader (job : Job SigJob) : Except Abort (Result × Job SigJob) := do
  let job ← rsSquirtN4 sigMagic job
  let job ← rsSquirtN4 job.own.blockLen job
  let job ← rsSquirtN4 job.own.strongSumLen job
  return (.running, { job with own := { job.own with statefn := .generate } })

/-- `rs_sig_do_block`. -/
def rsSigDoBlock (stack : Stack) (block : Bytes) (job : Job SigJob) : Except Abort (Result × Job SigJob) := do
  let job ← rsSquirtN4 (rsCalcWeakSum block).toNat job
  let job ← rsTubeWrite (stack.octets job.own.sigBlocks job.own.strongSumLen) job
  return (.running, { job with own := { job.own with sigBlocks := job.own.sigBlocks + 1 } })

/-- `rs_sig_s_generate`: the result of `rs_scoop_read_rest` is not looked at. -/
def rsSigSGenerate (stack : Stack) (job : Job SigJob) : Except Abort (Result × Job SigJob) := do
  let (result, block, job) ← rsScoopRead job.own.blockLen job
  if result = .blocked ∧ job.eofIn then
    let (_, block, job) ← rsScoopReadRest job
    rsSigDoBlock stack block job
  else if result = .inputEnded then return (.done, job)
  else if result ≠ .done then return (result, job)
  else rsSigDoBlock stack block job

def rsSigStatefn (stack : Stack) (job : Job SigJob) : Except Abort (Result × Job SigJob) :=
  match job.own.statefn with
  | .header => rsSigSHeader job
  | .generate => rsSigSGenerate stack job

/-- `rs_sig_file`: the signature file. -/
def rsSigFile (stack : Stack) (fuel : ℕ) (old : Bytes) (blockLen strongLen : ℕ) :
    Except Abort (Result × Bytes) := do
  let (result, _, sig) ← rsWholeRun (rsSigStatefn stack) fuel true (rsSigBegin blockLen strongLen) old
  return (result, sig)

/-! ## Loading -/

/-- `rs_block_sig_t`; `i` is an `int`. -/
structure BlockSig where
  i : ℕ
  weakSum : UInt32
  strongSum : Bytes
deriving DecidableEq, Repr, Inhabited

/-- `rs_signature_t` as `rs_loadsig_file` leaves it; `count` is the number of block sums. -/
structure Signature where
  blockLen : ℕ
  strongSumLen : ℕ
  blockSigs : List BlockSig
deriving DecidableEq, Repr

inductive LoadsigState where
  | magic | blocklen | stronglen | weak | strong
deriving DecidableEq, Repr

structure LoadsigJob where
  statefn : LoadsigState
  blockLen : ℕ
  strongSumLen : ℕ
  weakSig : UInt32
  blockSigs : List BlockSig

/-- `rs_loadsig_begin`. -/
def rsLoadsigBegin : LoadsigJob := ⟨.magic, 0, 0, 0, []⟩

/-- `rs_loadsig_s_magic`. -/
def rsLoadsigSMagic (job : Job LoadsigJob) : Except Abort (Result × Job LoadsigJob) := do
  let (result, l, job) ← rsSuckNetint 4 job
  if result ≠ .done then return (result, job)
  else if l ≠ sigMagic then return (.badMagic, job)
  else return (.running, { job with own := { job.own with statefn := .blocklen } })

/-- `rs_loadsig_s_blocklen`: the four octets are an `int`. -/
def rsLoadsigSBlocklen (job : Job LoadsigJob) : Except Abort (Result × Job LoadsigJob) := do
  let (result, l, job) ← rsSuckNetint 4 job
  if result ≠ .done then return (result, job)
  else if l = 0 ∨ 2 ^ 31 ≤ l then return (.corrupt, job)
  else return (.running, { job with own := { job.own with blockLen := l, statefn := .stronglen } })

/-- `rs_loadsig_s_stronglen`. -/
def rsLoadsigSStronglen (job : Job LoadsigJob) : Except Abort (Result × Job LoadsigJob) := do
  let (result, l, job) ← rsSuckNetint 4 job
  if result ≠ .done then return (result, job)
  else if md4Length < l then return (.corrupt, job)
  else return (.running, { job with own := { job.own with strongSumLen := l, statefn := .weak } })

/-- `rs_loadsig_s_weak`. -/
def rsLoadsigSWeak (job : Job LoadsigJob) : Except Abort (Result × Job LoadsigJob) := do
  let (result, l, job) ← rsSuckNetint 4 job
  if result = .inputEnded then return (.done, job)
  else if result ≠ .done then return (result, job)
  else return (.running, { job with own := { job.own with weakSig := UInt32.ofNat l, statefn := .strong } })

/-- `rs_loadsig_s_strong` with `rs_loadsig_add_sum`: `count` is an `int`, and `realloc` does not have the
size that comes of a negative one. -/
def rsLoadsigSStrong (job : Job LoadsigJob) : Except Abort (Result × Job LoadsigJob) := do
  let (result, strong, job) ← rsScoopRead job.own.strongSumLen job
  if result ≠ .done then return (result, job)
  else if 2 ^ 31 ≤ job.own.blockSigs.length + 1 then return (.memError, job)
  else
    let count := job.own.blockSigs.length + 1
    let blockSigs := job.own.blockSigs ++ [⟨count, job.own.weakSig, strong⟩]
    return (.running, { job with own := { job.own with blockSigs := blockSigs, statefn := .weak } })

def rsLoadsigStatefn (job : Job LoadsigJob) : Except Abort (Result × Job LoadsigJob) :=
  match job.own.statefn with
  | .magic => rsLoadsigSMagic job
  | .blocklen => rsLoadsigSBlocklen job
  | .stronglen => rsLoadsigSStronglen job
  | .weak => rsLoadsigSWeak job
  | .strong => rsLoadsigSStrong job

/-- `rs_loadsig_file`. -/
def rsLoadsigFile (fuel : ℕ) (sig : Bytes) : Except Abort (Result × Signature) := do
  let (result, job, _) ← rsWholeRun rsLoadsigStatefn fuel false rsLoadsigBegin sig
  return (result, ⟨job.own.blockLen, job.own.strongSumLen, job.own.blockSigs⟩)

end DeltaCFS
