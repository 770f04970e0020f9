import DeltaCFS.Model.SyncSend

/-! # The server's message handlers

The gearman workers of `server/deltacfs_server_gearman.cpp` over the flat directory of version
files. Each handler first reads its workload at hard-wired offsets and then acts on the directory.
A read past the workload or a name that does not fit its buffer has no defined outcome in C; it ends
the handler with a fault, as a failed `assert`, `exit(-1)` and a `rs_patch_file` that never returns do.
-/

namespace DeltaCFS

open Bytes

/-- How a handler ends without returning to its worker loop. -/
inductive Fault where
  | assertion | exit | overread | overflow | hangs
deriving DecidableEq, Repr

/-- `SERVERDIR`: file names and their contents. -/
abbrev Dir := Bytes → Option Bytes

def Dir.set (dir : Dir) (name : Bytes) (content : Bytes) : Dir :=
  fun other => if other = name then some content else dir other

/-- `rename(2)` of an existing file; renaming a file to itself changes nothing. -/
def Dir.move (dir : Dir) (source target content : Bytes) : Dir :=
  if source = target then dir
  else fun other => if other = target then some content else if other = source then none else dir other

/-- What a handler leaves behind: the directory and what it stored through `ret_ptr`
(`none` when it returned without storing anything). -/
structure Reply where
  dir : Dir
  success : Option Bool

/-- `MAXNAMELEN`. -/
def maxNameLen : ℕ := 256

def hexDigit (value : ℕ) : UInt8 := UInt8.ofNat (if value < 10 then 48 + value else 87 + value)

/-- `ver_to_name`: `sprintf(version_str, "%016lx", version)`. -/
def verToName (version : UInt64) : Bytes :=
  (List.range 16).map fun i => hexDigit (version.toNat / 16 ^ (15 - i) % 16)

/-- A load that must stay inside the workload. -/
def inside {α : Type} : Option α → Except Fault α
  | some value => .ok value
  | none => .error .overread

/-- `ver_to_name(workload + offset, name)`. -/
def readVersion (workload : Bytes) (offset : ℕ) : Except Fault Bytes := do
  let version ← inside (readLE? 8 workload offset)
  return verToName (UInt64.ofNat version)

/-- The two-octet length at `offset` and the name after it, copied into a buffer of `MAXNAMELEN`
octets; also the offset behind the name. -/
def readName (workload : Bytes) (offset : ℕ) : Except Fault (Bytes × ℕ) := do
  let nameLen ← inside (readLE? 2 workload offset)
  let name ← inside (slice? workload (offset + 2) nameLen)
  if maxNameLen < nameLen then throw .overflow
  return (name.takeWhile (· ≠ 0), offset + 2 + nameLen)

/-- The fields of a request, and the offset of the first octet the handler does not look at. -/
structure TruncateRequest where
  oldver : Bytes
  newver : Bytes
  name : Bytes
  truncateLen : ℕ
  stop : ℕ
deriving DecidableEq

structure NewfileRequest where
  newver : Bytes
  name : Bytes
  payload : Bytes
  stop : ℕ
deriving DecidableEq

structure DeltaRequest where
  basefile : Bytes
  oldver : Bytes
  newver : Bytes
  name : Bytes
  delta : Bytes
  stop : ℕ
deriving DecidableEq

structure RenameRequest where
  oldver : Bytes
  newver : Bytes
  fromname : Bytes
  toname : Bytes
  stop : ℕ
deriving DecidableEq

structure UnlinkRequest where
  oldver : Bytes
  name : Bytes
  stop : ℕ
deriving DecidableEq

def readTruncate (workload : Bytes) : Except Fault TruncateRequest := do
  let oldver ← readVersion workload 0
  let newver ← readVersion workload 8
  let (name, next) ← readName workload 16
  let truncateLen ← inside (readLE? 4 workload next)
  return ⟨oldver, newver, name, truncateLen, next + 4⟩

def readNewfile (workload : Bytes) : Except Fault NewfileRequest := do
  let newver ← readVersion workload 0
  let (name, next) ← readName workload 8
  let fileLen ← inside (readLE? 4 workload next)
  let payload ← inside (slice? workload (next + 4) fileLen)
  return ⟨newver, name, payload, next + 4 + fileLen⟩

def readDelta (workload : Bytes) : Except Fault DeltaRequest := do
  let basefile ← readVersion workload 0
  let oldver ← readVersion workload 8
  let newver ← readVersion workload 16
  let (name, next) ← readName workload 24
  let deltaLen ← inside (readLE? 4 workload next)
  let delta ← inside (slice? workload (next + 4) deltaLen)
  return ⟨basefile, oldver, newver, name, delta, next + 4 + deltaLen⟩

/-- `workloadoffset` is a `uint16_t` here. -/
def readRename (workload : Bytes) : Except Fault RenameRequest := do
  let oldver ← readVersion workload 0
  let newver ← readVersion workload 8
  let (fromname, middle) ← readName workload 16
  let (toname, stop) ← readName workload (middle % 2 ^ 16)
  return ⟨oldver, newver, fromname, toname, stop % 2 ^ 16⟩

def readUnlink (workload : Bytes) : Except Fault UnlinkRequest := do
  let oldver ← readVersion workload 0
  let (name, stop) ← readName workload 8
  return ⟨oldver, name, stop % 2 ^ 16⟩

/-! ## The handlers

`transfer k count` is what the `k`-th `write` or `sendfile` of a call reports when `count` octets
are requested: at least one octet and at most all of them. -/

/-- The results of the system calls of one handler run, before clipping to `1 … count`. -/
abbrev Schedule := ℕ → ℕ → ℕ

def transfer (schedule : Schedule) (k count : ℕ) : ℕ := max 1 (min (schedule k count) count)

/-- Every call transfers everything. -/
def wholeTransfers : Schedule := fun _ count => count

/-- `while (sendbytes < total) sendbytes += sendfile(newfd, oldfd, NULL, total - sendbytes)`; the
source descriptor keeps its own position. One unit of fuel a call: each one moves an octet. -/
def sendfileLoop (schedule : Schedule) (source : Bytes) (total : ℕ) : ℕ → ℕ → ℕ → Bytes → Bytes
  | 0, _, _, copied => copied
  | fuel + 1, k, sent, copied =>
    if sent < total then
      let count := transfer schedule k (total - sent)
      sendfileLoop schedule source total fuel (k + 1) (sent + count)
        (copied ++ (source.drop sent).take count)
    else copied

/-- `func_truncate`. Without an old file `fstat` fails and `st_size` is whatever `statSize` was on
the stack; the first `sendfile` then fails its assertion. -/
def funcTruncate (schedule : Schedule) (statSize : ℤ) (dir : Dir) (workload : Bytes) :
    Except Fault Reply := do
  let request ← readTruncate workload
  -- the old file is opened first, but read only after the new one was opened with O_TRUNC
  let oldOpen := (dir request.oldver).isSome
  let dir := dir.set request.newver []
  let old := if oldOpen then (dir request.oldver).getD [] else []
  let oldSize : ℤ := if oldOpen then old.length else statSize
  let len := request.truncateLen
  if (len : ℤ) ≤ oldSize then
    if !oldOpen && 0 < len then throw .assertion
    return ⟨dir.set request.newver (sendfileLoop schedule old len len 0 0 []), some true⟩
  else
    if !oldOpen && 0 < oldSize then throw .assertion
    let copied := sendfileLoop schedule old old.length old.length 0 0 []
    return ⟨dir.set request.newver (resize len copied), some true⟩

/-- `while (writebytes < filelen)` around `res = write(newfd, payload, filelen - writebytes)`,
`assert(res >= 0)` and `writebytes += res`: the source pointer of the call is the start of the
payload every time, and `res` is an `int`. -/
def writeLoop (schedule : Schedule) (payload : Bytes) : ℕ → ℕ → ℕ → Bytes → Except Fault Bytes
  | 0, _, _, written => .ok written
  | fuel + 1, k, writeBytes, written =>
    if writeBytes < payload.length then
      let count := transfer schedule k (payload.length - writeBytes)
      if count < 2 ^ 31 then
        writeLoop schedule payload fuel (k + 1) (writeBytes + count) (written ++ payload.take count)
      else .error .assertion
    else .ok written

def funcNewfile (schedule : Schedule) (dir : Dir) (workload : Bytes) : Except Fault Reply := do
  let request ← readNewfile workload
  let written ← writeLoop schedule request.payload request.payload.length 0 0 []
  return ⟨dir.set request.newver written, some true⟩

/-- The record loop of `func_write`: offset, size, and `size` octets of data each time, whatever
the offset is. The fuel is the number of octets left; a round consumes at least eight. -/
def readRecords : ℕ → Bytes → Except Fault (List (ℕ × Bytes))
  | 0, _ => .ok []
  | fuel + 1, rest =>
    if rest = [] then .ok []
    else do
      let offset ← inside (readLE? 4 rest 0)
      let size ← inside (readLE? 4 rest 4)
      let data ← inside (slice? rest 8 size)
      let others ← readRecords fuel (rest.drop (8 + size))
      return (offset, data) :: others

structure WriteRequest where
  oldver : Bytes
  newver : Bytes
  name : Bytes
  records : List (ℕ × Bytes)
deriving DecidableEq

def readWrite (workload : Bytes) : Except Fault WriteRequest := do
  let oldver ← readVersion workload 0
  let newver ← readVersion workload 8
  -- assert(*(uint64_t*)workload != 0)
  let version ← inside (readLE? 8 workload 0)
  if version = 0 then throw .assertion
  let (name, next) ← readName workload 16
  let records ← readRecords (workload.length - next) (workload.drop next)
  return ⟨oldver, newver, name, records⟩

def pwriteAll (content : Bytes) (records : List (ℕ × Bytes)) : Bytes :=
  records.foldl (fun file record => pwrite file record.1 record.2) content

/-- `func_write`: the result of `rename` is not looked at, and `open` creates a missing file. -/
def funcWrite (dir : Dir) (workload : Bytes) : Except Fault Reply := do
  let request ← readWrite workload
  let dir := match dir request.oldver with
    | some content => dir.move request.oldver request.newver content
    | none => dir
  let content := (dir request.newver).getD []
  return ⟨dir.set request.newver (pwriteAll content request.records), some true⟩

/-- `func_delta`. The new version is created before the base is opened. `patch` is `rs_patch_file`:
whether it ends with RS_DONE, and what it wrote. -/
def funcDelta (patch : Bytes → Bytes → Except Fault (Bool × Bytes)) (dir : Dir) (workload : Bytes) :
    Except Fault Reply := do
  let request ← readDelta workload
  let dir := dir.set request.newver []
  match dir request.basefile with
  | none => return ⟨dir, none⟩
  | some orig =>
    let (done, output) ← patch orig request.delta
    return ⟨dir.set request.newver output, some done⟩

def funcRename (dir : Dir) (workload : Bytes) : Except Fault Reply := do
  let request ← readRename workload
  match dir request.oldver with
  | none => throw .exit
  | some content => return ⟨dir.move request.oldver request.newver content, some true⟩

/-- `func_unlink` reads its request and does nothing. -/
def funcUnlink (dir : Dir) (workload : Bytes) : Except Fault Reply := do
  let _ ← readUnlink workload
  return ⟨dir, some true⟩

end DeltaCFS
