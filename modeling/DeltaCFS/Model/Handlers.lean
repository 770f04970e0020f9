import DeltaCFS.Model.Client

/-! # The FUSE handlers

The `xmp_` functions of `client/deltacfs_client_gearman.c` that change something, for regular files
and directories. A handler returns what it gives back to FUSE, 0 or a count or a negative `errno`,
and the client after it.
-/

namespace DeltaCFS

open Bytes

/-- What a handler that returns gives back. -/
abbrev Handled := Except Stop (ℤ × Client)

/-- The system call a handler ends with. -/
def Client.syscall (env : Env) (call : FileSystem → Except Errno FileSystem) (done : ℤ) (client : Client) :
    ℤ × Client :=
  match env.callFails with
  | some errno => (-errno.code, client)
  | none =>
    match call client.fs with
    | .ok fs => (done, { client with fs := fs })
    | .error errno => (-errno.code, client)

/-- `sync_enqueue` on the client's queue. -/
def Client.enqueue (op : Op) (src dst : Path) (para : Option (Fin 5 → UInt64)) (bn : Option (List BufInfo))
    (localtime baseVersion : UInt64) (client : Client) : Except Stop Client := do
  let queue ← syncEnqueue op src dst para bn none localtime baseVersion client.queue
  return { client with queue := queue }

/-- `rel_enqueue` on the client's relations. -/
def Client.relEnqueue (src dst : Path) (localtime : UInt64) (client : Client) : Except Stop Client := do
  let rel ← DeltaCFS.relEnqueue src dst localtime client.rel
  return { client with rel := rel }

def Client.syncDelete (path : Path) (client : Client) : Client :=
  { client with queue := DeltaCFS.syncDelete path client.queue }

/-- A parameter array with the given leading values and zeros. -/
def paraOf (values : List UInt64) : Fin 5 → UInt64 := fun i => values.getD i.val 0

/-- `&value` passed as a parameter array: the rest is read from the stack. -/
def paraAt (env : Env) (value : UInt64) : Fin 5 → UInt64 := fun i => if i.val = 0 then value else env.stack i

/-- `xmp_mknod` of a regular file: the version is stored before the file is created. -/
def xmpMknod (env : Env) (path : Path) (mode rdev : ℕ) (client : Client) : Handled := do
  let (newTimestamp, client) := increaseRecfsCnt client
  let client := recfsUpdateTimestamp path newTimestamp client
  let (res, client) := client.syscall env (·.openExcl path) 0
  if res < 0 then return (res, client)
  let client ← syncPackWritePath env path client
  let client ← client.enqueue .newfile path [] (some (paraOf [0, intPara mode, intPara rdev])) none newTimestamp 0
  return (0, client)

def xmpMkdir (env : Env) (path : Path) (mode : ℕ) (client : Client) : Handled := do
  let (res, client) := client.syscall env (·.mkdir path) 0
  if res < 0 then return (res, client)
  let (newTimestamp, client) := increaseRecfsCnt client
  let client := recfsUpdateTimestamp path newTimestamp client
  let client ← client.enqueue .mkdir path [] (some (paraOf [intPara mode])) none newTimestamp 0
  return (0, client)

/-- `xmp_unlink` moves the file into the temporary directory and records where it went. -/
def xmpUnlink (env : Env) (path : Path) (client : Client) : Handled := do
  let fileVersion ← recfsGetTimestamp path client
  let client ← syncPackWritePath env path client
  let client := { client with rel := relDeleteSrc path (relDeleteDst path client.rel) }
  let tmp := tmpPath path
  let (res, client) := client.syscall env (·.rename path tmp) 0
  if res < 0 then return (res, client)
  let (newTimestamp, client) := increaseRecfsCnt client
  let client ← client.enqueue .rename path tmp none none newTimestamp fileVersion
  let client := recfsDelTimestamp path (recfsUpdateTimestamp tmp newTimestamp client)
  let client ← client.relEnqueue path tmp newTimestamp
  return (0, client)

def xmpRmdir (env : Env) (path : Path) (client : Client) : Handled := do
  let dirVersion ← recfsGetTimestamp path client
  let client ← client.enqueue .rmdir path [] none none dirVersion 0
  return client.syscall env (·.rmdir path) 0

/-! ## Renaming

The three branches of `xmp_rename`, between the new version and the relation. -/

/-- The target neither exists nor has a relation. -/
def renamePlain (env : Env) (source target : Path) (fromVersion newTimestamp : UInt64) (client : Client) :
    Except Stop Client := do
  let client ← syncPackWritePath env source client
  let client := recfsUpdateTimestamp target newTimestamp client
  client.enqueue .rename source target none none newTimestamp fromVersion

/-- The target exists. -/
def renameOnto (env : Env) (source target : Path) (fromVersion newTimestamp : UInt64) (client : Client) :
    Except Stop Client := do
  let client ← syncPackWritePath env target client
  let fileTimestamp ← recfsGetTimestamp target client
  let (deltaFile, client) ← computeDelta env target source target client
  let client := recfsUpdateTimestamp target newTimestamp client
  let client ← client.enqueue .unlink source [] none none fromVersion 0
  let client := client.syncDelete source
  client.enqueue .delta deltaFile target (some (paraAt env fileTimestamp)) none newTimestamp fileTimestamp

/-- The target has a relation `rn` and does not exist. -/
def renameRelated (env : Env) (source target : Path) (rn : RelNode) (fromVersion newTimestamp : UInt64)
    (client : Client) : Except Stop Client := do
  let (deltaFile, client) ← computeDelta env rn.dst source rn.dst client
  let fileTimestampCheck ← recfsGetTimestamp rn.dst client
  let client := recfsUpdateTimestamp target newTimestamp client
  if fileTimestampCheck = rn.time then
    let client ← client.enqueue .unlink source [] none none fromVersion 0
    let client := client.syncDelete source
    client.enqueue .delta deltaFile target (some (paraAt env 0)) none newTimestamp fileTimestampCheck
  else
    let client ← syncPackWritePath env source client
    client.enqueue .rename source target none none newTimestamp fromVersion

/-- `open(path, O_RDONLY) != -1`. -/
def Client.opens (env : Env) (path : Path) (client : Client) : Bool :=
  !env.openFails && (client.fs.entry path).isSome

/-- What `xmp_rename` does with the queue and the versions. -/
def renameSync (env : Env) (source target : Path) (fromVersion newTimestamp : UInt64) (client : Client) :
    Except Stop Client :=
  if client.opens env target then renameOnto env source target fromVersion newTimestamp client
  else
    match relFind target client.rel with
    | none => renamePlain env source target fromVersion newTimestamp client
    | some rh => renameRelated env source target (client.rel.rq.node rh.loc) fromVersion newTimestamp client

def xmpRename (env : Env) (source target : Path) (client : Client) : Handled := do
  let fromVersion ← recfsGetTimestamp source client
  let client := recfsDelTimestamp source client
  let (newTimestamp, client) := increaseRecfsCnt client
  let rh := relFind target client.rel
  let client ← renameSync env source target fromVersion newTimestamp client
  let client := match rh with
    | some rh => { client with rel := relDelete rh client.rel }
    | none => client
  let client ← client.relEnqueue source target newTimestamp
  return client.syscall env (·.rename source target) 0

/-- The delta a link to the name of a relation triggers. -/
def linkRelated (env : Env) (source : Path) (rn : RelNode) (fromVersion : UInt64) (client : Client) :
    Except Stop Client := do
  let client ← syncPackWritePath env rn.dst client
  let client ← syncPackWritePath env source client
  let (deltaFile, client) ← computeDelta env rn.dst source rn.dst client
  let fileTimestampCheck ← recfsGetTimestamp rn.dst client
  if fileTimestampCheck = rn.time then
    let client ← client.enqueue .delta deltaFile source (some (paraAt env 0)) none fromVersion fileTimestampCheck
    return client.syncDelete source
  else return client

/-- What `xmp_link` does before the new version. -/
def linkSync (env : Env) (source target : Path) (fromVersion : UInt64) (client : Client) : Except Stop Client :=
  match relFind target client.rel with
  | some rh => linkRelated env source (client.rel.rq.node rh.loc) fromVersion client
  | none => .ok client

def xmpLink (env : Env) (source target : Path) (client : Client) : Handled := do
  let fromVersion ← recfsGetTimestamp source client
  let client ← linkSync env source target fromVersion client
  let (newTimestamp, client) := increaseRecfsCnt client
  let client := recfsUpdateTimestamp target newTimestamp client
  let client ← client.enqueue .link source target none none newTimestamp fromVersion
  return client.syscall env (·.link source target) 0

/-! ## Attributes -/

/-- `xmp_chmod`, `xmp_chown` and `xmp_utimens` queue their parameters and call on. -/
def xmpSetattr (env : Env) (op : Op) (path : Path) (para : List UInt64) (client : Client) : Handled := do
  let client ← client.enqueue op path [] (some (paraOf para)) none 0 0
  return client.syscall env (·.setattr path) 0

def xmpChmod (env : Env) (path : Path) (mode : ℕ) (client : Client) : Handled :=
  xmpSetattr env .chmod path [intPara mode] client

def xmpChown (env : Env) (path : Path) (uid gid : ℕ) (client : Client) : Handled :=
  xmpSetattr env .chown path [intPara uid, intPara gid] client

/-- The two times are given as seconds and nanoseconds. -/
def xmpUtimens (env : Env) (path : Path) (accessed modified : UInt64 × UInt64) (client : Client) : Handled :=
  xmpSetattr env .utimens path [accessed.1, accessed.2 / 1000, modified.1, modified.2 / 1000] client

/-! ## Content -/

/-- Append a record to the node of a slot. -/
def Client.appendRecord (slot : ℕ) (record : BufInfo) (client : Client) : Client :=
  client.modifyNode slot fun sn => { sn with bn := sn.bn.map (· ++ [record]) }

/-- The record of a truncate while writes are pending; its `isAppend` is not set. -/
def truncateRecord (size : ℕ) : BufInfo := ⟨flagTruncate, size, none, none, false⟩

/-- What `xmp_truncate` does with the queue: to size 0 it drops the pending node, otherwise it adds
to it, unless that is for a new file. -/
def truncateSync (path : Path) (size : ℕ) (client : Client) : Except Stop Client :=
  if size = 0 then .ok { client with queue := syncDeleteWrite path client.queue }
  else
    let found := syncFind path client.queue
    let client := { client with queue := found.2 }
    match found.1 with
    | some sh =>
      if (client.node sh.loc).isNewfile then .ok client
      else .ok (client.appendRecord sh.loc (truncateRecord size))
    | none => do
      let baseVersion ← recfsGetTimestamp path client
      let (newTimestamp, client) := increaseRecfsCnt client
      let client := recfsUpdateTimestamp path newTimestamp client
      client.enqueue .truncate path [] (some (paraOf [intPara size])) none newTimestamp baseVersion

def xmpTruncate (env : Env) (path : Path) (size : ℕ) (client : Client) : Handled := do
  let client ← truncateSync path size client
  return client.syscall env (·.truncate path size) 0

/-- The content `open(path, O_RDWR)` gives access to. -/
def Client.opened (env : Env) (path : Path) (client : Client) : Option Bytes :=
  if env.openFails then none else client.fs.read path

/-- The record of a write: the saved buffer is the old content, and behind the end of the file
whatever `malloc` left there. -/
def writeRecord (env : Env) (path : Path) (offset : ℕ) (data : Bytes) (client : Client) : BufInfo where
  offset := offset
  size := data.length
  buf :=
    let saved := pread ((client.opened env path).getD []) offset data.length
    some (saved ++ (List.range (data.length - saved.length)).map fun i => env.heap (saved.length + i))
  newbuf := some data
  isAppend := decide ((offset : ℤ) ≥ client.fs.getFileSize path)

/-- What `xmp_write` does with the queue: the node of a new file takes no records. -/
def writeSync (env : Env) (path : Path) (offset : ℕ) (data : Bytes) (client : Client) : Except Stop Client :=
  let record := writeRecord env path offset data client
  let found := syncFind path client.queue
  let client := { client with queue := found.2 }
  match found.1 with
  | some sh =>
    if (client.node sh.loc).isNewfile then .ok client
    else .ok (client.appendRecord sh.loc record)
  | none => do
    let baseVersion ← recfsGetTimestamp path client
    let (newTimestamp, client) := increaseRecfsCnt client
    let client := recfsUpdateTimestamp path newTimestamp client
    client.enqueue .write path [] none (some [record]) newTimestamp baseVersion

def xmpWrite (env : Env) (path : Path) (offset : ℕ) (data : Bytes) (client : Client) : Handled := do
  let client ← writeSync env path offset data client
  return client.syscall env
    (fun fs => if env.openFails then .error .ebadf else fs.pwriteAt path offset data) data.length

end DeltaCFS
