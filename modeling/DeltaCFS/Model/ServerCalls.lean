import DeltaCFS.Model.System
import DeltaCFS.ToMathlib.Threads

/-! # The handlers call by call

The system calls that the handlers of `server/deltacfs_server_gearman.cpp` make on the directory, in their order;
between two of them other workers may make theirs. A file that was opened is taken to be the one under the name
it was opened with, and `rs_patch_file` to read the base at once and to write its output at once. The messages
are read as in the handlers.
-/

namespace DeltaCFS

open Bytes

/-- What a worker has still to call; it returns what it stores through `ret_ptr`. -/
abbrev WorkerCalls := Calls Dir Fault (Option Bool)

/-- `rename(2)`; a missing file stays missing. -/
def renameCall (source target : Bytes) (dir : Dir) : Dir :=
  match dir source with
  | some content => dir.move source target content
  | none => dir

/-- Octets at the end of a file that was opened for writing. -/
def appendCall (name data : Bytes) (dir : Dir) : Dir := dir.set name ((dir name).getD [] ++ data)

/-- The `sendfile` calls of `func_truncate`, each with what the old file holds at its time. -/
def sendfileCalls (schedule : Schedule) (oldver newver : Bytes) (total : ℕ) (behind : WorkerCalls) :
    ℕ → ℕ → ℕ → WorkerCalls
  | 0, _, _ => behind
  | fuel + 1, k, sent =>
    if sent < total then
      let count := transfer schedule k (total - sent)
      .call (fun dir => appendCall newver ((((dir oldver).getD []).drop sent).take count) dir) fun _ =>
        sendfileCalls schedule oldver newver total behind fuel (k + 1) (sent + count)
    else behind

def funcTruncateCalls (schedule : Schedule) (statSize : ℤ) (workload : Bytes) : WorkerCalls :=
  match readTruncate workload with
  | .error fault => .fail fault
  | .ok request =>
    -- open(oldver, O_RDONLY)
    .call id fun dir =>
      let oldOpen := (dir request.oldver).isSome
      -- open(newver, O_WRONLY|O_CREAT|O_TRUNC)
      .call (fun dir => dir.set request.newver []) fun _ =>
        -- fstat(oldfd)
        .call id fun dir =>
          let old := if oldOpen then (dir request.oldver).getD [] else []
          let oldSize : ℤ := if oldOpen then old.length else statSize
          let len := request.truncateLen
          if (len : ℤ) ≤ oldSize then
            if !oldOpen && 0 < len then .fail .assertion
            else sendfileCalls schedule request.oldver request.newver len (.ret (some true)) len 0 0
          else
            if !oldOpen && 0 < oldSize then .fail .assertion
            else sendfileCalls schedule request.oldver request.newver old.length
              -- ftruncate(newfd, truncatelen)
              (.call (fun dir => dir.set request.newver (resize len ((dir request.newver).getD []))) fun _ =>
                .ret (some true))
              old.length 0 0

/-- The `write` calls of `func_newfile`. -/
def writeCalls (schedule : Schedule) (newver payload : Bytes) : ℕ → ℕ → ℕ → WorkerCalls
  | 0, _, _ => .ret (some true)
  | fuel + 1, k, writeBytes =>
    if writeBytes < payload.length then
      let count := transfer schedule k (payload.length - writeBytes)
      .call (appendCall newver (payload.take count)) fun _ =>
        if count < 2 ^ 31 then writeCalls schedule newver payload fuel (k + 1) (writeBytes + count)
        else .fail .assertion
    else .ret (some true)

def funcNewfileCalls (schedule : Schedule) (workload : Bytes) : WorkerCalls :=
  match readNewfile workload with
  | .error fault => .fail fault
  | .ok request =>
    .call (fun dir => dir.set request.newver []) fun _ =>
      writeCalls schedule request.newver request.payload request.payload.length 0 0

/-- The `pwrite` calls of `func_write`. -/
def pwriteCalls (newver : Bytes) : List (ℕ × Bytes) → WorkerCalls
  | [] => .ret (some true)
  | record :: records =>
    .call (fun dir => dir.set newver (pwrite ((dir newver).getD []) record.1 record.2)) fun _ => pwriteCalls newver records

def funcWriteCalls (workload : Bytes) : WorkerCalls :=
  match readWrite workload with
  | .error fault => .fail fault
  | .ok request =>
    .call (renameCall request.oldver request.newver) fun _ =>
      -- open(newver, O_WRONLY|O_CREAT)
      .call (appendCall request.newver []) fun _ => pwriteCalls request.newver request.records

def funcDeltaCalls (patch : Bytes → Bytes → Except Fault (Bool × Bytes)) (workload : Bytes) : WorkerCalls :=
  match readDelta workload with
  | .error fault => .fail fault
  | .ok request =>
    -- fopen(newver, "wb")
    .call (fun dir => dir.set request.newver []) fun _ =>
      -- fopen(basefile, "rb")
      .call id fun dir =>
        if (dir request.basefile).isNone then .ret none
        else .call id fun dir =>
          match patch ((dir request.basefile).getD []) request.delta with
          | .error fault => .fail fault
          | .ok (done, output) => .call (fun dir => dir.set request.newver output) fun _ => .ret (some done)

def funcRenameCalls (workload : Bytes) : WorkerCalls :=
  match readRename workload with
  | .error fault => .fail fault
  | .ok request =>
    .call (renameCall request.oldver request.newver) fun dir =>
      if (dir request.oldver).isSome then .ret (some true) else .fail .exit

def funcUnlinkCalls (workload : Bytes) : WorkerCalls :=
  match readUnlink workload with
  | .error fault => .fail fault
  | .ok _ => .ret (some true)

/-- The worker function a message is addressed to. -/
def serveCalls (server : ServerEnv) (message : Message) : WorkerCalls :=
  match message.fn with
  | .rename => funcRenameCalls message.workload
  | .unlink => funcUnlinkCalls message.workload
  | .truncate => funcTruncateCalls server.schedule server.statSize message.workload
  | .newfile => funcNewfileCalls server.schedule message.workload
  | .write => funcWriteCalls message.workload
  | .delta => funcDeltaCalls serverPatch message.workload

end DeltaCFS
