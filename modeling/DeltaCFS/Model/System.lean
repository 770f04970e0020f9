import DeltaCFS.Model.Handlers
import DeltaCFS.Model.Server
import DeltaCFS.ToMathlib.Transition

/-! # Runs of the client, and of the client with its server

A client run is a sequence of atomic calls: FUSE handlers, rounds of the loop of `sync_execute`, and
rounds of the loop of `rel_execute`. In a system run `sync_execute` also calls `sync_send`, and the
server handles the message before the next call.
-/

namespace DeltaCFS

/-- What can happen at the client. -/
inductive Call where
  | mknod (path : Path) (mode rdev : ℕ)
  | mkdir (path : Path) (mode : ℕ)
  | unlink (path : Path)
  | rmdir (path : Path)
  | rename (source target : Path)
  | link (source target : Path)
  | chmod (path : Path) (mode : ℕ)
  | chown (path : Path) (uid gid : ℕ)
  | truncate (path : Path) (size : ℕ)
  | utimens (path : Path) (accessed modified : UInt64 × UInt64)
  | write (path : Path) (offset : ℕ) (data : Bytes)
  | syncExecute
  | relDequeue
deriving DecidableEq, Repr

/-- The packing at the start of a round of `sync_execute`. -/
def packHead (env : Env) (client : Client) : Except Stop Client :=
  let sn := client.node client.queue.sq.head
  if sn.op.isBuffered && !sn.isDelete && !sn.isPacked then
    let found := syncFind sn.src client.queue
    let queue := match found.1 with
      | some sh => hashDel sh found.2
      | none => found.2
    syncPackWrite env packFuel client.queue.sq.head { client with queue := queue }
  else .ok client

/-- A round of the loop of `sync_execute`: the node it hands to `sync_send`, if any. Without a node
in the queue the loop is not entered. -/
def syncExecute (env : Env) (client : Client) : Except Stop (Option SyncNode × Client) := do
  let slot := client.queue.sq.head
  if (client.node slot).isEmpty then return (none, client)
  let client ← packHead env client
  let sn := client.node slot
  return (if sn.isDelete then none else some sn, { client with queue := syncDequeue client.queue })

/-- What a call leaves: the node to send, the value a handler returns, and the client. -/
structure Outcome where
  sent : Option SyncNode
  res : ℤ
  client : Client

/-- A handler sends nothing. -/
def Outcome.ofHandled (handled : Handled) : Except Stop Outcome := do
  let (res, client) ← handled
  return ⟨none, res, client⟩

/-- One atomic call. -/
def Client.step (env : Env) (call : Call) (client : Client) : Except Stop Outcome :=
  match call with
  | .mknod path mode rdev => Outcome.ofHandled (xmpMknod env path mode rdev client)
  | .mkdir path mode => Outcome.ofHandled (xmpMkdir env path mode client)
  | .unlink path => Outcome.ofHandled (xmpUnlink env path client)
  | .rmdir path => Outcome.ofHandled (xmpRmdir env path client)
  | .rename source target => Outcome.ofHandled (xmpRename env source target client)
  | .link source target => Outcome.ofHandled (xmpLink env source target client)
  | .chmod path mode => Outcome.ofHandled (xmpChmod env path mode client)
  | .chown path uid gid => Outcome.ofHandled (xmpChown env path uid gid client)
  | .truncate path size => Outcome.ofHandled (xmpTruncate env path size client)
  | .utimens path accessed modified => Outcome.ofHandled (xmpUtimens env path accessed modified client)
  | .write path offset data => Outcome.ofHandled (xmpWrite env path offset data client)
  | .syncExecute => do
    let (sn, client) ← syncExecute env client
    return ⟨sn, 0, client⟩
  | .relDequeue => .ok ⟨none, 0, { client with rel := relDequeue client.rel }⟩

/-- A call together with what it finds outside the client. -/
structure Event where
  env : Env
  call : Call

/-- The client after an event. -/
def Client.next (event : Event) (client : Client) : Except Stop Client := do
  let outcome ← client.step event.env event.call
  return outcome.client

/-- The handler does not return an error. -/
def Client.Succeeds (event : Event) (client : Client) : Prop :=
  ∀ outcome, client.step event.env event.call = .ok outcome → 0 ≤ outcome.res

/-- What the memory of the client holds when `initial` runs. -/
structure Memory where
  syncNode : ℕ → SyncNode
  relNode : ℕ → RelNode
  hashCachePath : Path

/-- The client after `initial` on an empty mount with an empty LevelDB. -/
def Client.initial (memory : Memory) (dirSize : Path → ℕ) : Client where
  fs := ⟨[], fun _ => [], 0, dirSize⟩
  db := fun _ => none
  queue := SyncQueue.initial memory.syncNode memory.hashCachePath
  rel := RelTable.initial memory.relNode
  recfsCnt := 1
  deltas := 0

/-- `initial` run again over the files, the LevelDB and the server of an earlier client. -/
def Client.restart (memory : Memory) (client : Client) : Client :=
  { client with
    queue := SyncQueue.initial memory.syncNode memory.hashCachePath
    rel := RelTable.initial memory.relNode
    recfsCnt := 1 }

/-! ## The client and its server -/

/-- Fuel that covers every copy command a delta can hold. -/
def patchBound (basis delta : Bytes) : ℕ := 7 * delta.length + 2 * (delta.length * (basis.length + 1)) + 4

/-- `rs_patch_file` at the server: whether it ends with `RS_DONE`, and what it wrote. Where the fuel does
not cover it, it never returns. -/
def serverPatch (basis delta : Bytes) : Except Fault (Bool × Bytes) :=
  match rsPatchFile (patchBound basis delta) basis delta with
  | .ok (result, new) => .ok (decide (result = .done), new)
  | .error .assertion => .error .assertion
  | .error .outOfFuel => .error .hangs

/-- The results of the system calls of one message handler, and what is on its stack. -/
structure ServerEnv where
  schedule : Schedule
  statSize : ℤ

/-- The worker function a message is addressed to. -/
def serve (server : ServerEnv) (dir : Dir) (message : Message) : Except Fault Reply :=
  match message.fn with
  | .rename => funcRename dir message.workload
  | .unlink => funcUnlink dir message.workload
  | .truncate => funcTruncate server.schedule server.statSize dir message.workload
  | .newfile => funcNewfile server.schedule dir message.workload
  | .write => funcWrite dir message.workload
  | .delta => funcDelta serverPatch dir message.workload

structure System where
  client : Client
  dir : Dir
  /-- The nodes whose messages the server has handled, in this order. -/
  sent : List SyncNode

/-- Who does not go on. -/
inductive Crash where
  | client (stop : Stop)
  | server (fault : Fault)
deriving DecidableEq, Repr

/-- `sync_send`, and the server's handling of the message. -/
def System.deliver (server : ServerEnv) (sn : SyncNode) (client : Client) (system : System) : Except Crash System :=
  match syncSend client.fs.read sn with
  | .error stop => .error (.client stop)
  | .ok none => .ok { system with client := client }
  | .ok (some message) =>
    match serve server system.dir message with
    | .error fault => .error (.server fault)
    | .ok reply => .ok ⟨client, reply.dir, system.sent ++ [sn]⟩

/-- A call at the client, with the server's part when it sends a message, or a restart. -/
inductive SystemEvent where
  | call (event : Event) (server : ServerEnv)
  | restart (memory : Memory)

def System.next (event : SystemEvent) (system : System) : Except Crash System :=
  match event with
  | .call event server =>
    match system.client.step event.env event.call with
    | .error stop => .error (.client stop)
    | .ok outcome =>
      match outcome.sent with
      | none => .ok { system with client := outcome.client }
      | some sn => system.deliver server sn outcome.client
  | .restart memory => .ok { system with client := system.client.restart memory }

/-- A new client and a server without files. -/
def System.initial (memory : Memory) (dirSize : Path → ℕ) : System :=
  ⟨Client.initial memory dirSize, fun _ => none, []⟩

/-! ## Concrete runs -/

/-- An environment that grants every call and whose memory is zero. -/
def Env.plain : Env :=
  ⟨false, none, fun _ => 0, fun _ => 0, fun _ => 0, fun _ _ _ => 0, fun _ _ _ => 0, fun _ => .stable⟩

/-- A mount without files on a client whose memory is zero. -/
def Client.empty : Client := Client.initial ⟨fun _ => default, fun _ => default, []⟩ fun _ => 0

def ServerEnv.plain : ServerEnv := ⟨wholeTransfers, 0⟩

/-- A call in an environment that grants everything. -/
def SystemEvent.plain (call : Call) : SystemEvent := .call ⟨.plain, call⟩ .plain

def System.empty : System := ⟨Client.empty, fun _ => none, []⟩

end DeltaCFS
