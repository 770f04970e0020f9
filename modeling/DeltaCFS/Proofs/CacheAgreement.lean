import DeltaCFS.Proofs.PendingWrites

/-! # The cache in front of the hash

A handler is a sequence of operations on the sync queue, with other things done between them. Each of
them leaves the hash tidy, so before and after every operation, and at every lookup inside one, the
cache answers as the hash does.
-/

namespace DeltaCFS

variable {env : Env} {client after : Client} {path source target : Path} {queue queue' : SyncQueue} {slot fuel : ℕ}

/-! ## Operations -/

/-- The operations on the sync queue, those that pack with the client around the queue at that time. -/
inductive QueueOp where
  | find (path : Path)
  | append (slot : ℕ) (record : BufInfo)
  | enqueue (op : Op) (src dst : Path) (para : Option (Fin 5 → UInt64)) (bn : Option (List BufInfo))
      (localtime baseVersion : UInt64)
  | delete (path : Path)
  | deleteWrite (path : Path)
  | packPath (env : Env) (path : Path) (around : Client)
  | execute (env : Env) (around : Client)

def QueueOp.run (op : QueueOp) (queue : SyncQueue) : Except Stop SyncQueue :=
  match op with
  | .find path => .ok (syncFind path queue).2
  | .append slot record => .ok (queue.modifyNode slot (SyncNode.appended record))
  | .enqueue op src dst para bn localtime baseVersion => syncEnqueue op src dst para bn none localtime baseVersion queue
  | .delete path => .ok (syncDelete path queue)
  | .deleteWrite path => .ok (syncDeleteWrite path queue)
  | .packPath env path around => (syncPackWritePath env path { around with queue := queue }).map Client.queue
  | .execute env around => (syncExecute env { around with queue := queue }).map fun executed => executed.2.queue

/-- The states of the queue in which the operation calls `sync_find`. -/
def QueueOp.lookups (op : QueueOp) (queue : SyncQueue) : List SyncQueue :=
  match op with
  | .find _ | .delete _ | .deleteWrite _ => [queue]
  | .append .. | .enqueue .. => []
  | .packPath _ path around =>
    queue :: match syncFind path queue with
      | (some sh, queue) => (packVisits around.rel packFuel sh.loc (hashDelPath path sh queue)).map Prod.snd
      | (none, _) => []
  | .execute _ around =>
    let head := queue.sq.head
    queue :: match syncFind (queue.sq.node head).src queue with
      | (some sh, queue) => (packVisits around.rel packFuel head (hashDel sh queue)).map Prod.snd
      | (none, queue) => (packVisits around.rel packFuel head queue).map Prod.snd

/-! ## The operations of the handlers -/

/-- The operations behind a step that has to succeed. -/
def andThen {α : Type} (result : Except Stop α) (rest : α → List QueueOp) : List QueueOp :=
  match result with
  | .ok value => rest value
  | .error _ => []

def mknodOps (env : Env) (path : Path) (mode rdev : ℕ) (client : Client) : List QueueOp :=
  let (newTimestamp, client) := increaseRecfsCnt client
  let client := recfsUpdateTimestamp path newTimestamp client
  let (res, client) := client.syscall env (·.openExcl path) 0
  if res < 0 then []
  else
    [.packPath env path client,
      .enqueue .newfile path [] (some (paraOf [0, intPara mode, intPara rdev])) none newTimestamp 0]

def mkdirOps (env : Env) (path : Path) (mode : ℕ) (client : Client) : List QueueOp :=
  let (res, client) := client.syscall env (·.mkdir path) 0
  if res < 0 then [] else [.enqueue .mkdir path [] (some (paraOf [intPara mode])) none client.newVersion 0]

def unlinkOps (env : Env) (path : Path) (client : Client) : List QueueOp :=
  andThen (recfsGetTimestamp path client) fun fileVersion =>
    .packPath env path client :: andThen (syncPackWritePath env path client) fun client =>
      let client := { client with rel := relDeleteSrc path (relDeleteDst path client.rel) }
      let (res, client) := client.syscall env (·.rename path (tmpPath path)) 0
      if res < 0 then [] else [.enqueue .rename path (tmpPath path) none none client.newVersion fileVersion]

def rmdirOps (path : Path) (client : Client) : List QueueOp :=
  andThen (recfsGetTimestamp path client) fun dirVersion => [.enqueue .rmdir path [] none none dirVersion 0]

/-- The UNLINK and the DELTA node of a rename. -/
def unlinkDeltaOps (source target deltaFile : Path) (para : Fin 5 → UInt64) (fromVersion newTimestamp base : UInt64) :
    List QueueOp :=
  [.enqueue .unlink source [] none none fromVersion 0, .delete source,
    .enqueue .delta deltaFile target (some para) none newTimestamp base]

def renameSyncOps (env : Env) (source target : Path) (fromVersion newTimestamp : UInt64) (client : Client) :
    List QueueOp :=
  if client.opens env target then
    .packPath env target client :: andThen (syncPackWritePath env target client) fun client =>
      andThen (recfsGetTimestamp target client) fun fileTimestamp =>
        andThen (computeDelta env target source target client) fun (deltaFile, _) =>
          unlinkDeltaOps source target deltaFile (paraAt env fileTimestamp) fromVersion newTimestamp fileTimestamp
  else
    match relFind target client.rel with
    | none => [.packPath env source client, .enqueue .rename source target none none newTimestamp fromVersion]
    | some rh =>
      let rn := client.rel.rq.node rh.loc
      andThen (computeDelta env rn.dst source rn.dst client) fun (deltaFile, client) =>
        andThen (recfsGetTimestamp rn.dst client) fun check =>
          if check = rn.time then
            unlinkDeltaOps source target deltaFile (paraAt env 0) fromVersion newTimestamp check
          else
            [.packPath env source (recfsUpdateTimestamp target newTimestamp client),
              .enqueue .rename source target none none newTimestamp fromVersion]

def renameOps (env : Env) (source target : Path) (client : Client) : List QueueOp :=
  andThen (recfsGetTimestamp source client) fun fromVersion =>
    renameSyncOps env source target fromVersion client.newVersion
      (increaseRecfsCnt (recfsDelTimestamp source client)).2

def linkSyncOps (env : Env) (source target : Path) (fromVersion : UInt64) (client : Client) : List QueueOp :=
  match relFind target client.rel with
  | none => []
  | some rh =>
    let rn := client.rel.rq.node rh.loc
    .packPath env rn.dst client :: andThen (syncPackWritePath env rn.dst client) fun client =>
      .packPath env source client :: andThen (syncPackWritePath env source client) fun client =>
        andThen (computeDelta env rn.dst source rn.dst client) fun (deltaFile, client) =>
          andThen (recfsGetTimestamp rn.dst client) fun check =>
            if check = rn.time then
              [.enqueue .delta deltaFile source (some (paraAt env 0)) none fromVersion check, .delete source]
            else []

def linkOps (env : Env) (source target : Path) (client : Client) : List QueueOp :=
  andThen (recfsGetTimestamp source client) fun fromVersion =>
    linkSyncOps env source target fromVersion client ++
      andThen (linkSync env source target fromVersion client) fun client =>
        [.enqueue .link source target none none client.newVersion fromVersion]

def setattrOps (op : Op) (path : Path) (para : List UInt64) : List QueueOp :=
  [.enqueue op path [] (some (paraOf para)) none 0 0]

/-- A lookup, and then a record for the node that it found, or a new node. -/
def recordOps (path : Path) (record : BufInfo) (enqueue : UInt64 → QueueOp) (client : Client) : List QueueOp :=
  .find path :: match (syncFind path client.queue).1 with
    | some sh => [.append sh.loc record]
    | none => andThen (recfsGetTimestamp path client) fun baseVersion => [enqueue baseVersion]

def truncateOps (path : Path) (size : ℕ) (client : Client) : List QueueOp :=
  if size = 0 then [.deleteWrite path]
  else
    recordOps path (truncateRecord size)
      (fun baseVersion => .enqueue .truncate path [] (some (paraOf [intPara size])) none client.newVersion baseVersion)
      client

def writeOps (env : Env) (path : Path) (offset : ℕ) (data : Bytes) (client : Client) : List QueueOp :=
  let record := writeRecord env path offset data client
  recordOps path record
    (fun baseVersion => .enqueue .write path [] none (some [record]) client.newVersion baseVersion) client

/-- What a call does with the queue, up to where it stops. -/
def Client.queueOps (event : Event) (client : Client) : List QueueOp :=
  match event.call with
  | .mknod path mode rdev => mknodOps event.env path mode rdev client
  | .mkdir path mode => mkdirOps event.env path mode client
  | .unlink path => unlinkOps event.env path client
  | .rmdir path => rmdirOps path client
  | .rename source target => renameOps event.env source target client
  | .link source target => linkOps event.env source target client
  | .chmod path mode => setattrOps .chmod path [intPara mode]
  | .chown path uid gid => setattrOps .chown path [intPara uid, intPara gid]
  | .utimens path accessed modified =>
    setattrOps .utimens path [accessed.1, accessed.2 / 1000, modified.1, modified.2 / 1000]
  | .truncate path size => truncateOps path size client
  | .write path offset data => writeOps event.env path offset data client
  | .syncExecute => [.execute event.env client]
  | .relDequeue => []

/-! ## One operation -/

/-- A pending node enters the queue as the first of its path. -/
def QueueOp.Safe (op : QueueOp) (queue : SyncQueue) : Prop :=
  match op with
  | .enqueue op src .. => op.isBuffered = true → ∀ sh ∈ queue.shs, sh.path ≠ src
  | _ => True

/-- The operation leaves the hash tidy and the ring a queue. -/
theorem QueueOp.keeps {op : QueueOp} (indexed : Indexed Set.univ queue) (safe : op.Safe queue)
    (ran : op.run queue = .ok queue') : Indexed Set.univ queue' := by
  have holds : queue.Holds fun _ => True := ⟨indexed.tidy, _, ⟨_, indexed.queued.choose_spec, rfl⟩, trivial⟩
  cases op with
  | find path => exact Except.ok.inj ran ▸ indexed.syncFind path
  | append slot record =>
    obtain ⟨-, src, -, -, -, -, -, flag, pending⟩ := (queue.sq.node slot).appended_fields record
    exact Except.ok.inj ran ▸ indexed.update slot _ flag src pending
  | enqueue op src dst para bn localtime baseVersion => exact indexed.syncEnqueue safe ran
  | delete path => exact Except.ok.inj ran ▸ indexed.syncDelete path
  | deleteWrite path => exact Except.ok.inj ran ▸ indexed.syncDeleteWrite path
  | packPath env path around =>
    simp only [QueueOp.run] at ran
    cases packing : syncPackWritePath env path { around with queue := queue } with
    | error stop => simp [packing, Except.map] at ran
    | ok packed =>
      rw [packing] at ran
      obtain rfl := Except.ok.inj ran
      exact (SyncQueue.Holds.packPath packing holds fun _ _ _ _ => id).1.indexed
  | execute env around =>
    simp only [QueueOp.run] at ran
    cases executing : syncExecute env { around with queue := queue } with
    | error stop => simp [executing, Except.map] at ran
    | ok executed =>
      obtain ⟨sent, after⟩ := executed
      rw [executing] at ran
      obtain rfl := Except.ok.inj ran
      rcases SyncQueue.Holds.syncExecute executing holds fun _ _ _ _ => id with ⟨-, rfl⟩ | ⟨-, sn, -, left⟩
      · exact indexed
      · exact left.indexed

/-- Looking for the next node on the way keeps the hash tidy. -/
theorem packVisits_tidy {rel : RelTable} (tidy : Tidy queue) :
    ∀ visited ∈ packVisits rel fuel slot queue, Tidy visited.2 := by
  induction fuel generalizing slot queue with
  | zero => simp [packVisits]
  | succ fuel ih =>
    rw [packVisits, List.forall_mem_cons]
    refine ⟨tidy, ?_⟩
    split
    · split
      · simp
      · next rh related =>
        obtain ⟨-, -, looked, -⟩ := tidy.syncFind (rel.rq.node rh.loc).dst
        split
        · next sh found hit =>
          rw [hit] at looked
          exact ih looked
        · simp
    · simp

/-- Wherever the operation looks something up, the hash is tidy. -/
theorem QueueOp.lookups_tidy {op : QueueOp} (tidy : Tidy queue) : ∀ inner ∈ op.lookups queue, Tidy inner := by
  have visits {rel : RelTable} {slot : ℕ} {queue : SyncQueue} (tidy : Tidy queue) :
      ∀ inner ∈ (packVisits rel packFuel slot queue).map Prod.snd, Tidy inner := by
    intro inner member
    obtain ⟨visited, inside, rfl⟩ := List.mem_map.mp member
    exact packVisits_tidy tidy visited inside
  have deleted {path : Path} {sh : SyncHash} {found : SyncQueue} (hit : syncFind path queue = (some sh, found)) :
      Tidy (hashDel sh found) := by
    obtain ⟨-, entries, looked, -⟩ := tidy.syncFind path
    obtain ⟨member, -⟩ := tidy.found (congrArg Prod.fst hit)
    rw [hit] at entries looked
    exact looked.hashDel (entries ▸ member) rfl fun _ _ => rfl
  cases op with
  | find path => simpa [QueueOp.lookups] using tidy
  | append slot record => simp [QueueOp.lookups]
  | enqueue op src dst para bn localtime baseVersion => simp [QueueOp.lookups]
  | delete path => simpa [QueueOp.lookups] using tidy
  | deleteWrite path => simpa [QueueOp.lookups] using tidy
  | packPath env path around =>
    rw [QueueOp.lookups, List.forall_mem_cons]
    refine ⟨tidy, ?_⟩
    split
    · next sh found hit =>
      have cached := (syncFind_cached (congrArg Prod.fst hit)).2
      simp only [hit] at cached
      have same : hashDelPath path sh found = hashDel sh found := by
        simp only [hashDelPath, hashDel, cached, ↓reduceIte]
      exact same ▸ visits (deleted hit)
    · simp
  | execute env around =>
    rw [QueueOp.lookups, List.forall_mem_cons]
    refine ⟨tidy, ?_⟩
    split
    · next sh found hit => exact visits (deleted hit)
    · next found miss =>
      obtain ⟨-, -, looked, -⟩ := tidy.syncFind (queue.sq.node queue.sq.head).src
      rw [miss] at looked
      exact visits looked

/-! ## What the handlers do -/

/-- None of the operations enters a pending node. -/
def Plain (ops : List QueueOp) : Prop := ∀ op ∈ ops, ∀ queue, op.Safe queue

namespace Plain

variable {ops rest : List QueueOp}

theorem nil : Plain [] := by simp [Plain]

theorem cons {first : QueueOp} (safe : ∀ queue, first.Safe queue) (plain : Plain rest) : Plain (first :: rest) := by
  rw [Plain, List.forall_mem_cons]
  exact ⟨safe, plain⟩

theorem enqueue {op : Op} {src dst : Path} {para : Option (Fin 5 → UInt64)} {bn : Option (List BufInfo)}
    {localtime baseVersion : UInt64} (settled : op.isBuffered = false) (plain : Plain rest) :
    Plain (.enqueue op src dst para bn localtime baseVersion :: rest) :=
  plain.cons fun _ buffered => absurd (settled.symm.trans buffered) (by simp)

theorem append (first : Plain ops) (second : Plain rest) : Plain (ops ++ rest) := by
  intro op member
  rcases List.mem_append.mp member with inside | inside
  · exact first op inside
  · exact second op inside

theorem andThen {α : Type} {result : Except Stop α} {further : α → List QueueOp}
    (plain : ∀ value, Plain (further value)) : Plain (andThen result further) := by
  cases result with
  | error stop => exact nil
  | ok value => exact plain value

theorem unlinkDelta {deltaFile : Path} {para : Fin 5 → UInt64} {fromVersion newTimestamp base : UInt64} :
    Plain (unlinkDeltaOps source target deltaFile para fromVersion newTimestamp base) :=
  .enqueue rfl (.cons (fun _ => trivial) (.enqueue rfl .nil))

theorem renameSync {fromVersion newTimestamp : UInt64} :
    Plain (renameSyncOps env source target fromVersion newTimestamp client) := by
  rw [renameSyncOps]
  split
  · exact .cons (fun _ => trivial) (.andThen fun _ => .andThen fun _ => .andThen fun _ => .unlinkDelta)
  · split
    · exact .cons (fun _ => trivial) (.enqueue rfl .nil)
    · refine .andThen fun _ => .andThen fun check => ?_
      split
      · exact .unlinkDelta
      · exact .cons (fun _ => trivial) (.enqueue rfl .nil)

theorem linkSync {fromVersion : UInt64} : Plain (linkSyncOps env source target fromVersion client) := by
  rw [linkSyncOps]
  split
  · exact .nil
  · refine .cons (fun _ => trivial) (.andThen fun _ => .cons (fun _ => trivial) (.andThen fun _ => .andThen fun _ =>
      .andThen fun check => ?_))
    split
    · exact .enqueue rfl (.cons (fun _ => trivial) .nil)
    · exact .nil

end Plain

/-- The operations of a handler are safe when their turn comes: `xmp_mknod` has packed the pending node of
the path before it enters another one, and `xmp_write` has found none. -/
theorem Client.queueOps_allowed (formed : client.WellFormed) (event : Event) :
    Transition.AllAllowed QueueOp.run QueueOp.Safe (client.queueOps event) client.queue := by
  obtain ⟨env, call⟩ := event
  have plain {ops : List QueueOp} (settled : Plain ops) :
      Transition.AllAllowed QueueOp.run QueueOp.Safe ops client.queue := Transition.allAllowed_of_forall settled _
  cases call with
  | mknod path mode rdev =>
    simp only [Client.queueOps, mknodOps]
    split
    · exact trivial
    · refine ⟨trivial, fun next packing => ⟨fun _ => ?_, fun _ _ => trivial⟩⟩
      simp only [QueueOp.run] at packing
      cases packed : syncPackWritePath env path { (Client.syscall env (·.openExcl path) 0 (recfsUpdateTimestamp path
          (increaseRecfsCnt client).1 (increaseRecfsCnt client).2)).2 with queue := client.queue } with
      | error stop => simp [packed, Except.map] at packing
      | ok after =>
        rw [packed] at packing
        obtain rfl := Except.ok.inj packing
        exact fun sh member => ((syncPackWritePath_entries packed formed.queue.tidy).2 sh member).2
  | mkdir path mode =>
    refine plain ?_
    simp only [Client.queueOps, mkdirOps]
    split
    · exact .nil
    · exact .enqueue rfl .nil
  | unlink path =>
    refine plain (.andThen fun _ => .cons (fun _ => trivial) (.andThen fun packed => ?_))
    dsimp only
    split
    · exact .nil
    · exact .enqueue rfl .nil
  | rmdir path => exact plain (.andThen fun _ => .enqueue rfl .nil)
  | rename source target => exact plain (.andThen fun _ => .renameSync)
  | link source target => exact plain (.andThen fun _ => .append .linkSync (.andThen fun _ => .enqueue rfl .nil))
  | chmod path mode => exact plain (.enqueue rfl .nil)
  | chown path uid gid => exact plain (.enqueue rfl .nil)
  | utimens path accessed modified => exact plain (.enqueue rfl .nil)
  | truncate path size =>
    refine plain ?_
    simp only [Client.queueOps, truncateOps, recordOps]
    split
    · exact .cons (fun _ => trivial) .nil
    · refine .cons (fun _ => trivial) ?_
      split
      · exact .cons (fun _ => trivial) .nil
      · exact .andThen fun _ => .enqueue rfl .nil
  | write path offset data =>
    simp only [Client.queueOps, writeOps, recordOps]
    refine ⟨trivial, fun next found => ?_⟩
    obtain rfl := Except.ok.inj found
    split
    · exact ⟨trivial, fun _ _ => trivial⟩
    · next miss =>
      cases known : recfsGetTimestamp path client with
      | error stop => exact trivial
      | ok baseVersion =>
        refine ⟨fun _ => ?_, fun _ _ => trivial⟩
        rw [(formed.queue.tidy.syncFind path).2.1]
        exact formed.queue.tidy.not_found miss
  | syncExecute => exact ⟨trivial, fun _ _ => trivial⟩
  | relDequeue => exact trivial

/-! ## The operations make up the handlers -/

section Replay

variable {rest : List QueueOp}

theorem replay_packPath {packed : Client} (packing : syncPackWritePath env path client = .ok packed) :
    Transition.replay QueueOp.run (.packPath env path client :: rest) client.queue =
      Transition.replay QueueOp.run rest packed.queue := by
  simp only [Transition.replay, QueueOp.run, packing, Except.map, bind, Except.bind]

theorem replay_enqueue {op : Op} {src dst : Path} {para : Option (Fin 5 → UInt64)} {bn : Option (List BufInfo)}
    {localtime baseVersion : UInt64}
    (entered : syncEnqueue op src dst para bn none localtime baseVersion queue = .ok queue') :
    Transition.replay QueueOp.run (.enqueue op src dst para bn localtime baseVersion :: rest) queue =
      Transition.replay QueueOp.run rest queue' := by
  simp only [Transition.replay, QueueOp.run, entered, bind, Except.bind]

theorem replay_unlinkDelta {deltaFile : Path} {para : Fin 5 → UInt64} {fromVersion newTimestamp base : UInt64}
    {unlinked : SyncQueue} (first : syncEnqueue .unlink source [] none none none fromVersion 0 queue = .ok unlinked)
    (second : syncEnqueue .delta deltaFile target (some para) none none newTimestamp base (syncDelete source unlinked) =
      .ok queue') :
    Transition.replay QueueOp.run (unlinkDeltaOps source target deltaFile para fromVersion newTimestamp base) queue =
      .ok queue' := by
  rw [unlinkDeltaOps, replay_enqueue first]
  exact replay_enqueue second

theorem renameSyncOps_replay {fromVersion newTimestamp : UInt64}
    (synced : renameSync env source target fromVersion newTimestamp client = .ok after) :
    Transition.replay QueueOp.run (renameSyncOps env source target fromVersion newTimestamp client) client.queue =
      .ok after.queue := by
  simp only [renameSync] at synced
  rw [renameSyncOps]
  split at synced
  · next opens =>
    obtain ⟨packed, timestamp, deltaFile, computed, unlinked, queue, packing, known, computing, first, second, rfl⟩ :=
      renameOnto_eq_ok synced
    rw [if_pos opens, replay_packPath packing]
    simp only [andThen, packing, recfsGetTimestamp, known, require, computing]
    obtain ⟨old, new, delta, facts⟩ := computeDelta_eq_ok computing
    obtain ⟨_, _, _, _, _, _, _, rfl⟩ := facts.files
    exact replay_unlinkDelta first second
  · next closed =>
    rw [if_neg closed]
    cases related : relFind target client.rel with
    | none =>
      simp only [related] at synced ⊢
      obtain ⟨packed, queue, packing, queued, rfl⟩ := renamePlain_eq_ok synced
      exact (replay_packPath packing).trans (replay_enqueue queued)
    | some rh =>
      simp only [related] at synced ⊢
      obtain ⟨deltaFile, computed, check, computing, known, outcome⟩ := renameRelated_eq_ok synced
      simp only [andThen, computing, recfsGetTimestamp, known, require]
      obtain ⟨old, new, delta, facts⟩ := computeDelta_eq_ok computing
      obtain ⟨_, _, _, _, _, _, _, rfl⟩ := facts.files
      rcases outcome with ⟨current, unlinked, queue, first, second, rfl⟩ | ⟨changed, packed, queue, packing, queued, rfl⟩
      · rw [if_pos current]
        exact replay_unlinkDelta first second
      · rw [if_neg changed]
        exact (replay_packPath packing).trans (replay_enqueue queued)

theorem linkSyncOps_replay {fromVersion : UInt64} (synced : linkSync env source target fromVersion client = .ok after) :
    Transition.replay QueueOp.run (linkSyncOps env source target fromVersion client) client.queue = .ok after.queue := by
  simp only [linkSync] at synced
  rw [linkSyncOps]
  cases related : relFind target client.rel with
  | some rh =>
    simp only [related] at synced ⊢
    obtain ⟨first, packed, deltaFile, computed, check, packing, packing', computing, known, outcome⟩ :=
      linkRelated_eq_ok synced
    simp only [replay_packPath packing, andThen, packing, replay_packPath packing', packing', computing,
      recfsGetTimestamp, known, require]
    obtain ⟨old, new, delta, facts⟩ := computeDelta_eq_ok computing
    obtain ⟨_, _, _, _, _, _, _, rfl⟩ := facts.files
    rcases outcome with ⟨current, queue, queued, rfl⟩ | ⟨changed, rfl⟩
    · rw [if_pos current]
      exact replay_enqueue queued
    · rw [if_neg changed]
      rfl
  | none =>
    simp only [related] at synced ⊢
    exact congrArg _ (congrArg Client.queue (Except.ok.inj synced))

theorem recordOps_replay {record : BufInfo} {enqueue : UInt64 → QueueOp}
    (outcome : (∃ sh, (syncFind path client.queue).1 = some sh ∧
        queue' = (syncFind path client.queue).2.modifyNode sh.loc (SyncNode.appended record)) ∨
      (syncFind path client.queue).1 = none ∧ ∃ version, client.db path = some version ∧
        (enqueue version).run (syncFind path client.queue).2 = .ok queue') :
    Transition.replay QueueOp.run (recordOps path record enqueue client) client.queue = .ok queue' := by
  rw [recordOps]
  rcases outcome with ⟨sh, hit, rfl⟩ | ⟨miss, version, known, entered⟩
  · rw [hit]
    rfl
  · have asked : recfsGetTimestamp path client = .ok version := by simp only [recfsGetTimestamp, known, require]
    rw [miss, asked]
    change (enqueue version).run (syncFind path client.queue).2 >>= Transition.replay QueueOp.run [] = .ok queue'
    rw [entered]
    rfl

end Replay

/-- Replaying the operations of a call that returns gives the queue that it leaves. -/
theorem Client.queueOps_replay {event : Event} (stepped : client.next event = .ok after) :
    Transition.replay QueueOp.run (client.queueOps event) client.queue = .ok after.queue := by
  obtain ⟨env, call⟩ := event
  obtain ⟨outcome, ran, rfl⟩ := next_eq_ok stepped
  have setattr {op : Op} {path : Path} {para : List UInt64}
      (handled : xmpSetattr env op path para client = .ok (outcome.res, outcome.client)) :
      Transition.replay QueueOp.run (setattrOps op path para) client.queue = .ok outcome.client.queue := by
    obtain ⟨queue, queued, ⟨-, same⟩ | ⟨fs, -, -, same⟩⟩ := xmpSetattr_eq_ok handled
    · exact (replay_enqueue queued).trans (by rw [same]; rfl)
    · exact (replay_enqueue queued).trans (by rw [same]; rfl)
  cases call with
  | mknod path mode rdev =>
    have handled := (ofHandled_eq_ok ran).1
    simp only [xmpMknod, increaseRecfsCnt, recfsUpdateTimestamp] at handled
    simp only [Client.queueOps, mknodOps, increaseRecfsCnt, recfsUpdateTimestamp]
    rcases syscall_cases env (·.openExcl path) 0 { client with
        recfsCnt := client.recfsCnt + 1, db := Function.update client.db path (some client.newVersion) } with
      ⟨errno, called⟩ | ⟨-, fs, opened, called⟩
    · rw [Client.newVersion] at called
      simp only [called, errno.neg_code, ↓reduceIte] at handled ⊢
      exact congrArg (fun after => Except.ok after.2.queue) (Except.ok.inj handled)
    · rw [Client.newVersion] at called
      simp only [called, lt_irrefl, ↓reduceIte, Except.bind_eq_ok] at handled ⊢
      obtain ⟨packed, packing, enqueued, enqueuing, same⟩ := handled
      obtain ⟨queue, queued, rfl⟩ := enqueue_eq_ok enqueuing
      refine (replay_packPath packing).trans ((replay_enqueue queued).trans ?_)
      exact congrArg (fun after => Except.ok after.2.queue) (Except.ok.inj same)
  | mkdir path mode =>
    have handled := (ofHandled_eq_ok ran).1
    simp only [xmpMkdir, increaseRecfsCnt, recfsUpdateTimestamp] at handled
    simp only [Client.queueOps, mkdirOps]
    rcases syscall_cases env (·.mkdir path) 0 client with ⟨errno, called⟩ | ⟨-, fs, made, called⟩
    · simp only [called, errno.neg_code, ↓reduceIte] at handled ⊢
      exact congrArg (fun after => Except.ok after.2.queue) (Except.ok.inj handled)
    · simp only [called, lt_irrefl, ↓reduceIte, Except.bind_eq_ok] at handled ⊢
      obtain ⟨enqueued, enqueuing, same⟩ := handled
      obtain ⟨queue, queued, rfl⟩ := enqueue_eq_ok enqueuing
      refine (replay_enqueue queued).trans ?_
      exact congrArg (fun after => Except.ok after.2.queue) (Except.ok.inj same)
  | unlink path =>
    have handled := (ofHandled_eq_ok ran).1
    simp only [xmpUnlink, increaseRecfsCnt, recfsUpdateTimestamp, recfsDelTimestamp, Except.bind_eq_ok] at handled
    obtain ⟨version, known, packed, packing, handled⟩ := handled
    simp only [Client.queueOps, unlinkOps, known, andThen, replay_packPath packing, packing]
    rcases syscall_cases env (·.rename path (tmpPath path)) 0 { packed with
      rel := relDeleteSrc path (relDeleteDst path packed.rel) } with ⟨errno, called⟩ | ⟨-, fs, moved, called⟩
    · simp only [called, errno.neg_code, ↓reduceIte] at handled ⊢
      exact congrArg (fun after => Except.ok after.2.queue) (Except.ok.inj handled)
    · simp only [called, lt_irrefl, ↓reduceIte, Except.bind_eq_ok] at handled ⊢
      obtain ⟨enqueued, enqueuing, related, relating, same⟩ := handled
      obtain ⟨queue, queued, rfl⟩ := enqueue_eq_ok enqueuing
      obtain ⟨rel, entered, rfl⟩ := relEnqueue_eq_ok relating
      refine (replay_enqueue queued).trans ?_
      exact congrArg (fun after => Except.ok after.2.queue) (Except.ok.inj same)
  | rmdir path =>
    obtain ⟨version, queue, known, queued, outcome⟩ := xmpRmdir_eq_ok (ofHandled_eq_ok ran).1
    simp only [Client.queueOps, rmdirOps, andThen, recfsGetTimestamp, known, require]
    rcases outcome with ⟨-, same⟩ | ⟨fs, -, -, same⟩
    · exact (replay_enqueue queued).trans (by rw [same]; rfl)
    · exact (replay_enqueue queued).trans (by rw [same]; rfl)
  | rename source target =>
    obtain ⟨version, synced, rel, known, syncing, -, outcome⟩ := xmpRename_eq_ok (ofHandled_eq_ok ran).1
    simp only [Client.queueOps, renameOps, andThen, recfsGetTimestamp, known, require]
    have replayed := renameSyncOps_replay syncing
    rcases outcome with ⟨-, same⟩ | ⟨fs, -, -, same⟩
    · exact same ▸ replayed
    · exact same ▸ replayed
  | link source target =>
    obtain ⟨version, synced, queue, known, syncing, queued, outcome⟩ := xmpLink_eq_ok (ofHandled_eq_ok ran).1
    simp only [Client.queueOps, linkOps, andThen, recfsGetTimestamp, known, require, Transition.replay_append,
      linkSyncOps_replay syncing, syncing, bind, Except.bind, replay_enqueue queued]
    rcases outcome with ⟨-, same⟩ | ⟨fs, -, -, same⟩
    · rw [same]
      rfl
    · rw [same]
      rfl
  | chmod path mode => exact setattr (ofHandled_eq_ok ran).1
  | chown path uid gid => exact setattr (ofHandled_eq_ok ran).1
  | utimens path accessed modified => exact setattr (ofHandled_eq_ok ran).1
  | truncate path size =>
    obtain ⟨synced, syncing, outcome'⟩ := xmpTruncate_eq_ok (ofHandled_eq_ok ran).1
    have same : outcome.client.queue = synced.queue := by
      rcases outcome' with ⟨-, same⟩ | ⟨fs, -, -, same⟩
      · rw [same]
      · rw [same]
    rw [same]
    rcases truncateSync_eq_ok syncing with ⟨zero, rfl⟩ | ⟨positive, sh, hit, rfl⟩ | ⟨positive, miss, version, queue,
      known, queued, rfl⟩
    · simp only [Client.queueOps, truncateOps, if_pos zero]
      rfl
    · simp only [Client.queueOps, truncateOps, if_neg positive]
      exact recordOps_replay (.inl ⟨sh, hit, rfl⟩)
    · simp only [Client.queueOps, truncateOps, if_neg positive]
      exact recordOps_replay (.inr ⟨miss, version, known, queued⟩)
  | write path offset data =>
    obtain ⟨synced, syncing, outcome'⟩ := xmpWrite_eq_ok (ofHandled_eq_ok ran).1
    have same : outcome.client.queue = synced.queue := by
      rcases outcome' with ⟨-, same⟩ | ⟨fs, -, -, -, same⟩
      · rw [same]
      · rw [same]
    rw [same]
    rcases writeSync_eq_ok syncing with ⟨sh, hit, rfl⟩ | ⟨miss, version, queue, known, queued, rfl⟩
    · exact recordOps_replay (.inl ⟨sh, hit, rfl⟩)
    · exact recordOps_replay (.inr ⟨miss, version, known, queued⟩)
  | syncExecute =>
    simp only [Client.queueOps, Transition.replay, QueueOp.run, (step_syncExecute ran).1, Except.map, bind, Except.bind]
  | relDequeue =>
    obtain rfl := Except.ok.inj ran
    rfl

/-! ## The cache -/

/-- What `HASH_FIND` finds. -/
def hashFind (path : Path) (queue : SyncQueue) : Option SyncHash := queue.shs.find? fun sh => decide (sh.path = path)

/-- `sync_find` answers as the hash does, and a cached result is the entry of the cached path. -/
def CacheAgrees (queue : SyncQueue) : Prop :=
  (∀ path, (syncFind path queue).1 = hashFind path queue) ∧
    ∀ sh, queue.hashCacheResult = some sh → sh ∈ queue.shs ∧ sh.path = queue.hashCachePath

theorem syncFind_eq_hashFind (tidy : Tidy queue) (path : Path) : (syncFind path queue).1 = hashFind path queue := by
  cases hit : hashFind path queue with
  | none =>
    cases found : (syncFind path queue).1 with
    | none => rfl
    | some sh =>
      obtain ⟨member, named⟩ := tidy.found found
      exact absurd named (by simpa using List.find?_eq_none.mp hit sh member)
  | some sh =>
    have member := List.mem_of_find?_eq_some hit
    have named : sh.path = path := by simpa using List.find?_some hit
    cases found : (syncFind path queue).1 with
    | none => exact absurd named (tidy.not_found found sh member)
    | some other =>
      obtain ⟨member', named'⟩ := tidy.found found
      rw [tidy.eq_of_path member' member (named'.trans named.symm)]

theorem Tidy.cacheAgrees (tidy : Tidy queue) : CacheAgrees queue := ⟨syncFind_eq_hashFind tidy, tidy.cached⟩

/-- In every state that calls reach and in every state between two operations of the call that comes
next, also of one that ends the process, the cache agrees with the hash; so it does at every lookup of
the operation to be done then. The operations are all that the call does with the queue. -/
theorem cache_agrees (memory : Memory) (dirSize : Path → ℕ) (client : Client)
    (run : Transition.Run Client.next (fun _ _ => True) (Client.initial memory dirSize) client) (event : Event) :
    (∀ done queue, done <+: client.queueOps event →
        Transition.replay QueueOp.run done client.queue = .ok queue →
        CacheAgrees queue ∧
          ∀ op, done ++ [op] <+: client.queueOps event → ∀ inner ∈ op.lookups queue, CacheAgrees inner) ∧
      ∀ after, client.next event = .ok after →
        Transition.replay QueueOp.run (client.queueOps event) client.queue = .ok after.queue := by
  have formed := Client.WellFormed.of_run run
  refine ⟨fun done queue started replayed => ?_, fun after => Client.queueOps_replay⟩
  obtain ⟨rest, whole⟩ := started
  have allowed : Transition.AllAllowed QueueOp.run QueueOp.Safe done client.queue :=
    (whole ▸ Client.queueOps_allowed formed event).of_append
  have indexed : Indexed Set.univ queue :=
    (Transition.Run.of_replay done allowed replayed).invariant _ QueueOp.keeps formed.queue.indexed
  exact ⟨indexed.tidy.cacheAgrees, fun op _ inner member => (QueueOp.lookups_tidy indexed.tidy inner member).cacheAgrees⟩

/-- Two files wait and the second one has just been written to; then the first one is written to, which
takes a lookup and a record. -/
theorem cache_agrees_two_files :
    ∃ client after : Client,
      Transition.replay Client.next (twoPending ++ [⟨.plain, .write [47, 98] 1 [3]⟩]) Client.empty = .ok client ∧
      client.next ⟨.plain, .write [47, 97] 1 [3]⟩ = .ok after ∧
      client.queue.hashCacheResult = some ⟨[47, 98], 1⟩ ∧
      (client.queueOps ⟨.plain, .write [47, 97] 1 [3]⟩).length = 2 ∧
      CacheAgrees client.queue ∧ CacheAgrees (syncFind [47, 97] client.queue).2 ∧ CacheAgrees after.queue := by
  have replayed : ∃ client,
      Transition.replay Client.next (twoPending ++ [⟨.plain, .write [47, 98] 1 [3]⟩]) Client.empty = .ok client ∧
        (client.queue.hashCacheResult = some ⟨[47, 98], 1⟩ ∧
          (client.queueOps ⟨.plain, .write [47, 97] 1 [3]⟩).length = 2 ∧
          (client.next ⟨.plain, .write [47, 97] 1 [3]⟩).passes (fun _ => True) = true) :=
    Except.exists_ok (by decide +kernel)
  obtain ⟨client, replayed, cached, two, returns⟩ := replayed
  obtain ⟨after, stepped, -⟩ := Except.exists_ok returns
  have run := Transition.Run.of_replay _ (Transition.allAllowed_true _ Client.empty) replayed
  have agrees := cache_agrees _ _ client run ⟨.plain, .write [47, 97] 1 [3]⟩
  refine ⟨client, after, replayed, stepped, cached, two, (agrees.1 [] _ List.nil_prefix rfl).1, ?_, ?_⟩
  · exact (agrees.1 [.find [47, 97]] _ ⟨_, rfl⟩ rfl).1
  · exact (agrees.1 _ _ List.prefix_rfl (agrees.2 after stepped)).1

end DeltaCFS
