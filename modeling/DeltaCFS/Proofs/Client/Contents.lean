import DeltaCFS.Proofs.Client.PackEach
import DeltaCFS.Proofs.Client.VersionChain
import DeltaCFS.Proofs.Client.Scratch
import DeltaCFS.Proofs.StoredContent

/-! # What the versions stand for

Give every version a content. The files of the mount have the contents of their versions, a node of the
queue makes the content of its version from that of its base, and what is pending is read from its file
later. The files, the versions of the paths, the nodes and the relations change one after the other in a
handler, so each of them has its own rule.
-/

namespace DeltaCFS

open Bytes

variable {what what' origin origin' : UInt64 → Bytes} {dir : Dir} {fs fs' : FileSystem} {db db' : Path → Option UInt64}
  {sq : RingBuffer SyncNode} {rel rel' : RelTable} {path : Path} {version : UInt64} {slot : ℕ} {sn : SyncNode}

/-- The slot holds a node that is not deleted. -/
def Undeleted (sq : RingBuffer SyncNode) (slot : ℕ) : Prop :=
  slot < queueSize ∧ (sq.node slot).isEmpty = false ∧ (sq.node slot).isDelete = false

/-- What the node says about the content of its version. The writes of a node began with the content
`origin` of the file. -/
structure SyncNode.Carries (what origin : UInt64 → Bytes) (fs : FileSystem) (sn : SyncNode) : Prop where
  rename : sn.op = .rename → what sn.time = what sn.baseVer
  truncate : sn.op = .truncate → what sn.time = resize ((sn.para 0).toNat % 2 ^ 32) (what sn.baseVer)
  newfile : sn.op = .newfile → sn.isPacked = true →
    sn.fileBuf = some (what sn.time) ∧ (sn.para 0).toNat = (what sn.time).length
  write : sn.op = .write → what sn.baseVer = origin sn.time ∧ ∃ records, sn.bn = some records ∧
    (∀ bi ∈ records, bi.Appended) ∧ applyRecords records (origin sn.time) = what sn.time ∧
    (sn.isPacked = true → ∀ bi ∈ records, bi.Arrives)
  delta : sn.op = .delta → tmpDir <+: sn.src ∧
    ∃ delta, fs.read sn.src = some delta ∧ serverPatch (what sn.baseVer) delta = .ok (true, what sn.time)

/-- The server, files, nodes and relations agree on what the versions stand for. The server has not got
the version of a node of the queue, and the version of a pending node is that of its file. -/
structure Contents (what origin : UInt64 → Bytes) (dir : Dir) (fs : FileSystem) (db : Path → Option UInt64)
    (sq : RingBuffer SyncNode) (rel : RelTable) : Prop where
  stored : ∀ version content, dir (verToName version) = some content → content = what version
  plain : fs.Plain
  files : ∀ path version, UserPath path → db path = some version → fs.read path = some (what version)
  stashed : ∀ src dst time, rel.Related src dst time → db dst = some time →
    ∀ content, fs.read dst = some content → content = what time
  nodes : ∀ slot, Undeleted sq slot → (sq.node slot).Carries what origin fs
  undelivered : ∀ slot, Undeleted sq slot → ∀ version, (sq.node slot).newVersion? = some version →
    dir (verToName version) = none
  pending : ∀ slot, Undeleted sq slot → (sq.node slot).Pending →
    UserPath (sq.node slot).src ∧ db (sq.node slot).src = some (sq.node slot).time

/-- The server has no file of the version, and neither a path nor a node of the queue speaks of it. -/
def Unmentioned (version : UInt64) (dir : Dir) (db : Path → Option UInt64) (sq : RingBuffer SyncNode) : Prop :=
  dir (verToName version) = none ∧ (∀ path, db path ≠ some version) ∧
    ∀ slot, Undeleted sq slot → version ∉ versionSupply.needs (sq.node slot) ∧ version ∉ versionSupply.gives (sq.node slot)

/-- No content depends on the file of the name. -/
structure Spare (db : Path → Option UInt64) (sq : RingBuffer SyncNode) (rel : RelTable) (name : Path) : Prop where
  file : UserPath name → db name = none
  stash : ∀ src time, rel.Related src name time → db name ≠ some time
  delta : ∀ slot, Undeleted sq slot → (sq.node slot).op = .delta → (sq.node slot).src ≠ name

/-- Nothing is pending for the path. -/
def Settled (sq : RingBuffer SyncNode) (path : Path) : Prop :=
  ∀ slot, Undeleted sq slot → (sq.node slot).Pending → (sq.node slot).src ≠ path

/-! ## Nodes -/

/-- The version of a node is its time. -/
theorem SyncNode.newVersion?_eq (sn : SyncNode) (versioned : sn.newVersion? = some version) : version = sn.time := by
  cases op : sn.op <;> simp only [newVersion?, op, Option.some.injEq, reduceCtorEq] at versioned
  all_goals exact versioned.symm

namespace SyncNode.Carries

/-- The node speaks of its version and of its base only. -/
theorem congr (carries : sn.Carries what origin fs) (alive : sn.isDelete = false)
    (same : ∀ version, version ∈ versionSupply.needs sn ∨ version ∈ versionSupply.gives sn →
      what' version = what version ∧ origin' version = origin version) : sn.Carries what' origin' fs := by
  have time (versioned : sn.newVersion? = some sn.time) := same sn.time (.inr ⟨alive, versioned⟩)
  have base (op : sn.op = .rename ∨ sn.op = .write ∨ sn.op = .truncate ∨ sn.op = .delta) :=
    same sn.baseVer (.inl ⟨alive, op, rfl⟩)
  refine ⟨fun op => ?_, fun op => ?_, fun op => ?_, fun op => ?_, fun op => ?_⟩
  · rw [(time (by simp [SyncNode.newVersion?, op])).1, (base (by simp [op])).1]
    exact carries.rename op
  · rw [(time (by simp [SyncNode.newVersion?, op])).1, (base (by simp [op])).1]
    exact carries.truncate op
  · rw [(time (by simp [SyncNode.newVersion?, op])).1]
    exact carries.newfile op
  · obtain ⟨here, began⟩ := time (by simp [SyncNode.newVersion?, op])
    rw [here, began, (base (by simp [op])).1]
    exact carries.write op
  · rw [(time (by simp [SyncNode.newVersion?, op])).1, (base (by simp [op])).1]
    exact carries.delta op

/-- Of the files the node needs its delta only. -/
theorem files (carries : sn.Carries what origin fs) (same : sn.op = .delta → fs'.read sn.src = fs.read sn.src) :
    sn.Carries what origin fs' :=
  { carries with delta := fun op => by rw [same op]; exact carries.delta op }

/-- A node that has no content of its own. -/
theorem of_plain (plain : sn.newVersion? = none) : sn.Carries what origin fs := by
  refine ⟨fun op => ?_, fun op => ?_, fun op => ?_, fun op => ?_, fun op => ?_⟩
  all_goals exact absurd plain (by simp [SyncNode.newVersion?, op])

end SyncNode.Carries

/-! ## Rules -/

namespace Contents

/-- The contents of versions that nobody speaks of may be chosen. -/
theorem choose (contents : Contents what origin dir fs db sq rel)
    (same : ∀ version, ¬ Unmentioned version dir db sq →
      what' version = what version ∧ origin' version = origin version) :
    Contents what' origin' dir fs db sq rel := by
  have known {path : Path} {version : UInt64} (found : db path = some version) : what' version = what version :=
    (same version fun unmentioned => unmentioned.2.1 path found).1
  refine { contents with
    stored := fun version content held => ?_
    files := fun path version user found => ?_
    stashed := fun src dst time related found content held => ?_
    nodes := fun slot alive => ?_ }
  · rw [(same version fun unmentioned => absurd (held.symm.trans unmentioned.1) (by simp)).1]
    exact contents.stored version content held
  · rw [known found]
    exact contents.files path version user found
  · rw [known found]
    exact contents.stashed src dst time related found content held
  · refine (contents.nodes slot alive).congr alive.2.2 fun version spoken => same version fun unmentioned => ?_
    obtain ⟨needs, gives⟩ := unmentioned.2.2 slot alive
    exact spoken.elim needs gives

theorem choose_update (contents : Contents what origin dir fs db sq rel) (free : Unmentioned version dir db sq)
    (content began : Bytes) :
    Contents (Function.update what version content) (Function.update origin version began) dir fs db sq rel := by
  refine contents.choose fun other mentioned => ?_
  have apart : other ≠ version := fun same => mentioned (same ▸ free)
  exact ⟨Function.update_of_ne apart .., Function.update_of_ne apart ..⟩

/-- A path with nothing pending loses its version. -/
theorem forget (contents : Contents what origin dir fs db sq rel) (settled : Settled sq path) :
    Contents what origin dir fs (Function.update db path none) sq rel := by
  refine { contents with
    files := fun other version user found => contents.files other version user (Linked.delete_cases found).2
    stashed := fun src dst time related found => contents.stashed src dst time related (Linked.delete_cases found).2
    pending := fun slot alive waits => ?_ }
  obtain ⟨user, known⟩ := contents.pending slot alive waits
  exact ⟨user, by rw [Function.update_of_ne (settled slot alive waits), known]⟩

/-- A path without a version gets one. -/
theorem assign (contents : Contents what origin dir fs db sq rel) (free : db path = none)
    (held : fs.read path = some (what version)) :
    Contents what origin dir fs (Function.update db path (some version)) sq rel := by
  refine { contents with
    files := fun other found user known => ?_
    stashed := fun src dst time related known content read => ?_
    pending := fun slot alive waits => ?_ }
  · rcases Linked.update_cases known with ⟨rfl, rfl⟩ | ⟨-, old⟩
    · exact held
    · exact contents.files other found user old
  · rcases Linked.update_cases known with ⟨rfl, rfl⟩ | ⟨-, old⟩
    · exact Option.some.inj (read.symm.trans held)
    · exact contents.stashed src dst time related old content read
  · obtain ⟨user, known⟩ := contents.pending slot alive waits
    refine ⟨user, ?_⟩
    rw [Function.update_of_ne, known]
    intro same
    rw [same, free] at known
    exact absurd known (by simp)

/-- Files change that no content depends on. -/
theorem change (contents : Contents what origin dir fs db sq rel) (plain : fs'.Plain)
    (kept : ∀ name, fs'.read name = fs.read name ∨ Spare db sq rel name) : Contents what origin dir fs' db sq rel := by
  refine { contents with
    plain := plain
    files := fun path version user found => ?_
    stashed := fun src dst time related found content held => ?_
    nodes := fun slot alive => (contents.nodes slot alive).files fun op => ?_ }
  · rcases kept path with same | spare
    · rw [same, contents.files path version user found]
    · exact absurd (found.symm.trans (spare.file user)) (by simp)
  · rcases kept dst with same | spare
    · exact contents.stashed src dst time related found content (same.symm.trans held)
    · exact absurd found (spare.stash src time related)
  · exact (kept (sq.node slot).src).resolve_right fun spare => spare.delta slot alive op rfl

/-- A name of the mount without a version is spare. -/
theorem spare (contents : Contents what origin dir fs db sq rel) (user : UserPath path) (free : db path = none) :
    Spare db sq rel path := by
  refine ⟨fun _ => free, fun src time _ => by simp [free], fun slot alive op => ?_⟩
  exact (user.ne_of_prefix ((contents.nodes slot alive).delta op).1).symm

/-- Relations go, or come for files that have the content of their version. -/
theorem relate (contents : Contents what origin dir fs db sq rel)
    (cases : ∀ src dst time, rel'.Related src dst time → rel.Related src dst time ∨ UserPath dst ∨
      fs.read dst = some (what time)) : Contents what origin dir fs db sq rel' := by
  refine { contents with stashed := fun src dst time related found content held => ?_ }
  rcases cases src dst time related with old | user | same
  · exact contents.stashed src dst time old found content held
  · exact Option.some.inj (held.symm.trans (contents.files dst time user found))
  · exact Option.some.inj (held.symm.trans same)

/-- The node of a slot is rewritten. -/
theorem modify (contents : Contents what origin dir fs db sq rel) {change : SyncNode → SyncNode}
    (carries : Undeleted (sq.modify slot change) slot → (change (sq.node slot)).Carries what origin fs)
    (undelivered : Undeleted (sq.modify slot change) slot → ∀ version,
      (change (sq.node slot)).newVersion? = some version → dir (verToName version) = none)
    (pending : Undeleted (sq.modify slot change) slot → (change (sq.node slot)).Pending →
      UserPath (change (sq.node slot)).src ∧ db (change (sq.node slot)).src = some (change (sq.node slot)).time) :
    Contents what origin dir fs db (sq.modify slot change) rel := by
  have here : (sq.modify slot change).node slot = change (sq.node slot) := by simp [RingBuffer.modify_node]
  have others {other : ℕ} (apart : other ≠ slot) : (sq.modify slot change).node other = sq.node other := by
    simp [RingBuffer.modify_node, apart]
  refine { contents with
    nodes := fun other alive => ?_
    undelivered := fun other alive => ?_
    pending := fun other alive => ?_ }
  · by_cases same : other = slot
    · subst same
      exact here ▸ carries alive
    · rw [Undeleted, others same] at alive
      exact others same ▸ contents.nodes other alive
  · by_cases same : other = slot
    · subst same
      exact here ▸ undelivered alive
    · rw [Undeleted, others same] at alive
      exact others same ▸ contents.undelivered other alive
  · by_cases same : other = slot
    · subst same
      exact here ▸ pending alive
    · rw [Undeleted, others same] at alive
      exact others same ▸ contents.pending other alive

/-- Nodes go. -/
theorem fewer {sq' : RingBuffer SyncNode} (contents : Contents what origin dir fs db sq rel)
    (kept : ∀ slot, Undeleted sq' slot → Undeleted sq slot ∧ sq'.node slot = sq.node slot) :
    Contents what origin dir fs db sq' rel := by
  refine { contents with
    nodes := fun slot alive => ?_
    undelivered := fun slot alive => ?_
    pending := fun slot alive => ?_ }
  · obtain ⟨old, same⟩ := kept slot alive
    exact same ▸ contents.nodes slot old
  · obtain ⟨old, same⟩ := kept slot alive
    exact same ▸ contents.undelivered slot old
  · obtain ⟨old, same⟩ := kept slot alive
    exact same ▸ contents.pending slot old

end Contents

/-! ## Queues -/

section Queues

variable {queue queue' : SyncQueue} {op : Op} {src dst : Path} {para : Option (Fin 5 → UInt64)}
  {bn : Option (List BufInfo)} {localtime baseVersion : UInt64}

/-- The slots after `sync_enqueue`. -/
theorem undeleted_enqueue (enqueued : syncEnqueue op src dst para bn none localtime baseVersion queue = .ok queue') :
    ∃ old : SyncNode, ∀ slot, Undeleted queue'.sq slot →
      (Undeleted queue.sq slot ∧ queue'.sq.node slot = queue.sq.node slot) ∨
        queue'.sq.node slot = old.enqueued op src dst para bn none localtime baseVersion := by
  simp only [syncEnqueue] at enqueued
  split at enqueued
  · obtain rfl := Except.ok.inj enqueued
    refine ⟨queue.sq.node queue.sq.tail, fun slot alive => ?_⟩
    by_cases last : slot = queue.sq.tail
    · subst last
      exact .inr (by simp [RingBuffer.push])
    · have same (node : SyncNode) : (queue.sq.push queueSize node).node slot = queue.sq.node slot := by
        simp [RingBuffer.push, last]
      simp only [Undeleted, same] at alive
      exact .inl ⟨alive, same _⟩
  · exact absurd enqueued (by simp)

/-- `sync_delete` deletes one node at most. -/
theorem undeleted_syncDelete (path : Path) (queue : SyncQueue) {slot : ℕ}
    (alive : Undeleted (syncDelete path queue).sq slot) :
    Undeleted queue.sq slot ∧ (syncDelete path queue).sq.node slot = queue.sq.node slot := by
  have ring := syncFind_sq path queue
  simp only [syncDelete] at alive ⊢
  split at alive
  · next sh looked hit =>
    rw [hit] at ring
    simp only at ring
    simp only [Undeleted, SyncQueue.modifyNode, hashDel, RingBuffer.modify_node, ring] at alive ⊢
    split at alive
    · exact absurd alive.2.2 (by simp)
    · next apart => exact ⟨alive, if_neg apart⟩
  · next looked miss =>
    rw [miss] at ring
    simp only at ring
    rw [ring] at alive ⊢
    exact ⟨alive, rfl⟩

/-- A complete table without an entry of the path. -/
theorem PendingTable.settled (table : PendingTable queue) (none : ∀ sh ∈ queue.shs, sh.path ≠ path) :
    Settled queue.sq path :=
  fun slot alive waits => none _ (table.complete slot alive.1 (by simp) alive.2.1 waits)

namespace Settled

/-- A node that is not buffered waits for nothing. -/
theorem enqueue (settled : Settled queue.sq path)
    (enqueued : syncEnqueue op src dst para bn none localtime baseVersion queue = .ok queue')
    (plain : op.isBuffered = false) : Settled queue'.sq path := by
  obtain ⟨old, cases⟩ := undeleted_enqueue enqueued
  intro slot alive waits
  rcases cases slot alive with ⟨before, same⟩ | new
  · rw [same] at waits ⊢
    exact settled slot before waits
  · rw [new] at waits
    exact absurd waits.1 (by simp [SyncNode.enqueued, plain])

theorem syncDelete (settled : Settled queue.sq path) (other : Path) : Settled (syncDelete other queue).sq path := by
  intro slot alive waits
  obtain ⟨before, same⟩ := undeleted_syncDelete other queue alive
  rw [same] at waits ⊢
  exact settled slot before waits

end Settled

namespace Contents

/-- A node enters the queue. -/
theorem enqueue (contents : Contents what origin dir fs db queue.sq rel)
    (enqueued : syncEnqueue op src dst para bn none localtime baseVersion queue = .ok queue')
    (carries : ∀ old : SyncNode, (old.enqueued op src dst para bn none localtime baseVersion).Carries what origin fs)
    (undelivered : op ≠ .unlink → dir (verToName localtime) = none)
    (pending : op.isBuffered = true → UserPath src ∧ db src = some localtime) :
    Contents what origin dir fs db queue'.sq rel := by
  obtain ⟨old, cases⟩ := undeleted_enqueue enqueued
  refine { contents with
    nodes := fun slot alive => ?_
    undelivered := fun slot alive version versioned => ?_
    pending := fun slot alive waits => ?_ }
  · rcases cases slot alive with ⟨before, same⟩ | new
    · exact same ▸ contents.nodes slot before
    · exact new ▸ carries old
  · rcases cases slot alive with ⟨before, same⟩ | new
    · exact contents.undelivered slot before version (same ▸ versioned)
    · rw [new] at versioned
      rw [(old.enqueued op src dst para bn none localtime baseVersion).newVersion?_eq versioned]
      exact undelivered fun op => by simp [SyncNode.newVersion?, SyncNode.enqueued, op] at versioned
  · rcases cases slot alive with ⟨before, same⟩ | new
    · rw [same] at waits ⊢
      exact contents.pending slot before waits
    · rw [new] at waits ⊢
      exact pending waits.1

theorem syncDelete (contents : Contents what origin dir fs db queue.sq rel) (path : Path) :
    Contents what origin dir fs db (syncDelete path queue).sq rel :=
  contents.fewer fun _ alive => undeleted_syncDelete path queue alive

/-- What is pending has its file. -/
theorem not_stuck {client : Client} (contents : Contents what origin dir client.fs db client.queue.sq client.rel)
    (tidy : Tidy client.queue) (path : Path) : ¬ Stuck client path := by
  rintro ⟨sh, member, rfl, -, -, missing⟩
  obtain ⟨bound, occupied, waits, named⟩ := tidy.refers sh member
  obtain ⟨user, known⟩ := contents.pending sh.loc ⟨bound, occupied, waits.2.2⟩ waits
  rw [named] at user known
  exact missing (FileSystem.regular_iff_read.mpr ⟨_, contents.files _ _ user known⟩)

end Contents

end Queues

/-! ## Deltas -/

namespace DeltaComputed

variable {env : Env} {client after : Client} {originfile newfile basefile : Path} {old new delta : Bytes}

/-- The file is read before anything is written to it. -/
theorem old_of_plain (computed : DeltaComputed env originfile newfile basefile client path after old new delta)
    (plain : client.fs.Plain) (apart : originfile ≠ sigPath basefile) : client.fs.read originfile = some old := by
  obtain ⟨opened, opens, oldRead⟩ := computed.old_read
  rwa [plain.unshared.read_store opens, if_neg apart] at oldRead

/-- Without a second name for a file, the delta and the signature are all that changes. -/
theorem of_plain (computed : DeltaComputed env originfile newfile basefile client path after old new delta)
    (plain : client.fs.Plain) (user : UserPath newfile) :
    after.fs.Plain ∧ client.fs.read newfile = some new ∧ ∀ name, after.fs.read name =
      if name = path then some delta else if name = sigPath basefile then none else client.fs.read name := by
  have named := computed.path_eq
  obtain ⟨opened, created, stored, ⟨_, -, sigOpened⟩, deltaOpened, newRead, deltaStored, rfl⟩ := computed.files
  have opens := plain.store sigOpened
  have removes := opens.remove (sigPath basefile)
  have creates := removes.store deltaOpened
  have notDelta : newfile ≠ path := by
    rw [named]
    exact user.ne_of_prefix (tmpDir_prefix_deltaPath ..)
  have notSig : newfile ≠ sigPath basefile := user.ne_of_prefix (tmpDir_prefix_sigPath basefile)
  refine ⟨creates.store deltaStored, ?_, fun name => ?_⟩
  · rw [removes.unshared.read_store deltaOpened, if_neg notDelta, FileSystem.read_remove, if_neg notSig,
      plain.unshared.read_store sigOpened, if_neg notSig] at newRead
    exact newRead
  · rw [creates.unshared.read_store deltaStored, removes.unshared.read_store deltaOpened, FileSystem.read_remove,
      plain.unshared.read_store sigOpened]
    split
    · rfl
    · split
      · rfl
      · rfl

end DeltaComputed

end DeltaCFS
