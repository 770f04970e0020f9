import DeltaCFS.Proofs.BasesHeld
import DeltaCFS.Proofs.Client.MoveContents

/-! # Convergence

Whenever the queue is empty, the server holds every file of the mount, under the version of its path,
with the content it has at the client. What a version stands for changes while its node is pending, and
is fixed when the node is sent; so the invariant is about a content for every version.
-/

namespace DeltaCFS

open Bytes

variable {what origin : UInt64 → Bytes} {dir : Dir} {env : Env} {server : ServerEnv} {client after packed : Client}
  {system later : System} {sn : SyncNode} {res : ℤ}

/-! ## Rounds -/

/-- The start of a round leaves the head in its slot, and packs it unless its file is not there. -/
theorem packHead_head (holds : client.queue.Holds fun _ => True) (packing : packHead env client = .ok packed)
    (occupied : (client.node client.queue.sq.head).isEmpty = false) :
    packed.queue.sq.head = client.queue.sq.head ∧ (packed.node client.queue.sq.head).isEmpty = false ∧
      ((packed.node client.queue.sq.head).Pending → packed.fs.read (packed.node client.queue.sq.head).src = none) := by
  obtain ⟨tidy, nodes, ⟨fifo, queued, -⟩, -⟩ := holds
  have same := (SameRing.rule env client.queue).packHead packing tidy queued.head_lt occupied ⟨rfl, rfl, fun _ => rfl⟩
  refine ⟨same.head, (same.flags _).trans occupied, fun pending => ?_⟩
  rcases packHead_run tidy packing with ⟨settled, rfl⟩ | ⟨-, queue, middle, touched, -, -, -, -, -, one⟩
  · exact absurd pending settled
  · obtain ⟨-, -, -, -, done | ⟨rfl, -, -, missing⟩⟩ := one.frame
    · exact absurd pending (SyncNode.not_pending_of_packed done)
    · exact missing

/-- What the node that is sent makes at the server. -/
theorem SyncNode.Carries.makes (carries : sn.Carries what origin client.fs) (alive : sn.isDelete = false)
    (settled : ¬ sn.Pending)
    (steps : sn.op = .newfile → ∀ k, InStep server.schedule (sn.fileBuf.getD []) k) :
    sn.Makes client.fs.read server.schedule (what sn.baseVer) (what sn.time) := by
  have packed (buffered : sn.op.isBuffered = true) : sn.isPacked = true := by
    by_contra unpacked
    exact settled ⟨buffered, by simpa using unpacked, alive⟩
  refine ⟨carries.rename, carries.truncate, fun op => ?_, fun op => ?_, fun op => (carries.delta op).2⟩
  · obtain ⟨buffer, length⟩ := carries.newfile op (packed (by simp [op, Op.isBuffered]))
    have steps := steps op
    rw [buffer, Option.getD_some] at steps
    exact ⟨buffer, length, steps⟩
  · obtain ⟨began, records, buffered, appended, applied, arrives⟩ := carries.write op
    have arrived := arrives (packed (by simp [op, Op.isBuffered]))
    rw [began]
    exact ⟨records, buffered, fun bi member => ⟨appended bi member, arrived bi member⟩, applied.symm⟩

namespace Contents

/-- The node that a round sends has been packed, and carries what its version stands for. -/
theorem round {sent : Option SyncNode}
    (contents : Contents what origin dir client.fs client.db client.queue.sq client.rel) (linked : Linked dir client)
    (each : packsEachHead (PacksTruly origin env) env client) (executed : syncExecute env client = .ok (sent, after)) :
    Contents what origin dir after.fs after.db after.queue.sq after.rel ∧ ∀ sn, sent = some sn →
      sn.Carries what origin after.fs ∧ ¬ sn.Pending ∧
        ∀ version, sn.newVersion? = some version → dir (verToName version) = none := by
  rcases syncExecute_eq_ok executed with ⟨-, rfl, rfl⟩ | ⟨occupied, packed, packing, rfl, rfl⟩
  · exact ⟨contents, by simp⟩
  have tidy := linked.queue.tidy
  have inside : client.queue.sq.head < queueSize := by
    obtain ⟨-, nodes, ⟨fifo, queued, -⟩, -⟩ := linked.queue
    exact queued.head_lt
  obtain ⟨sameDb, sameRel, ready⟩ := (Contents.packRule env client (fun _ _ => rfl) fun _ _ _ _ => id).packHead packing
    tidy inside occupied each ⟨rfl, rfl, contents⟩
  obtain ⟨head, still, missing⟩ := packHead_head (linked.queue.imp fun _ _ => trivial) packing occupied
  constructor
  · rw [sameDb]
    apply ready.fewer
    intro slot alive
    have unpopped : slot ≠ packed.queue.sq.head ∧ (DeltaCFS.syncDequeue packed.queue).sq.node slot =
        packed.queue.sq.node slot := by
      simp only [Undeleted, DeltaCFS.syncDequeue, head, show (packed.queue.sq.node client.queue.sq.head).isEmpty = false
        from still, Bool.false_eq_true, ↓reduceIte, RingBuffer.pop, Function.update_apply] at alive ⊢
      split at alive
      · exact absurd alive.2.1 (by simp)
      · next apart => exact ⟨apart, if_neg apart⟩
    rw [Undeleted, unpopped.2] at alive
    exact ⟨alive, unpopped.2⟩
  · intro sn sends
    split at sends
    · exact absurd sends (by simp)
    · next kept =>
      obtain rfl := Option.some.inj sends
      have alive : Undeleted packed.queue.sq client.queue.sq.head := ⟨inside, still, (Bool.not_eq_true _).mp kept⟩
      refine ⟨ready.nodes _ alive, fun pending => ?_, ready.undelivered _ alive⟩
      -- its file has a version, so it is there
      obtain ⟨user, known⟩ := ready.pending _ alive pending
      exact absurd ((missing pending).symm.trans (ready.files _ _ user known)) (by simp)

/-- The server stores what the version of the node stands for. -/
theorem deliver (contents : Contents what origin system.dir after.fs after.db after.queue.sq after.rel)
    (alive : sn.isDelete = false) (carries : sn.Carries what origin after.fs) (settled : ¬ sn.Pending)
    (fresh : ∀ version, sn.newVersion? = some version → system.dir (verToName version) = none)
    (holds : after.queue.Holds fun rest => Chain (heldBy system.dir) after.rel after.db after.recfsCnt.toNat (sn :: rest))
    (steps : sn.op = .newfile → ∀ k, InStep server.schedule (sn.fileBuf.getD []) k)
    (delivered : system.deliver server sn after = .ok later) :
    Contents what origin later.dir later.client.fs later.client.db later.client.queue.sq later.client.rel := by
  simp only [System.deliver] at delivered
  split at delivered
  · exact absurd delivered (by simp)
  · obtain rfl := Except.ok.inj delivered
    exact contents
  next message transmitted =>
  split at delivered
  · exact absurd delivered (by simp)
  next reply served =>
  obtain rfl := Except.ok.inj delivered
  have transmits := syncSend_transmits transmitted
  rcases serve_delivers transmits served with ⟨-, same⟩ | ⟨versioned, -⟩
  · exact same ▸ contents
  have new := fresh sn.time versioned
  obtain ⟨-, rest, lists, chain⟩ := holds
  have base (op : sn.op ≠ .newfile) : ∃ content, system.dir (verToName sn.baseVer) = some content := by
    have based : sn.op = .rename ∨ sn.op = .write ∨ sn.op = .truncate ∨ sn.op = .delta := by
      cases kind : sn.op <;> simp_all [SyncNode.newVersion?]
    exact Option.isSome_iff_exists.mp (chain.supplied.1 ⟨alive, based, rfl⟩)
  have stores : Stores sn (what sn.time) system.dir reply.dir := by
    apply serve_stores transmits served versioned
    · intro op same
      obtain ⟨content, held⟩ := base op
      exact absurd (held.symm.trans (same ▸ new)) (by simp)
    · intro op
      obtain ⟨content, held⟩ := base op
      rw [held, contents.stored _ _ held]
    · exact carries.makes alive settled steps
  refine { contents with
    stored := fun version content held => ?_
    undelivered := fun slot waits version versioned' => ?_ }
  · by_cases same : version = sn.time
    · subst same
      exact Option.some.inj (held.symm.trans stores.1)
    · exact contents.stored version content (stores.2 _ (fun name => same (verToName_injective name)) content held)
  · -- the versions of the queue are above the one that is sent
    have above : sn.time.toNat < version.toNat := by
      have increases := chain.ranked.increases
      simp only [versions, List.nil_append, List.filterMap_cons, versioned, Option.map_some, List.pairwise_cons] at increases
      exact increases.1 _ (List.mem_filterMap.mpr ⟨_, lists.mem waits.1 waits.2.1, by simp [versioned']⟩)
    by_contra held
    obtain ⟨content, held⟩ := Option.ne_none_iff_exists'.mp held
    have old := stores.2 _ (fun name => above.ne (congrArg UInt64.toNat (verToName_injective name).symm)) content held
    exact absurd (old.symm.trans (contents.undelivered slot waits version versioned')) (by simp)

end Contents

/-! ## Events -/

/-- A system, with what the writes of every version began from. -/
structure Traced where
  system : System
  origin : UInt64 → Bytes

/-- A restart begins nothing. -/
def SystemEvent.began (event : SystemEvent) (client : Client) (origin : UInt64 → Bytes) : UInt64 → Bytes :=
  match event with
  | .call event _ => event.began client origin
  | .restart _ => origin

def Traced.next (event : SystemEvent) (traced : Traced) : Except Crash Traced := do
  let system ← traced.system.next event
  return ⟨system, event.began traced.system.client traced.origin⟩

def Traced.initial (memory : Memory) (dirSize : Path → ℕ) : Traced := ⟨System.initial memory dirSize, fun _ => []⟩

/-- The calls name files of the mount, what they pack they pack truly, and the message of a whole file
arrives in step. -/
def Call.Sound (call : Call) (env : Env) (server : ServerEnv) (client : Client) (origin : UInt64 → Bytes) : Prop :=
  match call with
  | .mknod path _ _ => UserPath path
  | .unlink path => UserPath path ∧ packsEachPath (PacksTruly origin env) env path client ∧
    ∀ packed, syncPackWritePath env path client = .ok packed → packed.Avoids (tmpPath path)
  | .rename source target => UserPath source ∧ UserPath target ∧
    (env.openFails = true → client.fs.entry target = none) ∧
    RenamesTruly origin env source target client.newVersion (increaseRecfsCnt (recfsDelTimestamp source client)).2
  | .truncate path size => UserPath path ∧ (size = 0 → client.fs.read path = some []) ∧
    ((syncFind path client.queue).1 = none → size < 2 ^ 32)
  | .write path _ _ => UserPath path
  | .syncExecute => packsEachHead (PacksTruly origin env) env client ∧
    ∀ sn after, DeltaCFS.syncExecute env client = .ok (some sn, after) → sn.op = .newfile →
      ∀ k, InStep server.schedule (sn.fileBuf.getD []) k
  | _ => True

/-- A call that keeps bases and is sound. -/
def Faithful (event : SystemEvent) (traced : Traced) : Prop :=
  KeepsBases event traced.system ∧
    match event with
    | .call event server => event.call.Sound event.env server traced.system.client traced.origin
    | .restart _ => True

/-- Every file of the mount has a version. -/
def Client.Versioned (client : Client) : Prop :=
  ∀ path content, UserPath path → client.fs.read path = some content → (client.db path).isSome

namespace Client.Versioned

/-- A file that is there afterwards was there before, or has got a version. -/
theorem kept (versioned : client.Versioned)
    (cases : ∀ path content, UserPath path → after.fs.read path = some content →
      (after.db path).isSome ∨ (∃ old, client.fs.read path = some old) ∧ after.db path = client.db path) :
    after.Versioned := by
  intro path content user held
  rcases cases path content user held with known | ⟨⟨old, before⟩, same⟩
  · exact known
  · exact same ▸ versioned path old user before

/-- Every call on regular files that succeeds leaves such a mount. -/
theorem step {event : Event} (versioned : client.Versioned) (mounted : Mounted client) (formed : client.WellFormed)
    (regular : RegularCall event client) (stepped : client.next event = .ok after) : after.Versioned := by
  obtain ⟨env, call⟩ := event
  obtain ⟨onFiles, succeeds⟩ := regular
  obtain ⟨outcome, ran, rfl⟩ := next_eq_ok stepped
  have done := succeeds outcome ran
  apply versioned.kept
  intro other content user held
  cases call with
  | mknod path mode rdev =>
    obtain ⟨handled, -⟩ := ofHandled_eq_ok ran
    obtain ⟨-, reads⟩ := mounted.plain.mknod formed.queue.tidy handled done
    obtain ⟨db, -⟩ := xmpMknod_db formed.queue.tidy handled
    rw [reads other user] at held
    rw [db]
    by_cases same : other = path
    · exact .inl (by simp [same])
    · exact .inr ⟨⟨content, by rwa [if_neg same] at held⟩, Function.update_of_ne same ..⟩
  | unlink path =>
    obtain ⟨handled, -⟩ := ofHandled_eq_ok ran
    obtain ⟨-, reads⟩ := mounted.plain.unlink formed.queue.tidy handled done
    obtain ⟨db, -⟩ := xmpUnlink_db formed.queue.tidy handled done
    rw [reads other user] at held
    split at held
    · exact absurd held (by simp)
    · next apart =>
      rw [db, Function.update_of_ne apart, Function.update_of_ne (user.ne_of_prefix (tmpDir_prefix_tmpPath path))]
      exact .inr ⟨⟨content, held⟩, rfl⟩
  | rename source target =>
    obtain ⟨handled, -⟩ := ofHandled_eq_ok ran
    obtain ⟨_, -, -, reads⟩ := mounted.plain.xmpRename formed.queue.tidy handled done
    obtain ⟨db, -⟩ := xmpRename_db formed.queue handled
    rw [reads other user] at held
    rw [db]
    by_cases arrives : other = target
    · exact .inl (by simp [arrives])
    · rw [if_neg arrives] at held
      split at held
      · exact absurd held (by simp)
      · next apart =>
        rw [Function.update_of_ne arrives, Function.update_of_ne apart]
        exact .inr ⟨⟨content, held⟩, rfl⟩
  | truncate path size =>
    obtain ⟨handled, -⟩ := ofHandled_eq_ok ran
    obtain ⟨old, before, -, reads⟩ := mounted.plain.xmpTruncate handled done
    have there : ∃ old, client.fs.read other = some old := by
      rw [reads] at held
      split at held
      · next same => exact ⟨old, same ▸ before⟩
      · exact ⟨content, held⟩
    obtain ⟨synced, syncing, ⟨failed, -⟩ | ⟨fs, -, -, same⟩⟩ := xmpTruncate_eq_ok handled
    · omega
    rw [same]
    rcases truncateSync_eq_ok syncing with ⟨-, rfl⟩ | ⟨-, sh, -, rfl⟩ | ⟨-, -, version, queue, -, -, rfl⟩
    · exact .inr ⟨there, rfl⟩
    · exact .inr ⟨there, rfl⟩
    · by_cases here : other = path
      · exact .inl (by simp [here])
      · exact .inr ⟨there, Function.update_of_ne here ..⟩
  | write path offset data =>
    obtain ⟨handled, -⟩ := ofHandled_eq_ok ran
    obtain ⟨old, before, -, reads⟩ := mounted.plain.xmpWrite handled done
    have there : ∃ old, client.fs.read other = some old := by
      rw [reads] at held
      split at held
      · next same => exact ⟨old, same ▸ before⟩
      · exact ⟨content, held⟩
    obtain ⟨synced, syncing, ⟨failed, -⟩ | ⟨fs, -, -, -, same⟩⟩ := xmpWrite_eq_ok handled
    · omega
    rw [same]
    rcases writeSync_eq_ok syncing with ⟨sh, -, rfl⟩ | ⟨-, version, queue, -, -, rfl⟩
    · exact .inr ⟨there, rfl⟩
    · by_cases here : other = path
      · exact .inl (by simp [here])
      · exact .inr ⟨there, Function.update_of_ne here ..⟩
  | syncExecute =>
    obtain ⟨executed, -⟩ := step_syncExecute ran
    have agrees := (FileSystem.Agrees.temporary client.fs).syncExecute executed formed.queue (.refl mounted.plain)
    have there : client.fs.read other = some content := (agrees.read_eq other user).symm.trans held
    rcases SyncQueue.Holds.syncExecute executed formed.queue (Formed.packKeeps env _) with ⟨-, same⟩ | ⟨⟨db, -⟩, -⟩
    · exact .inr ⟨⟨content, there⟩, by rw [same]⟩
    · exact .inr ⟨⟨content, there⟩, by rw [db]⟩
  | relDequeue =>
    obtain rfl := Except.ok.inj ran
    exact .inr ⟨⟨content, held⟩, rfl⟩
  | _ => simp [Call.onFiles] at onFiles

end Client.Versioned

/-! ## Runs -/

/-- A call other than a round of `sync_execute`. -/
theorem Contents.call {call : Call} {outcome : Outcome}
    (contents : Contents what origin dir client.fs client.db client.queue.sq client.rel)
    (linked : Linked dir client) (state : MountState client) (onFiles : call.onFiles = true)
    (handler : call ≠ .syncExecute) (bound : call.counts = true → client.recfsCnt.toNat + 1 < counterBound)
    (settled : TruncatesSettled call client) (sound : call.Sound env server client origin)
    (ran : client.step env call = .ok outcome) (done : 0 ≤ outcome.res) :
    ∃ what', Contents what' (Event.began ⟨env, call⟩ client origin) dir outcome.client.fs outcome.client.db
      outcome.client.queue.sq outcome.client.rel := by
  cases call with
  | mknod path mode rdev => exact contents.mknod linked state (bound rfl) sound (ofHandled_eq_ok ran).1 done
  | unlink path =>
    obtain ⟨user, each, avoids⟩ := sound
    exact contents.unlink linked state (bound rfl) user each avoids (ofHandled_eq_ok ran).1 done
  | rename source target =>
    obtain ⟨user, user', opened, truly⟩ := sound
    exact contents.rename linked state (bound rfl) user user' opened truly (ofHandled_eq_ok ran).1 done
  | truncate path size =>
    obtain ⟨user, covered, small⟩ := sound
    exact contents.truncate linked state (bound rfl) user (fun zero => ⟨settled zero, covered zero⟩) small
      (ofHandled_eq_ok ran).1 done
  | write path offset data => exact contents.write linked state (bound rfl) sound (ofHandled_eq_ok ran).1 done
  | syncExecute => exact absurd rfl handler
  | relDequeue =>
    obtain rfl := Except.ok.inj ran
    exact ⟨what, contents.relate fun src dst time related => .inl (state.based.related.sane.relDequeue.2 related)⟩
  | _ => simp [Call.onFiles] at onFiles

/-- What every state of such a run has. -/
structure Faithfully (traced : Traced) : Prop where
  chain : ChainState traced.system
  versioned : traced.system.client.Versioned
  contents : ∃ what, Contents what traced.origin traced.system.dir traced.system.client.fs traced.system.client.db
    traced.system.client.queue.sq traced.system.client.rel

namespace Faithfully

theorem initial (memory : Memory) (dirSize : Path → ℕ) : Faithfully (Traced.initial memory dirSize) where
  chain := .initial memory dirSize
  versioned := by simp [Client.Versioned, Traced.initial, System.initial, Client.initial, FileSystem.read, FileSystem.entry]
  contents := by
    refine ⟨fun _ => [], ⟨by simp [Traced.initial, System.initial], (ChainState.initial memory dirSize).state.mounted.plain,
      by simp [Traced.initial, System.initial, Client.initial], by simp [Traced.initial, System.initial, Client.initial],
      ?_, ?_, ?_⟩⟩
    all_goals
      intro slot alive
      exact absurd alive.2.1 (by simp [Traced.initial, System.initial, Client.initial, SyncQueue.initial, SyncNode.fresh])

theorem step {event : SystemEvent} {traced next : Traced} (faithfully : Faithfully traced)
    (faithful : Faithful event traced) (stepped : traced.next event = .ok next) : Faithfully next := by
  obtain ⟨keeps, sound⟩ := faithful
  obtain ⟨system, ran, same⟩ := Except.bind_eq_ok.mp stepped
  obtain rfl := Except.ok.inj same
  cases event with
  | restart memory => exact absurd keeps.1 id
  | call event server =>
    have chain := faithfully.chain.step keeps ran
    obtain ⟨regular, bound, settled⟩ := keeps
    refine ⟨chain, faithfully.versioned.step faithfully.chain.state.mounted faithfully.chain.state.formed regular
      (ChainState.client_next ran), ?_⟩
    obtain ⟨what, contents⟩ := faithfully.contents
    obtain ⟨env, call⟩ := event
    simp only [System.next] at ran
    split at ran
    · exact absurd ran (by simp)
    next outcome stepped' =>
    by_cases consumer : call = .syncExecute
    · subst consumer
      obtain ⟨each, steps⟩ := sound
      obtain ⟨executed, -⟩ := step_syncExecute stepped'
      obtain ⟨ready, sends⟩ := contents.round faithfully.chain.linked each executed
      refine ⟨what, ?_⟩
      split at ran
      · obtain rfl := Except.ok.inj ran
        exact ready
      · next sn sent =>
        obtain ⟨carries, packed, fresh⟩ := sends sn sent
        rw [sent] at executed
        obtain ⟨alive, -⟩ := faithfully.chain.needs_subset executed
        rcases faithfully.chain.linked.round executed with ⟨none, -⟩ | ⟨head, same, holds, -⟩
        · exact absurd none (by simp)
        · have head_eq : sn = head := by
            split at same
            · exact absurd same (by simp)
            · exact Option.some.inj same
          exact ready.deliver alive carries packed fresh (head_eq ▸ holds) (steps sn _ executed) ran
    · obtain ⟨what', ready⟩ := contents.call faithfully.chain.linked faithfully.chain.state regular.1 consumer bound settled
        sound stepped' (regular.2 outcome stepped')
      obtain ⟨-, none⟩ := faithfully.chain.linked.call faithfully.chain.state.based faithfully.chain.state.mounted.plain
        regular.1 consumer bound (fun path truncates => by subst truncates; exact settled rfl) stepped'
        (regular.2 outcome stepped')
      simp only [none] at ran
      obtain rfl := Except.ok.inj ran
      exact ⟨what', ready⟩

end Faithfully

theorem inStep_whole {payload : Bytes} (small : payload.length < 2 ^ 31) (k : ℕ) : InStep wholeTransfers payload k := by
  have done (k : ℕ) : writeBytes wholeTransfers payload.length (k + 1) = payload.length := by
    induction k with
    | zero =>
      simp only [writeBytes, writeResult, transfer, wholeTransfers, Nat.min_self, Nat.sub_zero]
      split <;> omega
    | succ k ih =>
      rw [writeBytes, ih]
      exact if_neg (Nat.lt_irrefl _)
  cases k with
  | zero =>
    intro more
    simp only [writeBytes] at more
    simp only [writeBytes, writeResult, transfer, wholeTransfers, Nat.min_self, Nat.sub_zero, List.drop_zero, and_true]
    omega
  | succ k =>
    rw [InStep, done]
    exact fun more => absurd more (Nat.lt_irrefl _)

/-- The node of the slot needs no delta. -/
def Client.PacksPlainly (client : Client) (slot : ℕ) : Prop :=
  ((client.node slot).op = .newfile → relFind (client.node slot).src client.rel = none ∧
    ∀ content ∈ client.fs.read (client.node slot).src, content.length < 2 ^ 31) ∧
  ((client.node slot).op = .write →
    sendsWrite ((client.node slot).bn.getD []) (client.fs.getFileSize (client.node slot).src) = true ∧
      ∀ bi ∈ (client.node slot).bn.getD [], bi.newbuf.isSome ∧ bi.offset < flagTruncate ∧ bi.size < 2 ^ 32)

instance (client : Client) (slot : ℕ) : Decidable (client.PacksPlainly slot) :=
  inferInstanceAs (Decidable ((_ → _ ∧ _) ∧ (_ → _ ∧ _)))

theorem Client.PacksPlainly.truly {slot : ℕ} (plainly : client.PacksPlainly slot) : PacksTruly origin env client slot where
  whole newfile content held := ((plainly.1 newfile).2 content held).trans (by decide)
  related newfile rh related := absurd ((plainly.1 newfile).1.symm.trans related) (by simp)
  writes write _ bi member := by
    obtain ⟨some, room, size⟩ := (plainly.2 write).2 bi member
    obtain ⟨data, buffered⟩ := Option.isSome_iff_exists.mp some
    refine ⟨⟨data, buffered, room.trans (by decide), fun last => ?_⟩, size⟩
    exact absurd last room.ne
  rebuilt write sends := absurd ((plainly.2 write).1.symm.trans sends) (by simp)

theorem Client.PacksPlainly.congr {slot : ℕ} (plainly : client.PacksPlainly slot)
    (ring : after.queue.sq = client.queue.sq) (rel : after.rel = client.rel) (fs : after.fs = client.fs) :
    after.PacksPlainly slot := by
  simp only [Client.PacksPlainly, Client.node, ring, rel, fs]
  exact plainly

theorem Client.PacksPlainly.each {slot fuel : ℕ} (plainly : client.PacksPlainly slot) :
    packsEach (PacksTruly origin env) env fuel slot client := by
  cases fuel with
  | zero => trivial
  | succ fuel =>
    rw [packsEach]
    split
    · next newfile =>
      have unrelated := (plainly.1 newfile).1
      refine ⟨fun rh _ related => absurd (unrelated.symm.trans related) (by simp), fun middle packed => ?_⟩
      simp only [packsBefore, unrelated] at packed
      exact Except.ok.inj packed ▸ plainly.truly
    · exact plainly.truly
    · trivial

/-- The names of the files that packing the node of the slot makes are free. -/
def Client.NamesFree (client : Client) (slot : ℕ) : Prop :=
  client.queue.sq.head < client.queue.sq.tail ∧
    ∀ name ∈ [tmpPath (client.node slot).src, sigPath (client.node slot).src,
        deltaPath .plain client.deltas (client.node slot).src],
      client.db name = none ∧ ∀ other < client.queue.sq.tail, client.QueuedDelta other → (client.node other).src ≠ name

instance (client : Client) (slot : ℕ) : Decidable (client.NamesFree slot) := inferInstanceAs (Decidable (_ ∧ _))

/-- The node of the slot needs a delta between contents in which only blocks that are long enough look alike. -/
def Client.PacksDelta (client : Client) (origin : UInt64 → Bytes) (slot : ℕ) : Prop :=
  (client.node slot).op = .write ∧
    sendsWrite ((client.node slot).bn.getD []) (client.fs.getFileSize (client.node slot).src) = false ∧
      client.NamesFree slot ∧ ∀ content ∈ client.fs.read (client.node slot).src,
        undoWrites ((client.node slot).bn.getD []) content = origin (client.node slot).time ∧
          (origin (client.node slot).time).length < 2 ^ 31 ∧
            ∀ k < content.length, ∀ i < blockCount (origin (client.node slot).time),
              rsCalcWeakSum (blockAt (origin (client.node slot).time) i) = rsCalcWeakSum (nextWindow (content.drop k)) →
                defaultBlockLen * i + (nextWindow (content.drop k)).length ≤ (origin (client.node slot).time).length

instance (client : Client) (origin : UInt64 → Bytes) (slot : ℕ) : Decidable (client.PacksDelta origin slot) :=
  inferInstanceAs (Decidable (_ ∧ _ ∧ _ ∧ ∀ _ ∈ _, _ ∧ _ ∧ _))

/-- The same slots are occupied in another hash. -/
theorem Client.NamesFree.vacant {slot : ℕ} {name : Path} (free : after.NamesFree slot) (formed : client.WellFormed)
    (ring : after.queue.sq = client.queue.sq)
    (member : name ∈ [tmpPath (after.node slot).src, sigPath (after.node slot).src,
      deltaPath .plain after.deltas (after.node slot).src]) : after.Vacant name := by
  obtain ⟨ahead, free⟩ := free
  obtain ⟨unversioned, avoids⟩ := free name member
  constructor
  · intro other queued
    refine avoids other ?_ queued
    simp only [Client.QueuedDelta, Client.node, ring] at ahead queued ⊢
    exact formed.occupied_lt_tail ahead queued.1 queued.2.1
  · intro src time _
    simp [unversioned]

theorem Client.PacksDelta.truly {slot : ℕ} (packs : after.PacksDelta origin slot) (formed : client.WellFormed)
    (ring : after.queue.sq = client.queue.sq) : PacksTruly origin .plain after slot := by
  obtain ⟨write, delta, free, right⟩ := packs
  have vacant {name : Path} (member : name ∈ [tmpPath (after.node slot).src, sigPath (after.node slot).src,
      deltaPath .plain after.deltas (after.node slot).src]) : after.Vacant name := free.vacant formed ring member
  refine ⟨fun newfile => ?_, fun newfile => ?_, fun _ sends => ?_, fun _ _ => ?_⟩
  · exact absurd (write.symm.trans newfile) (by decide)
  · exact absurd (write.symm.trans newfile) (by decide)
  · exact absurd (delta.symm.trans sends) (by decide)
  · refine ⟨vacant (by simp), ⟨vacant (by simp), vacant (by simp)⟩, fun content held => ?_⟩
    obtain ⟨undone, small, long⟩ := right content held
    exact ⟨undone, noFalseHits_of_long small long⟩

theorem Client.PacksDelta.congr {slot : ℕ} (packs : client.PacksDelta origin slot)
    (ring : after.queue.sq = client.queue.sq) (db : after.db = client.db) (fs : after.fs = client.fs)
    (deltas : after.deltas = client.deltas) : after.PacksDelta origin slot := by
  simp only [Client.PacksDelta, Client.NamesFree, Client.QueuedDelta, Client.node, ring, db, fs, deltas]
  exact packs

theorem Client.PacksDelta.each {slot fuel : ℕ} (packs : after.PacksDelta origin slot) (formed : client.WellFormed)
    (ring : after.queue.sq = client.queue.sq) : packsEach (PacksTruly origin .plain) .plain fuel slot after := by
  cases fuel with
  | zero => trivial
  | succ fuel =>
    rw [packsEach, packs.1]
    exact packs.truly formed ring

/-- A call whose nodes need no delta, or the round that makes a delta of the writes to a file. -/
def Call.Plainly (call : Call) (client : Client) (origin : UInt64 → Bytes) : Prop :=
  match call with
  | .mknod path _ _ => UserPath path
  | .write path _ _ => UserPath path
  | .rename source target => UserPath source ∧ UserPath target ∧ client.opens .plain target = false ∧
    relFind target client.rel = none ∧
    ∀ sh ∈ (syncFind source client.queue).1, client.PacksPlainly sh.loc
  | .syncExecute => (client.PacksPlainly client.queue.sq.head ∨ client.PacksDelta origin client.queue.sq.head) ∧
    ∀ result, DeltaCFS.syncExecute .plain client = .ok result → ∀ sn ∈ result.1, (sn.fileBuf.getD []).length < 2 ^ 31
  | _ => False

instance (call : Call) (client : Client) (origin : UInt64 → Bytes) : Decidable (call.Plainly client origin) :=
  match call with
  | .mknod path .. | .write path .. => inferInstanceAs (Decidable (UserPath path))
  | .rename .. => inferInstanceAs (Decidable (_ ∧ _ ∧ _ ∧ _ ∧ _))
  | .syncExecute => inferInstanceAs (Decidable (_ ∧ _))
  | .mkdir .. | .unlink .. | .rmdir .. | .link .. | .chmod .. | .chown .. | .utimens .. | .truncate .. | .relDequeue =>
    isFalse id

theorem Call.Plainly.sound {call : Call} (plainly : call.Plainly client origin) (formed : client.WellFormed) :
    call.Sound .plain .plain client origin := by
  cases call with
  | mknod path => exact plainly
  | write path => exact plainly
  | rename source target =>
    obtain ⟨user, user', absent, unrelated, pending⟩ := plainly
    have start : (increaseRecfsCnt (recfsDelTimestamp source client)).2.opens .plain target = false := absent
    refine ⟨user, user', by simp [Env.plain], ⟨fun opens => ?_, fun _ _ sh found => ?_, fun _ rh related => ?_⟩⟩
    · exact absurd (start.symm.trans opens) (by simp)
    · apply Client.PacksPlainly.each
      exact (pending sh found).congr (syncFind_sq source client.queue) rfl rfl
    · exact absurd (unrelated.symm.trans related) (by simp)
  | syncExecute =>
    obtain ⟨plainly, small⟩ := plainly
    constructor
    · intro pending found queue
      have ring : queue.sq = client.queue.sq := by
        dsimp only [queue]
        split
        · exact syncFind_sq ..
        · exact syncFind_sq ..
      rcases plainly with plainly | packs
      · apply Client.PacksPlainly.each
        exact plainly.congr ring rfl rfl
      · apply Client.PacksDelta.each _ formed ring
        exact packs.congr ring rfl rfl rfl
    · intro sn after executed _ k
      exact inStep_whole (small _ executed sn rfl) k
  | _ => exact absurd plainly id

/-- Such a call in an environment that grants everything. -/
def Ordinary (call : Call) (traced : Traced) : Prop :=
  KeepsBases (.plain call) traced.system ∧ call.Plainly traced.system.client traced.origin

instance (call : Call) (traced : Traced) : Decidable (Ordinary call traced) := inferInstanceAs (Decidable (_ ∧ _))

theorem Ordinary.faithful {calls : List Call} {first : Traced}
    (ordinary : Transition.AllAllowed (fun call => Traced.next (.plain call)) Ordinary calls first)
    (start : Faithfully first) : Transition.AllAllowed Traced.next Faithful (calls.map .plain) first :=
  ordinary.map Faithfully (fun faithfully faithful stepped => faithfully.step faithful stepped)
    (fun _ _ faithfully allowed => ⟨allowed.1, allowed.2.sound faithfully.chain.state.formed⟩) start

/-- A file is created, written, sent, appended to and renamed, and everything is sent; then most of it is
written over, which goes as a delta. -/
def renamedAndRewritten : List Call :=
  [.mknod [47, 97] 33188 0, .write [47, 97] 0 [7, 8, 9], .syncExecute, .write [47, 97] 3 [5],
    .rename [47, 97] [47, 98], .syncExecute, .syncExecute, .write [47, 98] 0 [1, 2, 3], .syncExecute]

end DeltaCFS
