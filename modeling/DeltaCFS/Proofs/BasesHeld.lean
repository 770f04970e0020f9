import DeltaCFS.Proofs.Client.VersionChain

/-! # Bases at the server

Every message that names a base finds a file of it at the server, as long as no truncate to size 0
drops a pending node: the version of the dropped node stays that of its path, and the next message
of the path names a base that was never sent.
-/

namespace DeltaCFS

variable {env : Env} {client : Client} {sn : SyncNode} {held : Set UInt64} {dir dir' : Dir}
  {readFile : Path → Option Bytes} {message : Message}

/-! ## Messages -/

/-- If the message has a base, the server has a file of the version it reads there. -/
def BaseHeld (dir : Dir) (message : Message) : Prop :=
  message.fn = .rename ∨ message.fn = .write ∨ message.fn = .truncate ∨ message.fn = .delta →
    ∃ name, readVersion message.workload 0 = .ok name ∧ (dir name).isSome

theorem Transmits.baseHeld (transmits : Transmits readFile sn message) (alive : sn.isDelete = false)
    (needs : versionSupply.needs sn ⊆ heldBy dir) : BaseHeld dir message := by
  have base (op : sn.op = .rename ∨ sn.op = .write ∨ sn.op = .truncate ∨ sn.op = .delta) :
      (dir (verToName sn.baseVer)).isSome := needs ⟨alive, op, rfl⟩
  intro kind
  cases transmits with
  | rename op => exact ⟨_, (readVersion_sendRename sn).1, base (.inl op)⟩
  | unlink => simp at kind
  | truncate op => exact ⟨_, (readVersion_sendTruncate sn).1, base (.inr (.inr (.inl op)))⟩
  | newfile => simp at kind
  | @write records op => exact ⟨_, (readVersion_sendWrite sn records).1, base (.inr (.inl op))⟩
  | @delta content op => exact ⟨_, (readVersion_sendDelta sn content).1, base (.inr (.inr (.inr op)))⟩

/-- What the server holds after a message. -/
theorem Delivers.after_subset (delivers : Delivers sn dir dir') (alive : sn.isDelete = false)
    (versioned : sn.newVersion? = some sn.time) : versionSupply.after (heldBy dir) sn ⊆ heldBy dir' := by
  rintro version (⟨inside, kept⟩ | ⟨-, made⟩)
  · rcases delivers.kept _ inside with still | ⟨base, moves⟩
    · exact still
    · exact absurd ⟨alive, moves, (verToName_injective base).symm⟩ kept
  · obtain rfl := Option.some.inj (versioned.symm.trans made)
    exact delivers.made

/-- A node that makes nothing leaves what is held. -/
theorem after_subset_self (none : sn.isDelete = true ∨ sn.newVersion? = none) :
    versionSupply.after held sn ⊆ held := by
  rintro version (⟨inside, -⟩ | ⟨alive, made⟩)
  · exact inside
  · rcases none with deleted | unversioned
    · simp [deleted] at alive
    · simp [unversioned] at made

theorem syncSend_eq_none (silent : syncSend readFile sn = .ok none) : sn.newVersion? = none := by
  have blob (fn : Handler) (bytes : Bytes) : sendBlob fn bytes ≠ .ok none := by
    simp only [sendBlob]
    split <;> simp
  have sized (fn : Handler) (size : ℕ) (bytes : Bytes) : sendSized fn size bytes ≠ .ok none := by
    simp only [sendSized]
    split <;> simp
  cases op : sn.op <;> simp only [syncSend, op] at silent
  case rename => exact absurd silent (blob _ _)
  case truncate => exact absurd silent (blob _ _)
  case newfile =>
    split at silent
    · exact absurd silent (by simp)
    · exact absurd silent (sized _ _ _)
  case write =>
    split at silent
    · exact absurd silent (by simp)
    · exact absurd silent (sized _ _ _)
  case delta =>
    split at silent
    · exact absurd silent (by simp)
    · exact absurd silent (sized _ _ _)
  all_goals simp [SyncNode.newVersion?, op]

/-! ## Exits -/

section Exit

variable {workload : Bytes} {offset : ℕ}

theorem inside_ne_exit {α : Type} (result : Option α) : inside result ≠ .error .exit := by
  cases result with
  | none => simp [inside]
  | some value => simp [inside]

theorem readVersion_ne_exit : readVersion workload offset ≠ .error .exit :=
  Except.bind_ne_error (inside_ne_exit _) fun _ _ => by simp [pure, Except.pure]

theorem readName_ne_exit : readName workload offset ≠ .error .exit := by
  refine Except.bind_ne_error (inside_ne_exit _) fun nameLen _ => Except.bind_ne_error (inside_ne_exit _) fun name _ => ?_
  split
  · simp [throw, throwThe, MonadExceptOf.throw, bind, Except.bind]
  · simp [pure, Except.pure]

theorem readRecords_ne_exit (fuel : ℕ) (rest : Bytes) : readRecords fuel rest ≠ .error .exit := by
  induction fuel generalizing rest with
  | zero => simp [readRecords]
  | succ fuel ih =>
    rw [readRecords]
    split
    · simp
    · refine Except.bind_ne_error (inside_ne_exit _) fun _ _ => Except.bind_ne_error (inside_ne_exit _) fun _ _ =>
        Except.bind_ne_error (inside_ne_exit _) fun _ _ => Except.bind_ne_error (ih _) fun _ _ => ?_
      simp [pure, Except.pure]

theorem readTruncate_ne_exit : readTruncate workload ≠ .error .exit :=
  Except.bind_ne_error readVersion_ne_exit fun _ _ => Except.bind_ne_error readVersion_ne_exit fun _ _ =>
    Except.bind_ne_error readName_ne_exit fun _ _ => Except.bind_ne_error (inside_ne_exit _) fun _ _ => by
      simp [pure, Except.pure]

theorem readNewfile_ne_exit : readNewfile workload ≠ .error .exit :=
  Except.bind_ne_error readVersion_ne_exit fun _ _ => Except.bind_ne_error readName_ne_exit fun _ _ =>
    Except.bind_ne_error (inside_ne_exit _) fun _ _ => Except.bind_ne_error (inside_ne_exit _) fun _ _ => by
      simp [pure, Except.pure]

theorem readDelta_ne_exit : readDelta workload ≠ .error .exit :=
  Except.bind_ne_error readVersion_ne_exit fun _ _ => Except.bind_ne_error readVersion_ne_exit fun _ _ =>
    Except.bind_ne_error readVersion_ne_exit fun _ _ => Except.bind_ne_error readName_ne_exit fun _ _ =>
      Except.bind_ne_error (inside_ne_exit _) fun _ _ => Except.bind_ne_error (inside_ne_exit _) fun _ _ => by
        simp [pure, Except.pure]

theorem readRename_ne_exit : readRename workload ≠ .error .exit :=
  Except.bind_ne_error readVersion_ne_exit fun _ _ => Except.bind_ne_error readVersion_ne_exit fun _ _ =>
    Except.bind_ne_error readName_ne_exit fun _ _ => Except.bind_ne_error readName_ne_exit fun _ _ => by
      simp [pure, Except.pure]

theorem readUnlink_ne_exit : readUnlink workload ≠ .error .exit :=
  Except.bind_ne_error readVersion_ne_exit fun _ _ => Except.bind_ne_error readName_ne_exit fun _ _ => by
    simp [pure, Except.pure]

theorem readWrite_ne_exit : readWrite workload ≠ .error .exit := by
  refine Except.bind_ne_error readVersion_ne_exit fun _ _ => Except.bind_ne_error readVersion_ne_exit fun _ _ =>
    Except.bind_ne_error (inside_ne_exit _) fun _ _ => ?_
  split
  · simp [throw, throwThe, MonadExceptOf.throw, bind, Except.bind]
  · exact Except.bind_ne_error readName_ne_exit fun _ _ =>
      Except.bind_ne_error (readRecords_ne_exit _ _) fun _ _ => by simp [pure, Except.pure]

theorem writeLoop_ne_exit {schedule : Schedule} {payload : Bytes} (fuel k sent : ℕ) {written : Bytes} :
    writeLoop schedule payload fuel k sent written ≠ .error .exit := by
  induction fuel generalizing k sent written with
  | zero => simp [writeLoop]
  | succ fuel ih =>
    simp only [writeLoop]
    split
    · split
      · exact ih _ _
      · simp
    · simp

theorem serverPatch_ne_exit (basis delta : Bytes) : serverPatch basis delta ≠ .error .exit := by
  rw [serverPatch]
  split <;> simp

/-- Only `func_rename` exits, and only without a base. -/
theorem serve_ne_exit {server : ServerEnv} (base : BaseHeld dir message) : serve server dir message ≠ .error .exit := by
  obtain ⟨fn, workload⟩ := message
  cases fn with
  | rename =>
    obtain ⟨name, read, held⟩ := base (.inl rfl)
    refine Except.bind_ne_error readRename_ne_exit fun request requested => ?_
    obtain ⟨old, -⟩ := readRename_versions requested
    obtain rfl := Except.ok.inj (read.symm.trans old)
    obtain ⟨content, found⟩ := Option.isSome_iff_exists.mp held
    simp [found, pure, Except.pure]
  | unlink => exact Except.bind_ne_error readUnlink_ne_exit fun _ _ => by simp [pure, Except.pure]
  | truncate =>
    refine Except.bind_ne_error readTruncate_ne_exit fun _ _ => ?_
    dsimp only
    repeat' split
    all_goals simp [throw, throwThe, MonadExceptOf.throw, bind, Except.bind, pure, Except.pure]
  | newfile => exact Except.bind_ne_error readNewfile_ne_exit fun _ _ =>
      Except.bind_ne_error (writeLoop_ne_exit _ _ _) fun _ _ => by simp [pure, Except.pure]
  | write => exact Except.bind_ne_error readWrite_ne_exit fun _ _ => by simp [pure, Except.pure]
  | delta =>
    refine Except.bind_ne_error readDelta_ne_exit fun _ _ => ?_
    dsimp only
    split
    · simp [pure, Except.pure]
    · exact Except.bind_ne_error (serverPatch_ne_exit _ _) fun _ _ => by simp [pure, Except.pure]

end Exit

/-! ## Runs -/

/-- A truncate to size 0 finds no pending node. -/
def TruncatesSettled (call : Call) (client : Client) : Prop :=
  match call with
  | .truncate path size => size = 0 → (syncFind path client.queue).1 = none
  | _ => True

instance (call : Call) (client : Client) : Decidable (TruncatesSettled call client) :=
  match call with
  | .truncate .. => inferInstanceAs (Decidable (_ → _))
  | .mknod .. | .mkdir .. | .unlink .. | .rmdir .. | .rename .. | .link .. | .chmod .. | .chown .. | .utimens ..
  | .write .. | .syncExecute | .relDequeue => isTrue trivial

/-- A call on regular files that succeeds at the client. -/
def RegularEvent (event : SystemEvent) (system : System) : Prop :=
  match event with
  | .call event _ => RegularCall event system.client
  | .restart _ => False

instance (event : SystemEvent) (system : System) : Decidable (RegularEvent event system) :=
  match event with
  | .call _ _ => inferInstanceAs (Decidable (RegularCall _ _))
  | .restart _ => isFalse id

/-- Such a call, with the counter below its mask, that truncates nothing to size 0 while it is
pending. -/
def KeepsBases (event : SystemEvent) (system : System) : Prop :=
  RegularEvent event system ∧
    match event with
    | .call event _ => (event.call.counts = true → system.client.recfsCnt.toNat + 1 < counterBound) ∧
      TruncatesSettled event.call system.client
    | .restart _ => True

instance : ∀ event system, Decidable (KeepsBases event system)
  | .call _ _, _ => inferInstanceAs (Decidable (_ ∧ (_ → _) ∧ _))
  | .restart _, _ => inferInstanceAs (Decidable (_ ∧ True))

/-- The state of a run: the client on its own, and the client with the server. -/
structure ChainState (system : System) : Prop where
  state : MountState system.client
  linked : Linked system.dir system.client

namespace ChainState

variable {system next : System}

theorem initial (memory : Memory) (dirSize : Path → ℕ) : ChainState (System.initial memory dirSize) where
  state := .initial memory dirSize
  linked := by
    refine ⟨.initial _ _ ⟨trivial, ?_, ?_, ⟨.nil, ?_⟩, ⟨?_, ?_, ?_⟩, ?_, ?_, ?_⟩, .initial memory dirSize, Nat.one_pos⟩
    all_goals simp [System.initial, Client.initial, heldBy, versions]

/-- The node that is sent finds its base. -/
theorem needs_subset {sn : SyncNode} {after : Client} (chain : ChainState system)
    (executed : syncExecute env system.client = .ok (some sn, after)) :
    sn.isDelete = false ∧ versionSupply.needs sn ⊆ heldBy system.dir := by
  rcases chain.linked.round executed with ⟨none, -⟩ | ⟨head, sends, ⟨-, nodes, -, ready⟩, -, -⟩
  · exact absurd none (by simp)
  · split at sends
    · exact absurd sends (by simp)
    · next alive =>
      obtain rfl := Option.some.inj sends
      exact ⟨by simpa using alive, ready.supplied.1⟩

/-- What the server does with the message of a round continues the chain. -/
theorem deliver {sn : SyncNode} {after : Client} {server : ServerEnv} (alive : sn.isDelete = false)
    (holds : after.queue.Holds fun rest => Chain (heldBy system.dir) after.rel after.db after.recfsCnt.toNat (sn :: rest))
    (table : PendingTable after.queue) (positive : 0 < after.recfsCnt.toNat)
    (delivered : system.deliver server sn after = .ok next) : Linked next.dir next.client := by
  have bound := holds.lists.choose_spec.2.bound
  have stays (none : sn.newVersion? = none) : after.queue.Holds (Chain (heldBy system.dir) after.rel after.db
      after.recfsCnt.toNat) :=
    holds.imp fun _ chain => chain.dequeue (after_subset_self (.inr none)) bound
  simp only [System.deliver] at delivered
  split at delivered
  · exact absurd delivered (by simp)
  · next silent =>
    obtain rfl := Except.ok.inj delivered
    exact ⟨stays (syncSend_eq_none silent), table, positive⟩
  · next message transmitted =>
    split at delivered
    · exact absurd delivered (by simp)
    · next reply served =>
      obtain rfl := Except.ok.inj delivered
      rcases serve_delivers (syncSend_transmits transmitted) served with ⟨op, same⟩ | ⟨versioned, delivers⟩
      · have ready := stays (by simp [SyncNode.newVersion?, op])
        rw [← same] at ready
        exact ⟨ready, table, positive⟩
      · refine ⟨holds.imp fun rest chain => chain.dequeue (delivers.after_subset alive versioned) fun version inside => ?_,
          table, positive⟩
        rcases delivers.only _ inside with old | new
        · exact chain.bound version old
        · rw [verToName_injective new]
          exact chain.gives_le List.mem_cons_self ⟨alive, versioned⟩

/-- The client's part of an event. -/
theorem client_next {event : Event} {server : ServerEnv} (stepped : system.next (.call event server) = .ok next) :
    system.client.next event = .ok next.client := by
  simp only [System.next] at stepped
  split at stepped
  · exact absurd stepped (by simp)
  · next outcome ran =>
    have same : next.client = outcome.client := by
      split at stepped
      · rw [← Except.ok.inj stepped]
      · simp only [System.deliver] at stepped
        split at stepped
        · exact absurd stepped (by simp)
        · rw [← Except.ok.inj stepped]
        · split at stepped
          · exact absurd stepped (by simp)
          · rw [← Except.ok.inj stepped]
    simp [Client.next, ran, same, bind, Except.bind, pure, Except.pure]

theorem step {event : SystemEvent} (chain : ChainState system) (keeps : KeepsBases event system)
    (stepped : system.next event = .ok next) : ChainState next := by
  cases event with
  | restart memory => exact absurd keeps.1 id
  | call event server =>
    obtain ⟨regular, bound, settled⟩ := keeps
    refine ⟨chain.state.step regular bound (client_next stepped), ?_⟩
    obtain ⟨env, call⟩ := event
    simp only [System.next] at stepped
    split at stepped
    · exact absurd stepped (by simp)
    next outcome ran =>
    by_cases consumer : call = .syncExecute
    · subst consumer
      rcases chain.linked.round (step_syncExecute ran).1 with ⟨none, same⟩ | ⟨sn, sends, holds, table, positive⟩
      · simp only [none] at stepped
        obtain rfl := Except.ok.inj stepped
        exact same ▸ chain.linked
      · by_cases deleted : sn.isDelete = true
        · simp only [sends, deleted, ↓reduceIte] at stepped
          obtain rfl := Except.ok.inj stepped
          exact ⟨holds.imp fun _ chain => chain.dequeue (after_subset_self (.inl deleted)) chain.bound, table, positive⟩
        · simp only [sends, deleted] at stepped
          exact deliver (by simpa using deleted) holds table positive stepped
    · have done := regular.2 outcome ran
      obtain ⟨linked, none⟩ := chain.linked.call chain.state.based chain.state.mounted.plain regular.1 consumer bound
        (fun path truncates => by subst truncates; exact settled rfl) ran done
      simp only [none] at stepped
      obtain rfl := Except.ok.inj stepped
      exact linked

end ChainState

/-- A handler sends no message. -/
theorem call_eq_syncExecute {call : Call} {outcome : Outcome} (ran : client.step env call = .ok outcome)
    (sends : outcome.sent = some sn) : call = .syncExecute := by
  cases call with
  | syncExecute => rfl
  | relDequeue =>
    obtain rfl := Except.ok.inj ran
    exact absurd sends (by simp)
  | _ =>
    have none := (ofHandled_eq_ok ran).2
    exact absurd (none.symm.trans sends) (by simp)

/-- In every state such calls reach, the next message with a base finds a file of it at the server,
and no event makes the server exit. -/
theorem bases_held (memory : Memory) (dirSize : Path → ℕ) (system : System)
    (run : Transition.Run System.next KeepsBases (System.initial memory dirSize) system) :
    (∀ env sn after message, syncExecute env system.client = .ok (some sn, after) →
      syncSend after.fs.read sn = .ok (some message) → BaseHeld system.dir message) ∧
    ∀ event, system.next event ≠ .error (.server .exit) := by
  have chain : ChainState system := run.invariant ChainState (fun chain keeps stepped => chain.step keeps stepped)
    (.initial memory dirSize)
  have based (env : Env) (sn : SyncNode) (after : Client) (message : Message)
      (executed : syncExecute env system.client = .ok (some sn, after))
      (transmitted : syncSend after.fs.read sn = .ok (some message)) : BaseHeld system.dir message := by
    obtain ⟨alive, needs⟩ := chain.needs_subset executed
    exact (syncSend_transmits transmitted).baseHeld alive needs
  refine ⟨based, fun event exits => ?_⟩
  cases event with
  | restart memory => exact absurd exits (by simp [System.next])
  | call event server =>
    simp only [System.next] at exits
    split at exits
    · exact absurd exits (by simp)
    next outcome ran =>
    split at exits
    · exact absurd exits (by simp)
    next sn sends =>
    obtain ⟨env, call⟩ := event
    obtain rfl : call = .syncExecute := call_eq_syncExecute ran sends
    have executed := (step_syncExecute ran).1
    rw [sends] at executed
    simp only [System.deliver] at exits
    split at exits
    · exact absurd exits (by simp)
    · exact absurd exits (by simp)
    next message transmitted =>
    split at exits
    · next fault served =>
      obtain rfl : fault = .exit := by simpa using exits
      exact serve_ne_exit (based _ _ _ _ executed transmitted) served
    · exact absurd exits (by simp)

/-- A file is created, written, sent, overwritten and renamed, and the WRITE is sent. -/
def renamedAfterWrite : List SystemEvent :=
  [.plain (.mknod [47, 97] 33188 0), .plain (.write [47, 97] 0 [7, 8, 9]), .plain .syncExecute,
    .plain (.write [47, 97] 1 [5]), .plain (.rename [47, 97] [47, 98]), .plain .syncExecute]

theorem bases_held_renamed :
    ∃ system, Transition.replay System.next renamedAfterWrite System.empty = .ok system ∧
      (∃ sn after message, syncExecute .plain system.client = .ok (some sn, after) ∧
        syncSend after.fs.read sn = .ok (some message) ∧ message.fn = .rename ∧ BaseHeld system.dir message) ∧
      system.next (.plain .syncExecute) ≠ .error (.server .exit) := by
  have replayed : ∃ system, Transition.replay System.next renamedAfterWrite System.empty = .ok system ∧
      (syncExecute .plain system.client).passes (fun result =>
        (result.1.elim (.ok none) (syncSend result.2.fs.read)).passes (fun message => message.any (·.fn = .rename)) =
          true) = true := Except.exists_ok (by decide +kernel)
  obtain ⟨system, replayed, sends⟩ := replayed
  obtain ⟨⟨sent, after⟩, executed, sends⟩ := Except.exists_ok sends
  obtain ⟨message?, transmitted, kind⟩ := Except.exists_ok sends
  have allowed : Transition.AllAllowed System.next KeepsBases renamedAfterWrite System.empty := by decide +kernel
  have run := Transition.Run.of_replay renamedAfterWrite allowed replayed
  obtain ⟨based, exits⟩ := bases_held _ _ system run
  cases sent with
  | none =>
    obtain rfl := Except.ok.inj transmitted
    exact absurd kind (by simp)
  | some sn =>
    obtain ⟨message, rfl, kind⟩ := Option.any_eq_true _ _ |>.mp kind
    exact ⟨system, replayed, ⟨sn, after, message, executed, transmitted, by simpa using kind,
      based _ sn after message executed transmitted⟩, exits _⟩

/-- A new file is truncated to size 0 before it is sent, and renamed; the MKNOD is not transmitted. -/
def truncatedBeforeSent : List SystemEvent :=
  [.plain (.mknod [47, 97] 33188 0), .plain (.truncate [47, 97] 0), .plain (.rename [47, 97] [47, 98]),
    .plain .syncExecute]

/-- The RENAME finds no base, and the server exits. -/
theorem rename_of_dropped_version_exits :
    ∃ system, Transition.Run System.next RegularEvent System.empty system ∧
      Transition.replay System.next truncatedBeforeSent System.empty = .ok system ∧
      RegularEvent (.plain .syncExecute) system ∧ system.next (.plain .syncExecute) = .error (.server .exit) := by
  have replayed : ∃ system, Transition.replay System.next truncatedBeforeSent System.empty = .ok system ∧
      (RegularEvent (.plain .syncExecute) system ∧
        (match system.next (.plain .syncExecute) with
          | .error crash => decide (crash = .server .exit)
          | .ok _ => false) = true) := Except.exists_ok (by decide +kernel)
  obtain ⟨system, replayed, regular, exits⟩ := replayed
  have allowed : Transition.AllAllowed System.next RegularEvent truncatedBeforeSent System.empty := by decide +kernel
  refine ⟨system, .of_replay truncatedBeforeSent allowed replayed, replayed, regular, ?_⟩
  split at exits
  · next crash failed => rw [failed, of_decide_eq_true exits]
  · exact absurd exits (by simp)

end DeltaCFS
