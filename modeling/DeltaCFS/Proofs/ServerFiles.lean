import DeltaCFS.Proofs.BasesHeld

/-! # The files of the server

A message writes the file of its new version, and a rename or a write takes the file of its base away;
everything else stays as it is. New versions are new to the server, so a file keeps its content as long
as it is there, and does not come back; and what is there can be told from the messages.
-/

namespace DeltaCFS

variable {sn : SyncNode} {dir dir' : Dir} {server : ServerEnv} {readFile : Path → Option Bytes} {message : Message}
  {reply : Reply} {system next first second : System} {version : UInt64} {name : Bytes}

/-! ## Messages -/

/-- The message takes the file of its base away. -/
def SyncNode.Moves (sn : SyncNode) (name : Bytes) : Prop :=
  (sn.op = .rename ∨ sn.op = .write) ∧ name = verToName sn.baseVer

instance (sn : SyncNode) (name : Bytes) : Decidable (sn.Moves name) := inferInstanceAs (Decidable (_ ∧ _))

/-- Apart from its new version the message takes at most the file of its base away. -/
def Frames (sn : SyncNode) (dir dir' : Dir) : Prop :=
  ∀ name, (∀ version, sn.newVersion? = some version → name ≠ verToName version) →
    dir' name = if sn.Moves name then none else dir name

namespace Frames

variable (versioned : sn.newVersion? = some sn.time)

include versioned

theorem of_set (stays : ¬ (sn.op = .rename ∨ sn.op = .write)) {content : Bytes} (named : name = verToName sn.time) :
    Frames sn dir (dir.set name content) := by
  subst named
  intro other apart
  rw [Dir.set, if_neg (apart _ versioned), if_neg fun moves => stays moves.1]

/-- The new version is written again. -/
theorem set (frames : Frames sn dir dir') {content : Bytes} (named : name = verToName sn.time) :
    Frames sn dir (dir'.set name content) := by
  subst named
  intro other apart
  rw [Dir.set, if_neg (apart _ versioned)]
  exact frames other apart

theorem of_move (moves : sn.op = .rename ∨ sn.op = .write) (content : Bytes) :
    Frames sn dir (dir.move (verToName sn.baseVer) (verToName sn.time) content) := by
  intro other apart
  have apart := apart _ versioned
  by_cases base : other = verToName sn.baseVer
  · rw [if_pos ⟨moves, base⟩, Dir.move, if_neg (base ▸ apart), if_neg apart, if_pos base]
  · rw [if_neg fun taken => base taken.2, Dir.move]
    split
    · rfl
    · simp only [if_neg apart, if_neg base]

omit versioned in
/-- A base that is not there is not taken away. -/
theorem of_missing (missing : dir (verToName sn.baseVer) = none) : Frames sn dir dir := by
  intro other apart
  split
  · next moves => rw [moves.2, missing]
  · rfl

end Frames

/-- The handlers, by what they leave alone. -/
theorem serve_frames (transmits : Transmits readFile sn message) (served : serve server dir message = .ok reply) :
    Frames sn dir reply.dir := by
  cases transmits with
  | rename op =>
    simp only [serve, funcRename, Except.bind_eq_ok] at served
    obtain ⟨request, read, served⟩ := served
    obtain ⟨old, new⟩ := readRename_versions read
    rw [← Except.ok.inj ((readVersion_sendRename sn).1.symm.trans old),
      ← Except.ok.inj ((readVersion_sendRename sn).2.symm.trans new)] at served
    split at served
    · exact absurd served (by simp [throw, throwThe, MonadExceptOf.throw])
    · next content found =>
      obtain rfl := Except.ok.inj served
      exact .of_move (by simp [SyncNode.newVersion?, op]) (.inl op) content
  | unlink op =>
    simp only [serve, funcUnlink, Except.bind_eq_ok] at served
    obtain ⟨-, -, same⟩ := served
    obtain rfl := Except.ok.inj same
    intro other apart
    simp [SyncNode.Moves, op]
  | truncate op =>
    simp only [serve, funcTruncate, Except.bind_eq_ok] at served
    obtain ⟨request, read, served⟩ := served
    have new := Except.ok.inj ((readVersion_sendTruncate sn).2.symm.trans (readTruncate_versions read).2)
    have written : ∃ content, reply.dir = (dir.set request.newver []).set request.newver content := by
      repeat' split at served
      all_goals first
        | exact ⟨_, congrArg Reply.dir (Except.ok.inj served).symm⟩
        | exact absurd served (by simp [throw, throwThe, MonadExceptOf.throw, bind, Except.bind])
    obtain ⟨content, same⟩ := written
    rw [same]
    have versioned : sn.newVersion? = some sn.time := by simp [SyncNode.newVersion?, op]
    exact (Frames.of_set versioned (by simp [op]) new.symm).set versioned new.symm
  | newfile op =>
    simp only [serve, funcNewfile, Except.bind_eq_ok] at served
    obtain ⟨request, read, written, -, served⟩ := served
    have new := Except.ok.inj ((readVersion_sendNewfile sn _).symm.trans (readNewfile_version read))
    obtain rfl := Except.ok.inj served
    exact .of_set (by simp [SyncNode.newVersion?, op]) (by simp [op]) new.symm
  | @write records op =>
    simp only [serve, funcWrite, Except.bind_eq_ok] at served
    obtain ⟨request, read, served⟩ := served
    obtain ⟨old, new⟩ := readWrite_versions read
    rw [← Except.ok.inj ((readVersion_sendWrite sn records).1.symm.trans old),
      ← Except.ok.inj ((readVersion_sendWrite sn records).2.symm.trans new)] at served
    obtain rfl := Except.ok.inj served
    have versioned : sn.newVersion? = some sn.time := by simp [SyncNode.newVersion?, op]
    dsimp only
    split
    · next content found => exact (Frames.of_move versioned (.inr op) content).set versioned rfl
    · next missing => exact (Frames.of_missing missing).set versioned rfl
  | @delta content op =>
    simp only [serve, funcDelta, Except.bind_eq_ok] at served
    obtain ⟨request, read, served⟩ := served
    have new := Except.ok.inj ((readVersion_sendDelta sn content).2.symm.trans (readDelta_versions read).2)
    have versioned : sn.newVersion? = some sn.time := by simp [SyncNode.newVersion?, op]
    split at served
    · obtain rfl := Except.ok.inj served
      exact .of_set versioned (by simp [op]) new.symm
    · obtain ⟨_, -, served⟩ := Except.bind_eq_ok.mp served
      obtain rfl := Except.ok.inj served
      exact (Frames.of_set versioned (by simp [op]) new.symm).set versioned new.symm

/-- What an event does to the server. -/
theorem System.next_sends {event : SystemEvent} (stepped : system.next event = .ok next) :
    (next.dir = system.dir ∧ next.sent = system.sent) ∨
      ∃ env sn after message, syncExecute env system.client = .ok (some sn, after) ∧
        Transmits after.fs.read sn message ∧ next.sent = system.sent ++ [sn] ∧ Frames sn system.dir next.dir ∧
        (sn.op = .unlink ∨ sn.newVersion? = some sn.time ∧ (next.dir (verToName sn.time)).isSome) := by
  cases event with
  | restart memory =>
    obtain rfl := Except.ok.inj stepped
    exact .inl ⟨rfl, rfl⟩
  | call event server =>
    obtain ⟨env, call⟩ := event
    simp only [System.next] at stepped
    split at stepped
    · exact absurd stepped (by simp)
    next outcome ran =>
    split at stepped
    · obtain rfl := Except.ok.inj stepped
      exact .inl ⟨rfl, rfl⟩
    next sn sends =>
    obtain rfl := call_eq_syncExecute ran sends
    obtain ⟨executed, -⟩ := step_syncExecute ran
    rw [sends] at executed
    simp only [System.deliver] at stepped
    split at stepped
    · exact absurd stepped (by simp)
    · obtain rfl := Except.ok.inj stepped
      exact .inl ⟨rfl, rfl⟩
    next message transmitted =>
    split at stepped
    · exact absurd stepped (by simp)
    next reply served =>
    obtain rfl := Except.ok.inj stepped
    have transmits := syncSend_transmits transmitted
    refine .inr ⟨env, sn, _, message, executed, transmits, rfl, serve_frames transmits served, ?_⟩
    rcases serve_delivers transmits served with ⟨op, -⟩ | ⟨versioned, delivers⟩
    · exact .inl op
    · exact .inr ⟨versioned, delivers.made⟩

/-! ## A version is written once -/

/-- The file of a version that has been sent keeps its content as long as it is there, and does not come
back once it is gone. -/
theorem stored_once (memory : Memory) (dirSize : Path → ℕ) (first second : System)
    (run : Transition.Run System.next KeepsVersions (System.initial memory dirSize) first)
    (later : Transition.Run System.next KeepsVersions first second) (sn : SyncNode) (sent : sn ∈ first.sent)
    (version : UInt64) (versioned : sn.newVersion? = some version) :
    second.dir (verToName version) = first.dir (verToName version) ∨ second.dir (verToName version) = none := by
  have assigned : Assigned first :=
    run.invariant Assigned (fun kept keeps stepped => (kept.event keeps stepped).1) (.initial memory dirSize)
  have kept := later.invariant (fun system => Assigned system ∧ sn ∈ system.sent ∧
    (system.dir (verToName version) = first.dir (verToName version) ∨ system.dir (verToName version) = none)) ?_
    ⟨assigned, sent, .inl rfl⟩
  · exact kept.2.2
  intro event system next ⟨assigned, member, stored⟩ keeps stepped
  have assigned' := (assigned.event keeps stepped).1
  refine ⟨assigned', ?_⟩
  rcases System.next_sends stepped with ⟨same, unsent⟩ | ⟨env, other, after, message, -, -, longer, frames, -⟩
  · rw [same, unsent]
    exact ⟨member, stored⟩
  · have apart : ∀ version', other.newVersion? = some version' → verToName version ≠ verToName version' := by
      intro version' versioned' same
      obtain rfl := verToName_injective same
      exact Assigned.unsent (longer ▸ assigned'.numbered) versioned' sn member versioned
    rw [longer, frames _ apart]
    refine ⟨List.mem_append_left _ member, ?_⟩
    split
    · exact .inr rfl
    · exact stored

/-- A file is created, written and sent, and then overwritten and sent again. -/
def createdAndSent : List SystemEvent :=
  [.plain (.mknod [47, 97] 33188 0), .plain (.write [47, 97] 0 [7, 8, 9]), .plain .syncExecute]

def overwrittenAndSent : List SystemEvent := [.plain (.write [47, 97] 1 [5]), .plain .syncExecute]

theorem stored_once_overwritten :
    ∃ first second, Transition.replay System.next createdAndSent System.empty = .ok first ∧
      Transition.replay System.next overwrittenAndSent first = .ok second ∧
      first.dir (verToName 2) = some [7, 8, 9] ∧ second.dir (verToName 2) ≠ some [7, 5, 9] := by
  have replayed : ∃ first, Transition.replay System.next createdAndSent System.empty = .ok first ∧
      ((∃ sn ∈ first.sent, sn.newVersion? = some 2) ∧ first.dir (verToName 2) = some [7, 8, 9] ∧
        Transition.AllAllowed System.next KeepsVersions overwrittenAndSent first ∧
        (Transition.replay System.next overwrittenAndSent first).passes (fun _ => true) = true) :=
    Except.exists_ok (by decide +kernel)
  obtain ⟨first, replayed, ⟨sn, sent, versioned⟩, content, allowed', replayed'⟩ := replayed
  obtain ⟨second, replayed', -⟩ := Except.exists_ok replayed'
  have allowed : Transition.AllAllowed System.next KeepsVersions createdAndSent System.empty := by decide +kernel
  refine ⟨first, second, replayed, replayed', content, ?_⟩
  rcases stored_once _ _ first second (.of_replay createdAndSent allowed replayed)
    (.of_replay overwrittenAndSent allowed' replayed') sn sent 2 versioned with same | gone
  · rw [same, content]
    decide
  · simp [gone]

/-! ## What is there -/

instance finiteUInt64 : Finite UInt64 := .of_injective UInt64.toFin fun _ _ => UInt64.toFin_inj.mp

/-- The operations that leave their base at the server. -/
def SyncNode.adds (sn : SyncNode) : Bool := sn.op = .newfile || sn.op = .truncate || sn.op = .delta

/-- A message takes a file away for the one it makes, or adds one. -/
theorem ncard_gives (alive : sn.isDelete = false) (transmits : Transmits readFile sn message) :
    (versionSupply.gives sn).ncard = (versionSupply.takes sn).ncard + if sn.adds then 1 else 0 := by
  have gives (versioned : sn.newVersion? = some sn.time) : versionSupply.gives sn = {sn.time} := by
    simp only [versionSupply, alive, versioned, true_and, Option.some.injEq]
    exact Set.ofPred_eq_eq_singleton'
  have takes (moves : sn.op = .rename ∨ sn.op = .write) : versionSupply.takes sn = {sn.baseVer} := by
    simp only [versionSupply, alive, moves, true_and]
    exact Set.ofPred_eq_eq_singleton'
  have stays (others : ¬ (sn.op = .rename ∨ sn.op = .write)) : versionSupply.takes sn = ∅ := by
    simp [versionSupply, others]
  cases transmits with
  | rename op => simp [gives (by simp [SyncNode.newVersion?, op]), takes (.inl op), SyncNode.adds, op]
  | unlink op => simp [versionSupply, SyncNode.newVersion?, SyncNode.adds, op]
  | truncate op => simp [gives (by simp [SyncNode.newVersion?, op]), stays (by simp [op]), SyncNode.adds, op]
  | newfile op => simp [gives (by simp [SyncNode.newVersion?, op]), stays (by simp [op]), SyncNode.adds, op]
  | write op => simp [gives (by simp [SyncNode.newVersion?, op]), takes (.inr op), SyncNode.adds, op]
  | delta op => simp [gives (by simp [SyncNode.newVersion?, op]), stays (by simp [op]), SyncNode.adds, op]

/-- A message that finds its base does to the versions of the server what its node says. -/
theorem heldBy_next (alive : sn.isDelete = false) (frames : Frames sn dir dir')
    (made : sn.op = .unlink ∨ sn.newVersion? = some sn.time ∧ (dir' (verToName sn.time)).isSome) :
    heldBy dir' = versionSupply.after (heldBy dir) sn := by
  ext version
  simp only [heldBy, Supply.after, versionSupply, alive, Set.mem_union, Set.mem_sdiff, Set.mem_ofPred_eq, true_and]
  by_cases new : sn.newVersion? = some version
  · rcases made with unlink | ⟨versioned, made⟩
    · simp [SyncNode.newVersion?, unlink] at new
    · obtain rfl := Option.some.inj (versioned.symm.trans new)
      simp [made, new]
  · have apart : ∀ version', sn.newVersion? = some version' → verToName version ≠ verToName version' := by
      intro version' versioned same
      obtain rfl := verToName_injective same
      exact new versioned
    have moves : sn.Moves (verToName version) ↔ (sn.op = .rename ∨ sn.op = .write) ∧ sn.baseVer = version :=
      and_congr_right fun _ => ⟨fun same => (verToName_injective same).symm, fun same => by rw [same]⟩
    rw [frames _ apart, apply_ite Option.isSome]
    by_cases taken : sn.Moves (verToName version)
    · simp [taken, moves.mp taken, new]
    · simp [taken, new, mt moves.mpr taken]

/-- The server and the messages it was sent. -/
structure Accounted (system : System) : Prop where
  named : ∀ name, (system.dir name).isSome → ∃ version, name = verToName version
  held : heldBy system.dir = versionSupply.stock ∅ system.sent
  counted : (heldBy system.dir).ncard = system.sent.countP SyncNode.adds

theorem KeepsBases.keepsVersions {event : SystemEvent} (keeps : KeepsBases event system) : KeepsVersions event system := by
  cases event with
  | restart memory => exact absurd keeps.1 id
  | call event server =>
    refine ⟨?_, keeps.2.1⟩
    have onFiles := keeps.1.1
    cases call : event.call <;> simp_all [Call.onFiles, Call.isLink]

namespace Accounted

theorem step {event : SystemEvent} (accounted : Accounted system) (chain : ChainState system) (assigned : Assigned system)
    (keeps : KeepsBases event system) (stepped : system.next event = .ok next) : Accounted next := by
  rcases System.next_sends stepped with
    ⟨dir, sent⟩ | ⟨env, sn, after, message, executed, transmits, longer, frames, made⟩
  · exact ⟨dir ▸ accounted.named, by rw [dir, sent]; exact accounted.held, by rw [dir, sent]; exact accounted.counted⟩
  obtain ⟨alive, needs⟩ := chain.needs_subset executed
  have held := heldBy_next alive frames made
  refine ⟨fun name there => ?_, ?_, ?_⟩
  · by_cases new : ∃ version, sn.newVersion? = some version ∧ name = verToName version
    · exact ⟨_, new.choose_spec.2⟩
    · rw [frames name fun version versioned same => new ⟨version, versioned, same⟩] at there
      split at there
      · exact absurd there (by simp)
      · exact accounted.named name there
  · rw [held, longer, Supply.stock_concat, accounted.held]
  · have takes : versionSupply.takes sn ⊆ heldBy system.dir := by
      refine subset_trans (fun version taken => ?_) needs
      exact ⟨taken.1, taken.2.1.elim .inl fun write => .inr (.inl write), taken.2.2⟩
    have gives : ∀ version ∈ heldBy system.dir, version ∉ versionSupply.gives sn := by
      rintro version here ⟨-, versioned⟩
      have missing := (assigned.event keeps.keepsVersions stepped).2 sn version longer versioned
      simp [heldBy, missing] at here
    have balance := Supply.ncard_after takes gives
    rw [ncard_gives alive transmits, ← held, accounted.counted] at balance
    rw [longer, List.countP_append, List.countP_singleton]
    omega

end Accounted

/-- The server holds the versions that its messages made and no later RENAME or WRITE took away: a file
for every NEWFILE, TRUNCATE and DELTA it has handled. -/
theorem server_files (memory : Memory) (dirSize : Path → ℕ) (system : System)
    (run : Transition.Run System.next KeepsBases (System.initial memory dirSize) system) :
    (∀ name, (system.dir name).isSome ↔ ∃ version ∈ versionSupply.stock ∅ system.sent, name = verToName version) ∧
      {name | (system.dir name).isSome}.ncard = system.sent.countP SyncNode.adds := by
  have start : Accounted (System.initial memory dirSize) :=
    ⟨by simp [System.initial], by simp [System.initial, heldBy], by simp [System.initial, heldBy]⟩
  obtain ⟨-, -, accounted⟩ := run.invariant (fun system => ChainState system ∧ Assigned system ∧ Accounted system)
    (fun kept keeps stepped => ⟨kept.1.step keeps stepped, (kept.2.1.event keeps.keepsVersions stepped).1,
      kept.2.2.step kept.1 kept.2.1 keeps stepped⟩)
    ⟨.initial memory dirSize, .initial memory dirSize, start⟩
  have names : {name | (system.dir name).isSome} = verToName '' heldBy system.dir := by
    ext name
    constructor
    · intro there
      obtain ⟨version, rfl⟩ := accounted.named name there
      exact ⟨version, there, rfl⟩
    · rintro ⟨version, there, rfl⟩
      exact there
  constructor
  · intro name
    rw [← accounted.held]
    refine (Set.ext_iff.mp names name).trans ?_
    simp only [Set.mem_image, eq_comm]
  · rw [names, Set.ncard_image_of_injective _ fun _ _ => verToName_injective, accounted.counted]

theorem server_files_overwritten :
    ∃ system, Transition.replay System.next (createdAndSent ++ overwrittenAndSent) System.empty = .ok system ∧
      {name | (system.dir name).isSome}.ncard = 1 := by
  have replayed : ∃ system,
      Transition.replay System.next (createdAndSent ++ overwrittenAndSent) System.empty = .ok system ∧
      system.sent.countP SyncNode.adds = 1 := Except.exists_ok (by decide +kernel)
  obtain ⟨system, replayed, adds⟩ := replayed
  have allowed : Transition.AllAllowed System.next KeepsBases (createdAndSent ++ overwrittenAndSent) System.empty := by
    decide +kernel
  have counted := (server_files _ _ system (.of_replay _ allowed replayed)).2
  exact ⟨system, replayed, counted.trans adds⟩

end DeltaCFS
