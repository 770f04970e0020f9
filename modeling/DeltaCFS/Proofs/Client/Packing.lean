import DeltaCFS.Proofs.Client.Files
import DeltaCFS.Proofs.Client.Hash
import DeltaCFS.ToMathlib.Transition

/-! # What packing can do

`PackedOne` lists what `sync_pack_write` does with one node. The recursion over relations is then a
sequence of lookups and of such steps, each followed by the removal of the node's entry: a `PackRun`.
Every property of packing is proved for `PackedOne` and carried through the run.
-/

namespace DeltaCFS

variable {env : Env} {client after : Client} {slot : ℕ}

@[simp] theorem require_eq_ok {α : Type} {stop : Stop} {result : Option α} {value : α} :
    require stop result = .ok value ↔ result = some value := by
  cases result with
  | none => simp [require]
  | some found => simp [require]

@[simp] theorem require_eq_error {α : Type} {stop failure : Stop} {result : Option α} :
    require stop result = .error failure ↔ result = none ∧ failure = stop := by
  cases result with
  | none => simp [require, eq_comm]
  | some found => simp [require]

/-! ## One node -/

/-- A delta that was computed: what its files held, and what is left of them. -/
structure DeltaComputed (env : Env) (originfile newfile basefile : Path) (before : Client) (path : Path)
    (after : Client) (old new delta : Bytes) : Prop where
  path_eq : path = deltaPath env before.deltas basefile
  origin : before.fs.Regular originfile
  old_read : ∃ opened, before.fs.store (sigPath basefile) [] = some opened ∧ opened.read originfile = some old
  pipeline : env.pipeline before.deltas old new = .ok (some delta)
  files : ∃ opened created stored,
    (∃ sig, env.signature before.deltas old = some sig ∧ before.fs.store (sigPath basefile) sig = some opened) ∧
    (opened.remove (sigPath basefile)).store path [] = some created ∧ created.read newfile = some new ∧
    created.store path delta = some stored ∧ after = { before with fs := stored, deltas := before.deltas + 1 }

/-- The new file is still readable when its delta has been computed. -/
theorem DeltaComputed.new_regular {originfile newfile basefile path : Path} {old new delta : Bytes}
    (computed : DeltaComputed env originfile newfile basefile client path after old new delta) :
    after.fs.Regular newfile := by
  obtain ⟨opened, created, stored, -, -, newRead, deltaStored, rfl⟩ := computed.files
  exact (FileSystem.regular_iff_read.mpr ⟨new, newRead⟩).store deltaStored

/-- The names packing uses for files of its own lie in the temporary directory. -/
theorem tmpDir_prefix_tmpPath (path : Path) : tmpDir <+: tmpPath path := List.prefix_append ..

theorem tmpDir_prefix_sigPath (path : Path) : tmpDir <+: sigPath path :=
  ⟨_, (List.append_assoc tmpDir _ _).symm⟩

theorem tmpDir_prefix_deltaPath (env : Env) (count : ℕ) (path : Path) : tmpDir <+: deltaPath env count path :=
  ⟨_, by simp only [deltaPath, tmpDelta, List.append_assoc]; rfl⟩

/-- No delta file has the name of a signature. -/
theorem deltaPath_ne_sigPath (env : Env) (count : ℕ) (path other : Path) : deltaPath env count path ≠ sigPath other := by
  intro same
  have letters := congrArg (fun name => (name.drop tmpDir.length).head?) same
  simp [deltaPath, sigPath, tmpDelta, tmpSig] at letters

/-- The delta of a file does not have the name of its copy. -/
theorem deltaPath_ne_tmpPath (env : Env) (count : ℕ) (path : Path) : deltaPath env count path ≠ tmpPath path := by
  intro same
  have lengths := congrArg List.length same
  simp [deltaPath, tmpPath, tmpDelta] at lengths
  omega

theorem not_mem_findFilename (path : Path) : 47 ∉ findFilename path := by
  intro inside
  have taken := List.mem_takeWhile_imp (List.mem_reverse.mp inside)
  simp at taken

/-- The last component of the name of a signature. -/
theorem findFilename_sigPath (path : Path) : findFilename (sigPath path) = [115, 105, 103, 95] ++ findFilename path := by
  have letters : ∀ letter ∈ (findFilename path).reverse ++ [95, 103, 105, 115], decide (letter ≠ 47) = true := by
    have last : ∀ letter ∈ ([95, 103, 105, 115] : Path), decide (letter ≠ 47) = true := by simp
    intro letter member
    rcases List.mem_append.mp member with inside | inside
    · have apart : letter ≠ 47 := by
        rintro rfl
        exact not_mem_findFilename path (List.mem_reverse.mp inside)
      exact decide_eq_true apart
    · exact last letter inside
  have split : (sigPath path).reverse = ((findFilename path).reverse ++ [95, 103, 105, 115]) ++ tmpDir.reverse := by
    simp [sigPath, tmpSig]
  have starts : (sigPath path).reverse.dropWhile (· = 47) = (sigPath path).reverse := by
    obtain ⟨letter, more, first⟩ := List.exists_cons_of_ne_nil
      (show (findFilename path).reverse ++ [95, 103, 105, 115] ≠ [] by simp)
    have apart := of_decide_eq_true (letters letter (first ▸ List.mem_cons_self))
    rw [split, first, List.cons_append, List.dropWhile_cons_of_neg (by simpa using apart)]
  rw [findFilename, starts, split, List.takeWhile_append_of_pos letters]
  simp [tmpDir]

/-- The signature of a file does not have its name. -/
theorem ne_sigPath (path : Path) : path ≠ sigPath path := by
  intro same
  have lengths := congrArg List.length ((congrArg findFilename same).trans (findFilename_sigPath path))
  rw [List.length_append] at lengths
  simp at lengths

/-- The copy and the signature have different names. -/
theorem tmpPath_ne_sigPath (path : Path) : tmpPath path ≠ sigPath path := by
  intro same
  have lengths := congrArg List.length same
  simp [tmpPath, sigPath, tmpSig] at lengths
  omega

/-- Names other than the two temporary ones keep what they stand for. -/
theorem DeltaComputed.entry_eq {originfile newfile basefile path other : Path} {old new delta : Bytes}
    (computed : DeltaComputed env originfile newfile basefile client path after old new delta)
    (notSig : other ≠ sigPath basefile) (notDelta : other ≠ path) : after.fs.entry other = client.fs.entry other := by
  obtain ⟨opened, created, stored, ⟨_, -, sigOpened⟩, deltaOpened, -, deltaStored, rfl⟩ := computed.files
  rw [(FileSystem.entry_store deltaStored).2 other notDelta, (FileSystem.entry_store deltaOpened).2 other notDelta,
    FileSystem.entry_remove _ _ _ notSig, (FileSystem.entry_store sigOpened).2 other notSig]

theorem DeltaComputed.entry_user {originfile newfile basefile path other : Path} {old new delta : Bytes}
    (computed : DeltaComputed env originfile newfile basefile client path after old new delta)
    (user : ¬ tmpDir <+: other) : after.fs.entry other = client.fs.entry other := by
  refine computed.entry_eq (fun same => user (same ▸ tmpDir_prefix_sigPath basefile)) fun same => user ?_
  rw [same, computed.path_eq]
  exact tmpDir_prefix_deltaPath ..

theorem computeDelta_eq_ok {originfile newfile basefile path : Path}
    (computed : computeDelta env originfile newfile basefile client = .ok (path, after)) :
    ∃ old new delta, DeltaComputed env originfile newfile basefile client path after old new delta := by
  simp only [computeDelta, Except.bind_eq_ok, require_eq_ok] at computed
  obtain ⟨there, origin, emptied, opens, old, oldRead, sig, signed, opened, sigOpened, created, deltaOpened, new, newRead,
    computed⟩ := computed
  rw [FileSystem.store_store opens] at sigOpened
  split at computed
  · next delta pipeline =>
    obtain ⟨stored, deltaStored, same⟩ := Except.bind_eq_ok.mp computed
    rw [require_eq_ok] at deltaStored
    obtain ⟨rfl, rfl⟩ := Prod.mk.inj (Except.ok.inj same)
    have regular : client.fs.Regular originfile := FileSystem.regular_iff_read.mpr ⟨there, origin⟩
    exact ⟨old, new, delta, rfl, regular, ⟨emptied, opens, oldRead⟩, pipeline, opened, created, stored,
      ⟨sig, signed, sigOpened⟩, deltaOpened, newRead, deltaStored, rfl⟩
  · exact absurd computed (by simp)

/-- `sync_pack_write` of one node, without the nodes its relation leads to. -/
inductive PackedOne (env : Env) (slot : ℕ) : Client → Client → Prop where
  /-- A new file without a relation that cannot be opened. -/
  | unopened {client : Client} : (client.node slot).op = .newfile →
    relFind (client.node slot).src client.rel = none → client.fs.read (client.node slot).src = none →
    PackedOne env slot client client
  /-- A new file without a relation. -/
  | whole {client : Client} {content : Bytes} : (client.node slot).op = .newfile →
    relFind (client.node slot).src client.rel = none → client.fs.read (client.node slot).src = some content →
    PackedOne env slot client (client.modifyNode slot fun sn => sn.packedFile content)
  /-- A new file whose relation leads to another version of its target. -/
  | stale {client computed : Client} {rh : RelHash} {deltaFile : Path} {check : UInt64} {content : Bytes} :
    (client.node slot).op = .newfile → relFind (client.node slot).src client.rel = some rh →
    computeDelta env (client.rel.rq.node rh.loc).dst (client.node slot).src (client.rel.rq.node rh.loc).dst client =
      .ok (deltaFile, computed) →
    client.db (client.rel.rq.node rh.loc).dst = some check → check ≠ (client.rel.rq.node rh.loc).time →
    computed.fs.read (client.node slot).src = some content →
    PackedOne env slot client (computed.modifyNode slot fun sn => sn.packedFile content)
  /-- A new file that is sent as a delta to the target of its relation. -/
  | related {client computed : Client} {rh : RelHash} {deltaFile : Path} {check : UInt64} :
    (client.node slot).op = .newfile → relFind (client.node slot).src client.rel = some rh →
    computeDelta env (client.rel.rq.node rh.loc).dst (client.node slot).src (client.rel.rq.node rh.loc).dst client =
      .ok (deltaFile, computed) →
    client.db (client.rel.rq.node rh.loc).dst = some check → check = (client.rel.rq.node rh.loc).time →
    PackedOne env slot client (computed.modifyNode slot fun sn => sn.packedDelta deltaFile check 0)
  /-- Writes that are sent as they are. -/
  | writes {client : Client} : (client.node slot).op = .write →
    sendsWrite ((client.node slot).bn.getD []) (client.fs.getFileSize (client.node slot).src) = true →
    PackedOne env slot client (client.modifyNode slot fun sn => { sn with op := .write, isPacked := true })
  /-- Writes that are sent as a delta to the file rebuilt from them. -/
  | rebuilt {client computed : Client} {copied undone : FileSystem} {deltaFile : Path} :
    (client.node slot).op = .write →
    sendsWrite ((client.node slot).bn.getD []) (client.fs.getFileSize (client.node slot).src) = false →
    copyfile (client.node slot).src (tmpPath (client.node slot).src) client.fs = some copied →
    copied.store (tmpPath (client.node slot).src) (undoWrites ((client.node slot).bn.getD [])
      ((copied.read (tmpPath (client.node slot).src)).getD [])) = some undone →
    computeDelta env (tmpPath (client.node slot).src) (client.node slot).src (client.node slot).src
      { client with fs := undone } = .ok (deltaFile, computed) →
    PackedOne env slot client
      { computed.modifyNode slot fun sn => sn.packedDelta deltaFile sn.baseVer sn.baseVer with
        fs := computed.fs.remove (tmpPath (client.node slot).src) }

theorem packWrite_eq_ok (write : (client.node slot).op = .write) (packed : packWrite env slot client = .ok after) :
    PackedOne env slot client after := by
  simp only [packWrite] at packed
  split at packed
  · next sends =>
    obtain rfl := Except.ok.inj packed
    exact .writes write sends
  · next sends =>
    simp only [Except.bind_eq_ok, require_eq_ok] at packed
    obtain ⟨copied, copies, undone, undoes, ⟨deltaFile, computed⟩, computing, packed⟩ := packed
    obtain rfl := Except.ok.inj packed
    exact .rebuilt write (by simpa using sends) copies undoes computing

/-- Packing one node rewrites that node and files, and leaves it packed unless it is a new file
without a relation that could not be opened. -/
theorem PackedOne.frame (packed : PackedOne env slot client after) :
    after.db = client.db ∧ after.rel = client.rel ∧ after.recfsCnt = client.recfsCnt ∧
      (∃ sn, after.queue = client.queue.modifyNode slot (fun _ => sn) ∧
        sn.isEmpty = (client.node slot).isEmpty ∧ sn.isDelete = (client.node slot).isDelete ∧
        sn.time = (client.node slot).time ∧ (sn.op = (client.node slot).op ∨ sn.op = .delta)) ∧
      ((after.node slot).isPacked = true ∨
        after = client ∧ (client.node slot).op = .newfile ∧ relFind (client.node slot).src client.rel = none ∧
          client.fs.read (client.node slot).src = none) := by
  cases packed with
  | unopened newfile unrelated missing =>
    refine ⟨rfl, rfl, rfl, ⟨client.node slot, ?_, rfl, rfl, rfl, .inl rfl⟩, .inr ⟨rfl, newfile, unrelated, missing⟩⟩
    simp [SyncQueue.modifyNode, RingBuffer.modify, Client.node]
  | whole => exact ⟨rfl, rfl, rfl, ⟨_, rfl, rfl, rfl, rfl, .inl rfl⟩, .inl (by simp [Client.node, Client.modifyNode,
      SyncQueue.modifyNode, RingBuffer.modify, SyncNode.packedFile])⟩
  | stale _ _ computing =>
    obtain ⟨old, new, delta, computed⟩ := computeDelta_eq_ok computing
    obtain ⟨_, _, _, _, _, _, _, rfl⟩ := computed.files
    exact ⟨rfl, rfl, rfl, ⟨_, rfl, rfl, rfl, rfl, .inl rfl⟩, .inl (by simp [Client.node, Client.modifyNode,
      SyncQueue.modifyNode, RingBuffer.modify, SyncNode.packedFile])⟩
  | related _ _ computing =>
    obtain ⟨old, new, delta, computed⟩ := computeDelta_eq_ok computing
    obtain ⟨_, _, _, _, _, _, _, rfl⟩ := computed.files
    exact ⟨rfl, rfl, rfl, ⟨_, rfl, rfl, rfl, rfl, .inr rfl⟩, .inl (by simp [Client.node, Client.modifyNode,
      SyncQueue.modifyNode, RingBuffer.modify, SyncNode.packedDelta])⟩
  | writes write =>
    exact ⟨rfl, rfl, rfl, ⟨_, rfl, rfl, rfl, rfl, .inl write.symm⟩, .inl (by simp [Client.node, Client.modifyNode,
      SyncQueue.modifyNode, RingBuffer.modify])⟩
  | rebuilt _ _ _ _ computing =>
    obtain ⟨old, new, delta, computed⟩ := computeDelta_eq_ok computing
    obtain ⟨_, _, _, _, _, _, _, rfl⟩ := computed.files
    exact ⟨rfl, rfl, rfl, ⟨_, rfl, rfl, rfl, rfl, .inr rfl⟩, .inl (by simp [Client.node, Client.modifyNode,
      SyncQueue.modifyNode, RingBuffer.modify, SyncNode.packedDelta])⟩

/-- What becomes of the node itself. -/
theorem PackedOne.node_cases (packed : PackedOne env slot client after) :
    after.node slot = client.node slot ∨
      ((client.node slot).op = .newfile ∧ ∃ content, after.node slot = (client.node slot).packedFile content) ∨
      ((client.node slot).op = .newfile ∧ ∃ rh deltaFile, relFind (client.node slot).src client.rel = some rh ∧
        client.db (client.rel.rq.node rh.loc).dst = some (client.rel.rq.node rh.loc).time ∧
        after.node slot = (client.node slot).packedDelta deltaFile (client.rel.rq.node rh.loc).time 0) ∨
      (client.node slot).op = .write ∧ (after.node slot = { client.node slot with op := .write, isPacked := true } ∨
        ∃ deltaFile, after.node slot =
          (client.node slot).packedDelta deltaFile (client.node slot).baseVer (client.node slot).baseVer) := by
  have here (state : Client) (change : SyncNode → SyncNode) :
      (state.modifyNode slot change).node slot = change (state.node slot) := by
    simp [Client.node, Client.modifyNode, SyncQueue.modifyNode, RingBuffer.modify_node]
  cases packed with
  | unopened => exact .inl rfl
  | whole newfile => exact .inr (.inl ⟨newfile, _, here _ _⟩)
  | stale newfile _ computing =>
    obtain ⟨old, new, delta, computed⟩ := computeDelta_eq_ok computing
    obtain ⟨_, _, _, _, _, _, _, rfl⟩ := computed.files
    exact .inr (.inl ⟨newfile, _, here _ _⟩)
  | related newfile related computing version current =>
    obtain ⟨old, new, delta, computed⟩ := computeDelta_eq_ok computing
    obtain ⟨_, _, _, _, _, _, _, rfl⟩ := computed.files
    subst current
    exact .inr (.inr (.inl ⟨newfile, _, _, related, version, here _ _⟩))
  | writes write => exact .inr (.inr (.inr ⟨write, .inl (here _ _)⟩))
  | rebuilt write _ _ _ computing =>
    obtain ⟨old, new, delta, computed⟩ := computeDelta_eq_ok computing
    obtain ⟨_, _, _, _, _, _, _, rfl⟩ := computed.files
    exact .inr (.inr (.inr ⟨write, .inr ⟨_, here _ _⟩⟩))

/-! ## Chains of relations -/

/-- The pending node that packing the node of a slot leads to. -/
def packsNext (client : Client) (slot : ℕ) : Option ℕ :=
  if (client.node slot).op = .newfile then
    (relFind (client.node slot).src client.rel).bind fun rh =>
      (syncFind (client.rel.rq.node rh.loc).dst client.queue).1.map SyncHash.loc
  else none

/-- The nodes that `sync_pack_write` comes to, each with the queue in which it looks for the next one. -/
def packVisits (rel : RelTable) : ℕ → ℕ → SyncQueue → List (ℕ × SyncQueue)
  | 0, _, _ => []
  | fuel + 1, slot, queue =>
    (slot, queue) ::
      if (queue.sq.node slot).op = .newfile then
        match relFind (queue.sq.node slot).src rel with
        | none => []
        | some rh =>
          match syncFind (rel.rq.node rh.loc).dst queue with
          | (some sh, queue) => packVisits rel fuel sh.loc queue
          | (none, _) => []
      else []

/-- Following `next` from a slot ends after so many steps. -/
inductive Ends (next : ℕ → Option ℕ) : ℕ → ℕ → Prop where
  | here {slot : ℕ} : next slot = none → Ends next slot 0
  | there {slot target depth : ℕ} : next slot = some target → Ends next target depth → Ends next slot (depth + 1)

theorem Ends.unique {next : ℕ → Option ℕ} {depth other : ℕ} (first : Ends next slot depth)
    (second : Ends next slot other) : depth = other := by
  induction first generalizing other with
  | here stops =>
    cases second with
    | here => rfl
    | there goes _ => exact absurd (stops.symm.trans goes) (by simp)
  | there goes _ ih =>
    cases second with
    | here stops => exact absurd (stops.symm.trans goes) (by simp)
    | there also rest =>
      obtain rfl := Option.some.inj (goes.symm.trans also)
      rw [ih rest]

/-- What is reached from the next slot is not the slot itself. -/
theorem Ends.not_mem {next : ℕ → Option ℕ} {target depth : ℕ} {touched : List ℕ} (goes : next slot = some target)
    (ends : Ends next target depth) (below : ∀ other ∈ touched, ∃ less < depth, Ends next other less) :
    slot ∉ touched ++ [target] := by
  have deepest : Ends next slot (depth + 1) := .there goes ends
  rw [List.mem_append, List.mem_singleton, not_or]
  refine ⟨fun inside => ?_, fun same => ?_⟩
  · obtain ⟨less, smaller, ends'⟩ := below slot inside
    have := deepest.unique ends'
    omega
  · have := deepest.unique (same ▸ ends)
    omega

/-- Lookups, and packed nodes whose entries are removed, in the order they were packed. -/
inductive PackRun (env : Env) : Client → Client → List ℕ → Prop where
  | refl (client : Client) : PackRun env client client []
  | find {first client : Client} {touched : List ℕ} (path : Path) : PackRun env first client touched →
    PackRun env first { client with queue := (syncFind path client.queue).2 } touched
  | pack {first client packed : Client} {touched : List ℕ} {sh : SyncHash} : PackRun env first client touched →
    sh ∈ client.queue.shs → PackedOne env sh.loc client packed → (packed.node sh.loc).isPacked = true →
    PackRun env first { packed with queue := hashDel sh packed.queue } (touched ++ [sh.loc])

namespace PackRun

variable {first middle last : Client} {touched later : List ℕ}

theorem trans (left : PackRun env first middle touched) (right : PackRun env middle last later) :
    PackRun env first last (touched ++ later) := by
  induction right with
  | refl => simpa using left
  | find path _ ih => exact ih.find path
  | pack _ member one packed ih =>
    rw [← List.append_assoc]
    exact ih.pack member one packed

/-- A run of packing keeps the hash tidy and touches neither versions nor relations. -/
theorem frame (run : PackRun env first last touched) (tidy : Tidy first.queue) :
    Tidy last.queue ∧ last.db = first.db ∧ last.rel = first.rel ∧ last.recfsCnt = first.recfsCnt := by
  induction run with
  | refl => exact ⟨tidy, rfl, rfl, rfl⟩
  | find path _ ih =>
    obtain ⟨kept, db, rel, cnt⟩ := ih
    exact ⟨(kept.syncFind path).2.2.1, db, rel, cnt⟩
  | pack _ member one _ ih =>
    obtain ⟨kept, db, rel, cnt⟩ := ih
    obtain ⟨db', rel', cnt', ⟨sn, queue, -⟩, -⟩ := one.frame
    refine ⟨?_, db'.trans db, rel'.trans rel, cnt'.trans cnt⟩
    rw [queue]
    refine kept.hashDel member rfl fun slot different => ?_
    simp [SyncQueue.modifyNode, RingBuffer.modify_node, different]

/-- Nodes that were not packed are as they were. -/
theorem node_eq (run : PackRun env first last touched) (tidy : Tidy first.queue) {slot : ℕ}
    (untouched : slot ∉ touched) : last.node slot = first.node slot := by
  induction run with
  | refl => rfl
  | find path before ih =>
    rw [← ih untouched]
    simp only [Client.node, ((before.frame tidy).1.syncFind path).1]
  | pack _ member one _ ih =>
    rw [List.mem_append, List.mem_singleton, not_or] at untouched
    obtain ⟨-, -, -, ⟨sn, queue, -⟩, -⟩ := one.frame
    rw [← ih untouched.1]
    simp [Client.node, hashDel, queue, SyncQueue.modifyNode, RingBuffer.modify_node, untouched.2]

/-- Packing adds no entries. -/
theorem subset (run : PackRun env first last touched) (tidy : Tidy first.queue) {sh : SyncHash}
    (member : sh ∈ last.queue.shs) : sh ∈ first.queue.shs := by
  induction run with
  | refl => exact member
  | find path before ih =>
    rw [((before.frame tidy).1.syncFind path).2.1] at member
    exact ih member
  | pack _ _ one _ ih =>
    obtain ⟨-, -, -, ⟨sn, queue, -⟩, -⟩ := one.frame
    rw [queue] at member
    exact ih (List.mem_of_mem_erase member)

/-- An entry stays unless its node was packed. -/
theorem mem_shs (run : PackRun env first last touched) (tidy : Tidy first.queue) {sh : SyncHash}
    (member : sh ∈ first.queue.shs) (untouched : sh.loc ∉ touched) : sh ∈ last.queue.shs := by
  induction run with
  | refl => exact member
  | find path before ih =>
    rw [((before.frame tidy).1.syncFind path).2.1]
    exact ih untouched
  | pack before _ one _ ih =>
    rw [List.mem_append, List.mem_singleton, not_or] at untouched
    obtain ⟨-, -, -, ⟨sn, queue, -⟩, -⟩ := one.frame
    simp only [hashDel, queue, SyncQueue.modifyNode, (before.frame tidy).1.mem_erase_iff]
    exact ⟨ih untouched.1, fun same => untouched.2 (same ▸ rfl)⟩

end PackRun

/-! ## The recursion -/

/-- Lookups do not change where packing leads. -/
theorem packsNext_congr (client client' : Client) (tidy : Tidy client.queue) (tidy' : Tidy client'.queue)
    (ring : client'.queue.sq = client.queue.sq) (entries : client'.queue.shs = client.queue.shs)
    (rel : client'.rel = client.rel) : packsNext client' = packsNext client := by
  funext slot
  simp only [packsNext, Client.node, ring, rel, tidy.syncFind_congr tidy' entries]
  rfl

theorem packNewfile_frame (slot : ℕ) (client : Client) :
    (packNewfile slot client).queue.shs = client.queue.shs ∧ (packNewfile slot client).db = client.db ∧
      (packNewfile slot client).rel = client.rel := by
  simp only [packNewfile]
  split
  · exact ⟨rfl, rfl, rfl⟩
  · exact ⟨rfl, rfl, rfl⟩

theorem packNewfile_of_read (slot : ℕ) (client : Client) {content : Bytes}
    (readable : client.fs.read (client.node slot).src = some content) :
    packNewfile slot client = client.modifyNode slot fun sn => sn.packedFile content := by
  simp only [packNewfile, readable]

/-- The last part of packing a new file with a relation. -/
private theorem packedOne_of_relation {computed : Client} {rh : RelHash} {deltaFile : Path} {check : UInt64}
    (newfile : (client.node slot).op = .newfile) (related : relFind (client.node slot).src client.rel = some rh)
    (computing : computeDelta env (client.rel.rq.node rh.loc).dst (client.node slot).src
      (client.rel.rq.node rh.loc).dst client = .ok (deltaFile, computed))
    (version : computed.db (client.rel.rq.node rh.loc).dst = some check)
    (packed : (if check = (client.rel.rq.node rh.loc).time then
        pure (computed.modifyNode slot fun sn => sn.packedDelta deltaFile check 0)
      else pure (packNewfile slot computed) : Except Stop Client) = .ok after) :
    PackedOne env slot client after := by
  obtain ⟨old, new, delta, facts⟩ := computeDelta_eq_ok computing
  obtain ⟨content, readable⟩ := FileSystem.regular_iff_read.mp facts.new_regular
  obtain ⟨_, _, _, _, _, _, _, rfl⟩ := facts.files
  split at packed
  · next current =>
    obtain rfl := Except.ok.inj packed
    exact .related newfile related computing version current
  · next changed =>
    obtain rfl := Except.ok.inj packed
    rw [packNewfile_of_read slot _ readable]
    exact .stale newfile related computing version changed readable

/-- Packing what the relation of a new file leads to. -/
def packsBefore (env : Env) (fuel slot : ℕ) (client : Client) : Except Stop Client :=
  match relFind (client.node slot).src client.rel with
  | none => .ok client
  | some rh =>
    let found := syncFind (client.rel.rq.node rh.loc).dst client.queue
    packFound (syncPackWrite env fuel) found.1 { client with queue := found.2 }

/-- `sync_pack_write` packs the nodes its relations lead to, which are other nodes, and then the one
it was called for. -/
theorem syncPackWrite_run {fuel : ℕ} (tidy : Tidy client.queue) (pending : (client.node slot).Pending)
    (packed : syncPackWrite env fuel slot client = .ok after) :
    ∃ middle touched depth, PackRun env client middle touched ∧ slot ∉ touched ∧
      PackedOne env slot middle after ∧ Ends (packsNext client) slot depth ∧
      (∀ other ∈ touched, ∃ less < depth, Ends (packsNext client) other less) ∧
      ∀ less, fuel = less + 1 → (client.node slot).op = .newfile → packsBefore env less slot client = .ok middle := by
  induction fuel generalizing slot client after with
  | zero => exact absurd packed (by simp [syncPackWrite])
  | succ fuel ih =>
    rw [syncPackWrite] at packed
    rcases pending.op_cases with newfile | write
    · simp only [newfile] at packed
      cases related : relFind (client.node slot).src client.rel with
      | none =>
        simp only [related] at packed
        have stops : packsNext client slot = none := by simp [packsNext, newfile, related]
        refine ⟨client, [], 0, .refl client, by simp, ?_, .here stops, by simp,
          fun _ _ _ => by simp only [packsBefore, related]⟩
        obtain rfl := Except.ok.inj packed
        simp only [packNewfile]
        split
        · next missing => exact .unopened newfile related missing
        · next content readable => exact .whole newfile related readable
      | some rh =>
        simp only [related, Except.bind_eq_ok, require_eq_ok, recfsGetTimestamp] at packed
        obtain ⟨inner, packing, ⟨deltaFile, computed⟩, computing, check, version, packed⟩ := packed
        have first (less : ℕ) (same : fuel + 1 = less + 1) : packsBefore env less slot client = .ok inner := by
          obtain rfl : fuel = less := by omega
          simpa only [packsBefore, related] using packing
        obtain ⟨ring, entries, tidy', -⟩ := tidy.syncFind (client.rel.rq.node rh.loc).dst
        have looked : PackRun env client _ [] := .find (client.rel.rq.node rh.loc).dst (.refl client)
        -- the node itself is not touched before its own turn
        have finish {touched : List ℕ} (run : PackRun env client inner touched) (untouched : slot ∉ touched) :
            PackedOne env slot inner after := by
          obtain ⟨-, -, rel, -⟩ := run.frame tidy
          have unchanged := run.node_eq tidy untouched
          rw [← rel] at computing version packed related
          rw [← unchanged] at newfile related
          exact packedOne_of_relation newfile related computing version packed
        cases hit : (syncFind (client.rel.rq.node rh.loc).dst client.queue).1 with
        | none =>
          have stops : packsNext client slot = none := by simp [packsNext, newfile, related, hit]
          rw [hit] at packing
          obtain rfl := Except.ok.inj packing
          exact ⟨_, [], 0, looked, by simp, finish looked (by simp), .here stops, by simp, fun less same _ => first less same⟩
        | some sh =>
          have goes : packsNext client slot = some sh.loc := by simp [packsNext, newfile, related, hit]
          simp only [hit, packFound, Except.bind_eq_ok] at packing
          obtain ⟨deep, deeper, packing⟩ := packing
          obtain rfl := Except.ok.inj packing
          obtain ⟨member, named⟩ := tidy.found hit
          obtain ⟨-, -, pending', src⟩ := tidy'.refers sh (entries ▸ member)
          obtain ⟨middle, touched, depth, run, apart, one, ends, below, -⟩ :=
            @ih { client with queue := (syncFind (client.rel.rq.node rh.loc).dst client.queue).2 } deep sh.loc
              tidy' pending' deeper
          rw [packsNext_congr client { client with queue := _ } tidy tidy' ring entries rfl] at ends below
          have entered := run.mem_shs tidy' (entries.symm ▸ member) apart
          have opened : (deep.node sh.loc).isPacked = true := by
            rcases one.frame.2.2.2.2 with done | ⟨rfl, -, -, missing⟩
            · exact done
            · -- a target that could not be opened fails `compute_delta`
              obtain ⟨old, new, delta, facts⟩ := computeDelta_eq_ok computing
              obtain ⟨_, readable⟩ := FileSystem.regular_iff_read.mp facts.origin
              rw [run.node_eq tidy' apart] at missing
              have absent := missing.symm.trans ((congrArg deep.fs.read (src.trans named)).trans readable)
              exact absurd absent (by simp)
          have whole := (looked.trans run).pack entered one opened
          have untouched : slot ∉ [] ++ touched ++ [sh.loc] := ends.not_mem goes below
          refine ⟨_, _, depth + 1, whole, untouched, finish whole untouched, .there goes ends, ?_,
            fun less same _ => first less same⟩
          intro other inside
          rw [List.nil_append, List.mem_append, List.mem_singleton] at inside
          rcases inside with inside | rfl
          · obtain ⟨less, smaller, ends'⟩ := below other inside
            exact ⟨less, by omega, ends'⟩
          · exact ⟨depth, by omega, ends⟩
    · simp only [write] at packed
      have stops : packsNext client slot = none := by simp [packsNext, write]
      exact ⟨client, [], 0, .refl client, by simp, packWrite_eq_ok write packed, .here stops, by simp,
        fun _ _ newfile => absurd (write.symm.trans newfile) (by simp)⟩

/-- The lookup has put the path into the cache, so the cache is reset. -/
theorem syncPackWritePath_eq (env : Env) (path : Path) (client : Client) :
    syncPackWritePath env path client =
      match syncFind path client.queue with
      | (some sh, queue) => syncPackWrite env packFuel sh.loc { client with queue := hashDel sh queue }
      | (none, queue) => .ok { client with queue := queue } := by
  rw [syncPackWritePath]
  cases hit : syncFind path client.queue with
  | mk result queue =>
    cases result with
    | none => rfl
    | some sh =>
      have cached := (syncFind_cached (congrArg Prod.fst hit)).2
      simp only [hit] at cached
      simp only [hashDelPath, hashDel, cached, ↓reduceIte]

/-- `sync_pack_write_path` packs the pending node of the path after removing its entry. -/
theorem syncPackWritePath_run {path : Path} (packed : syncPackWritePath env path client = .ok after)
    (tidy : Tidy client.queue) :
    ((∀ sh ∈ client.queue.shs, sh.path ≠ path) ∧
        after = { client with queue := (syncFind path client.queue).2 }) ∨
      ∃ sh middle touched, sh ∈ client.queue.shs ∧ sh.path = path ∧
        syncPackWrite env packFuel sh.loc { client with queue := hashDel sh (syncFind path client.queue).2 } =
          .ok after ∧
        PackRun env { client with queue := hashDel sh (syncFind path client.queue).2 } middle touched ∧
        sh.loc ∉ touched ∧ PackedOne env sh.loc middle after := by
  obtain ⟨ring, entries, tidy', -⟩ := tidy.syncFind path
  rw [syncPackWritePath_eq] at packed
  split at packed
  · next sh queue hit =>
    have found : (syncFind path client.queue).1 = some sh := by rw [hit]
    have rest : (syncFind path client.queue).2 = queue := by rw [hit]
    rw [rest] at ring entries tidy' ⊢
    obtain ⟨member, named⟩ := tidy.found found
    have pending := (tidy.refers sh member).pending
    rw [← ring] at pending
    obtain ⟨middle, touched, -, run, apart, one, -⟩ := @syncPackWrite_run env
      { client with queue := hashDel sh queue } after sh.loc packFuel
      (tidy'.hashDel (entries ▸ member) rfl fun _ _ => rfl) pending packed
    exact .inr ⟨sh, middle, touched, member, named, packed, run, apart, one⟩
  · next queue miss =>
    have found : (syncFind path client.queue).1 = none := by rw [miss]
    have rest : (syncFind path client.queue).2 = queue := by rw [miss]
    exact .inl ⟨tidy.not_found found, by rw [rest]; exact (Except.ok.inj packed).symm⟩

/-- Packing adds no entries, and leaves none of the path. -/
theorem syncPackWritePath_entries {path : Path} (packed : syncPackWritePath env path client = .ok after)
    (tidy : Tidy client.queue) :
    Tidy after.queue ∧ ∀ sh ∈ after.queue.shs, sh ∈ client.queue.shs ∧ sh.path ≠ path := by
  obtain ⟨-, entries, looked, -⟩ := tidy.syncFind path
  rcases syncPackWritePath_run packed tidy with
    ⟨none, rfl⟩ | ⟨sh, middle, touched, member, named, -, run, -, one⟩
  · exact ⟨looked, fun other kept => ⟨entries ▸ kept, none other (entries ▸ kept)⟩⟩
  · have deleted : Tidy (hashDel sh (syncFind path client.queue).2) :=
      looked.hashDel (entries ▸ member) rfl fun _ _ => rfl
    have others : ∀ other ∈ middle.queue.shs, other ∈ client.queue.shs ∧ other ≠ sh := by
      intro other kept
      have split := looked.mem_erase_iff.mp (run.subset deleted kept)
      exact ⟨entries ▸ split.1, split.2⟩
    obtain ⟨-, -, -, ⟨sn, changed, -⟩, -⟩ := one.frame
    rw [changed]
    refine ⟨(run.frame deleted).1.modifyNode (fun other kept same => ?_) _, fun other kept => ?_⟩
    · exact (others other kept).2 (tidy.eq_of_loc (others other kept).1 member same)
    · refine ⟨(others other kept).1, fun same => (others other kept).2 ?_⟩
      exact tidy.eq_of_path (others other kept).1 member (same.trans named.symm)

/-- A new file without a relation is packed by itself. -/
theorem syncPackWrite_unrelated {fuel : ℕ} (newfile : (client.node slot).op = .newfile)
    (unrelated : relFind (client.node slot).src client.rel = none) :
    syncPackWrite env (fuel + 1) slot client = .ok (packNewfile slot client) := by
  rw [syncPackWrite]
  simp only [newfile, unrelated]

/-! ## The rule for properties of packing -/

/-- A property of the client that does not depend on the hash and that packing one pending node
keeps. -/
structure PackInvariant (env : Env) (Inv : Client → Prop) : Prop where
  hash : ∀ {client : Client} {queue : SyncQueue}, queue.sq = client.queue.sq → Inv client →
    Inv { client with queue := queue }
  one : ∀ {slot : ℕ} {client after : Client}, slot < queueSize → (client.node slot).isEmpty = false →
    (client.node slot).Pending → PackedOne env slot client after → Inv client → Inv after

namespace PackInvariant

variable {Inv : Client → Prop}

theorem packRun (rule : PackInvariant env Inv) {touched : List ℕ} (tidy : Tidy client.queue)
    (run : PackRun env client after touched) (start : Inv client) : Inv after := by
  induction run with
  | refl => exact start
  | find path before ih => exact rule.hash ((before.frame tidy).1.syncFind path).1 ih
  | pack before member one _ ih =>
    obtain ⟨bound, occupied, pending, -⟩ := (before.frame tidy).1.refers _ member
    exact rule.hash rfl (rule.one bound occupied pending one ih)

/-- Packing a node after a run of packing. -/
theorem last (rule : PackInvariant env Inv) {middle : Client} {touched : List ℕ} (tidy : Tidy client.queue)
    (run : PackRun env client middle touched) (apart : slot ∉ touched) (one : PackedOne env slot middle after)
    (bound : slot < queueSize) (occupied : (client.node slot).isEmpty = false)
    (pending : (client.node slot).Pending) (start : Inv client) : Inv after := by
  have same := run.node_eq tidy apart
  exact rule.one bound (same ▸ occupied) (same ▸ pending) one (rule.packRun tidy run start)

theorem packPath (rule : PackInvariant env Inv) {path : Path}
    (packed : syncPackWritePath env path client = .ok after) (tidy : Tidy client.queue) (start : Inv client) :
    Inv after := by
  obtain ⟨ring, entries, tidy', -⟩ := tidy.syncFind path
  rcases syncPackWritePath_run packed tidy with ⟨-, rfl⟩ | ⟨sh, middle, touched, member, -, -, run, apart, one⟩
  · exact rule.hash ring start
  · obtain ⟨bound, occupied, pending, -⟩ := tidy'.refers sh (entries ▸ member)
    have deleted : Tidy (hashDel sh (syncFind path client.queue).2) :=
      tidy'.hashDel (entries ▸ member) rfl fun _ _ => rfl
    exact rule.last deleted run apart one bound occupied pending (rule.hash ring start)

end PackInvariant

/-- Packing touches neither versions nor relations nor the counter. -/
theorem syncPackWritePath_frame {path : Path} (packed : syncPackWritePath env path client = .ok after)
    (tidy : Tidy client.queue) :
    after.db = client.db ∧ after.rel = client.rel ∧ after.recfsCnt = client.recfsCnt := by
  have rule : PackInvariant env fun state =>
      state.db = client.db ∧ state.rel = client.rel ∧ state.recfsCnt = client.recfsCnt := by
    refine ⟨fun _ kept => kept, fun _ _ _ one kept => ?_⟩
    obtain ⟨db, rel, cnt, -⟩ := one.frame
    exact ⟨db.trans kept.1, rel.trans kept.2.1, cnt.trans kept.2.2⟩
  exact rule.packPath packed tidy ⟨rfl, rfl, rfl⟩

/-- The entries that are left are for nodes that have not changed. -/
theorem syncPackWritePath_kept {path : Path} (packed : syncPackWritePath env path client = .ok after)
    (tidy : Tidy client.queue) (sh : SyncHash) (member : sh ∈ after.queue.shs) :
    sh ∈ client.queue.shs ∧ after.queue.sq.node sh.loc = client.queue.sq.node sh.loc := by
  have rule : PackInvariant env fun state =>
      ∀ slot, (state.node slot).Pending → state.node slot = client.node slot := by
    refine ⟨fun ring kept slot => ?_, fun _ _ _ one kept slot => ?_⟩
    · simpa only [Client.node, ring] using kept slot
    · rename_i here state next _ _ _
      obtain ⟨-, -, -, ⟨sn, changed, -⟩, packs | ⟨rfl, -⟩⟩ := one.frame
      · by_cases same : slot = here
        · subst same
          exact fun waits => absurd waits (SyncNode.not_pending_of_packed packs)
        · have node : next.node slot = state.node slot := by
            simp [Client.node, changed, SyncQueue.modifyNode, RingBuffer.modify_node, same]
          rw [node]
          exact kept slot
      · exact kept slot
  obtain ⟨tidy', fewer⟩ := syncPackWritePath_entries packed tidy
  exact ⟨(fewer sh member).1, rule.packPath packed tidy (fun _ _ => rfl) sh.loc (tidy'.refers sh member).pending⟩

/-- Neither the ring has moved nor a slot been freed or filled. -/
structure SameRing (before after : SyncQueue) : Prop where
  head : after.sq.head = before.sq.head
  tail : after.sq.tail = before.sq.tail
  flags : ∀ slot, (after.sq.node slot).isEmpty = (before.sq.node slot).isEmpty

/-- Packing works in place. -/
theorem SameRing.rule (env : Env) (queue : SyncQueue) : PackInvariant env fun state => SameRing queue state.queue where
  hash := by
    intro client queue' ring kept
    exact ⟨by rw [ring, kept.head], by rw [ring, kept.tail], fun slot => by rw [ring, kept.flags]⟩
  one := by
    intro slot client after _ _ _ one kept
    obtain ⟨-, -, -, ⟨sn, same, flag, -⟩, -⟩ := one.frame
    rw [same]
    refine ⟨kept.head, kept.tail, fun other => ?_⟩
    rw [← kept.flags other]
    simp only [SyncQueue.modifyNode, RingBuffer.modify_node]
    split
    · next equal => rw [flag, equal]; rfl
    · rfl

end DeltaCFS
