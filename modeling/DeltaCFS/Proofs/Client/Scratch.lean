import DeltaCFS.Proofs.Client.Following
import DeltaCFS.Proofs.Client.Inodes

/-! # The temporary directory during a call

Which copies `sync_pack_write` makes, which deltas it computes and which of them become nodes can be
told from the state before the call: from the pending nodes and the relations, from versions, and from
the sizes of files. The letters that `rand` gives then tell the names. So it can be told from this
state whether one of these names is that of a delta that waits in the queue.
-/

namespace DeltaCFS

variable {env : Env} {client state after : Client} {slot fuel : ℕ} {path source target name : Path}
  {fs first : FileSystem} {queue queue' : SyncQueue} {rel : RelTable} {size : Path → ℤ} {db : Path → Option UInt64}

/-! ## Names -/

/-- The node of the slot is a delta in the queue. -/
def Client.QueuedDelta (client : Client) (slot : ℕ) : Prop :=
  slot < queueSize ∧ (client.node slot).isEmpty = false ∧ (client.node slot).op = .delta

instance (client : Client) (slot : ℕ) : Decidable (client.QueuedDelta slot) := inferInstanceAs (Decidable (_ ∧ _))

/-- No delta in the queue has the name for its file. -/
def Client.Avoids (client : Client) (name : Path) : Prop :=
  ∀ slot, client.QueuedDelta slot → (client.node slot).src ≠ name

/-- A step of a call in the temporary directory: the copy of a file is made, a delta is computed, which a
node takes or not, and the copy is removed. -/
inductive Work where
  | copy (path : Path)
  | delta (basefile : Path) (taken : Bool)
  | discard (path : Path)

/-- How many deltas were computed, which names stand for one file, which names the deltas in the queue
have, and which names the call has written. -/
structure Scratch where
  deltas : ℕ
  same : Path → Path → Prop
  held : Set Path
  written : Set Path

def Client.scratch (client : Client) : Scratch where
  deltas := client.deltas
  same := client.fs.Same
  held := {name | ∃ slot, client.QueuedDelta slot ∧ (client.node slot).src = name}
  written := ∅

namespace Scratch

/-- The name is for none of the files of these deltas. -/
def Avoids (scratch : Scratch) (name : Path) : Prop := ∀ held ∈ scratch.held, ¬ scratch.same name held

def write (name : Path) (scratch : Scratch) : Scratch := { scratch with written := insert name scratch.written }

/-- The name is written and then removed. -/
def remove (name : Path) (scratch : Scratch) : Scratch where
  deltas := scratch.deltas
  same path other := path = other ∨ path ≠ name ∧ other ≠ name ∧ scratch.same path other
  held := scratch.held
  written := insert name scratch.written

def compute (path : Path) (taken : Bool) (scratch : Scratch) : Scratch where
  deltas := scratch.deltas + 1
  same := scratch.same
  held := if taken then insert path scratch.held else scratch.held
  written := insert path scratch.written

/-- The sizes of files that the call has not written. -/
def Sizes (scratch : Scratch) (fs : FileSystem) (size : Path → ℤ) : Prop :=
  ∀ path, (∀ name ∈ scratch.written, ¬ fs.Same name path) → size path = fs.getFileSize path

/-- Neither a delta file nor a directory above it is moved or replaced; what lies below the target while
it is a directory keeps it from being replaced. -/
def Stays (fs : FileSystem) (source target : Path) (scratch : Scratch) : Prop :=
  ∀ name ∈ scratch.held, name ≠ source ∧ FileSystem.isBelow source name = false ∧ name ≠ target ∧
    (FileSystem.isBelow target name = true → fs.entry target = some .dir)

end Scratch

/-- The names that are written are for none of the files of the deltas in the queue. -/
def Work.Clear (env : Env) (scratch : Scratch) : Work → Prop
  | .copy path => scratch.Avoids (tmpPath path)
  | .delta basefile _ => scratch.Avoids (sigPath basefile) ∧ scratch.Avoids (deltaPath env scratch.deltas basefile)
  | .discard path => tmpPath path ∉ scratch.held

def Work.next (env : Env) (scratch : Scratch) : Work → Scratch
  | .copy path => scratch.write (tmpPath path)
  | .delta basefile taken => (scratch.remove (sigPath basefile)).compute (deltaPath env scratch.deltas basefile) taken
  | .discard path => scratch.remove (tmpPath path)

/-- Every step is clear when its turn comes, and then the rest holds. -/
def clears (env : Env) : List Work → (Scratch → Prop) → Scratch → Prop
  | [], rest, scratch => rest scratch
  | work :: more, rest, scratch => work.Clear env scratch ∧ clears env more rest (work.next env scratch)

theorem clears_append {works more : List Work} {rest : Scratch → Prop} {scratch : Scratch} :
    clears env (works ++ more) rest scratch ↔ clears env works (clears env more rest) scratch := by
  induction works generalizing scratch with
  | nil => rfl
  | cons work works ih => exact and_congr_right fun _ => ih

/-! ## Packing -/

/-- What `sync_pack_write` does in the temporary directory, with the sizes that files have then. -/
def packWork (size : Path → ℤ) (db : Path → Option UInt64) (rel : RelTable) : ℕ → ℕ → SyncQueue → List Work
  | 0, _, _ => []
  | fuel + 1, slot, queue =>
    let sn := queue.sq.node slot
    match relationOf rel sn with
    | some rn =>
      let found := syncFind rn.dst queue
      (match found.1 with
        | some sh => packWork size db rel fuel sh.loc found.2
        | none => []) ++ [.delta rn.dst (decide (db rn.dst = some rn.time))]
    | none =>
      if sn.op = .write ∧ sendsWrite (sn.bn.getD []) (size sn.src) = false then
        [.copy sn.src, .delta sn.src true, .discard sn.src]
      else []

/-- The same for `sync_pack_write_path`. -/
def packWorkPath (size : Path → ℤ) (db : Path → Option UInt64) (rel : RelTable) (path : Path) (queue : SyncQueue) :
    List Work :=
  match syncFind path queue with
  | (some sh, queue) => packWork size db rel packFuel sh.loc (hashDel sh queue)
  | (none, _) => []

def Client.packWork (path : Path) (client : Client) : List Work :=
  packWorkPath client.fs.getFileSize client.db client.rel path client.queue

/-- The entries that `sync_pack_write` leaves. -/
def packLeft (rel : RelTable) : ℕ → ℕ → SyncQueue → List SyncHash
  | 0, _, queue => queue.shs
  | fuel + 1, slot, queue =>
    match relationOf rel (queue.sq.node slot) with
    | some rn =>
      let found := syncFind rn.dst queue
      match found.1 with
      | some sh => (packLeft rel fuel sh.loc found.2).erase sh
      | none => found.2.shs
    | none => queue.shs

/-- The queue after `sync_pack_write_path`, but for the nodes that have no entries any more. -/
def packLeftPath (rel : RelTable) (path : Path) (queue : SyncQueue) : SyncQueue :=
  match syncFind path queue with
  | (some sh, queue) => { queue with shs := packLeft rel packFuel sh.loc (hashDel sh queue), hashCacheResult := none }
  | (none, queue) => queue

/-- Packing leaves the entries that are left. -/
theorem syncPackWrite_left (packed : syncPackWrite env fuel slot client = .ok after) :
    after.queue.shs = packLeft client.rel fuel slot client.queue := by
  induction fuel generalizing slot client after with
  | zero => exact absurd packed (by simp [syncPackWrite])
  | succ fuel ih =>
    rw [syncPackWrite] at packed
    rw [packLeft]
    split at packed
    · next newfile =>
      cases found : relFind (client.node slot).src client.rel with
      | none =>
        have unrelated : relationOf client.rel (client.queue.sq.node slot) = none := by
          have missing : relFind (client.queue.sq.node slot).src client.rel = none := found
          simp [relationOf, missing]
        simp only [found] at packed
        obtain rfl := Except.ok.inj packed
        rw [unrelated, (packNewfile_frame slot client).1]
      | some rh =>
        have related : relationOf client.rel (client.queue.sq.node slot) = some (client.rel.rq.node rh.loc) :=
          relationOf_newfile newfile found
        simp only [found, Except.bind_eq_ok, require_eq_ok, recfsGetTimestamp] at packed
        obtain ⟨inner, packing, ⟨deltaFile, computed⟩, computing, check, -, packed⟩ := packed
        have same : after.queue.shs = inner.queue.shs := by
          obtain ⟨old, new, delta, facts⟩ := computeDelta_eq_ok computing
          obtain ⟨_, _, _, _, _, _, _, rfl⟩ := facts.files
          split at packed
          · obtain rfl := Except.ok.inj packed
            rfl
          · obtain rfl := Except.ok.inj packed
            exact (packNewfile_frame slot _).1
        rw [same, related]
        dsimp only
        cases hit : (syncFind (client.rel.rq.node rh.loc).dst client.queue).1 with
        | none =>
          rw [hit] at packing
          obtain rfl := Except.ok.inj packing
          rfl
        | some sh =>
          simp only [hit, packFound, Except.bind_eq_ok] at packing
          obtain ⟨deep, deeper, packing⟩ := packing
          obtain rfl := Except.ok.inj packing
          exact congrArg (List.erase · sh) (ih deeper)
    · next write =>
      have unrelated : relationOf client.rel (client.queue.sq.node slot) = none := by
        have other : (client.queue.sq.node slot).op = .write := write
        simp [relationOf, other]
      obtain ⟨-, -, -, ⟨sn, changed, -⟩, -⟩ := (packWrite_eq_ok write packed).frame
      rw [unrelated, changed]
      rfl
    · next other _ =>
      have unrelated : relationOf client.rel (client.queue.sq.node slot) = none := by
        have apart : (client.queue.sq.node slot).op ≠ .newfile := other
        simp [relationOf, apart]
      rw [unrelated, Except.ok.inj packed]

/-- Two tidy queues with the same entries and the same nodes for them are packed alike. -/
theorem packWork_congr (tidy : Tidy queue) (tidy' : Tidy queue') (entries : queue'.shs = queue.shs)
    (nodes : ∀ sh ∈ queue.shs, queue'.sq.node sh.loc = queue.sq.node sh.loc)
    (same : queue'.sq.node slot = queue.sq.node slot) :
    packWork size db rel fuel slot queue' = packWork size db rel fuel slot queue := by
  induction fuel generalizing slot queue queue' with
  | zero => rfl
  | succ fuel ih =>
    simp only [packWork, same]
    split
    · next rn related =>
      rw [tidy.syncFind_congr tidy' entries rn.dst]
      cases hit : (syncFind rn.dst queue).1 with
      | none => rfl
      | some sh =>
        obtain ⟨ring, looked, clean, -⟩ := tidy.syncFind rn.dst
        obtain ⟨ring', looked', clean', -⟩ := tidy'.syncFind rn.dst
        have node := nodes sh (tidy.found hit).1
        have deeper := @ih sh.loc _ _ clean clean' (looked'.trans (entries.trans looked.symm))
          (fun other member => by rw [ring, ring']; exact nodes other (looked ▸ member)) (by rw [ring, ring', node])
        exact congrArg (· ++ _) deeper
    · rfl

theorem packWorkPath_congr (tidy : Tidy queue) (tidy' : Tidy queue') (entries : queue'.shs = queue.shs)
    (nodes : ∀ sh ∈ queue.shs, queue'.sq.node sh.loc = queue.sq.node sh.loc) :
    packWorkPath size db rel path queue' = packWorkPath size db rel path queue := by
  have same := tidy.syncFind_congr tidy' entries path
  obtain ⟨ring, looked, clean, -⟩ := tidy.syncFind path
  obtain ⟨ring', looked', clean', -⟩ := tidy'.syncFind path
  simp only [packWorkPath]
  split
  · next sh found hit =>
    simp only [hit] at same ring' looked' clean'
    obtain ⟨member, -⟩ := tidy.found same.symm
    split
    · next other found' hit' =>
      simp only [hit'] at same ring looked clean
      obtain rfl := Option.some.inj same
      refine packWork_congr (clean.hashDel (looked.symm ▸ member) rfl fun _ _ => rfl)
        (clean'.hashDel (looked'.symm ▸ entries.symm ▸ member) rfl fun _ _ => rfl)
        (by simp only [hashDel, looked, looked', entries]) (fun entry kept => ?_)
        (by simp only [hashDel, ring, ring', nodes sh member])
      simp only [hashDel, ring, ring']
      exact nodes entry (looked ▸ List.mem_of_mem_erase kept)
    · next found' miss => simp [miss] at same
  · next found miss =>
    simp only [miss] at same
    split
    · next other found' hit' => simp [hit'] at same
    · rfl

/-- What is left to pack after `sync_pack_write_path`. -/
theorem packWorkPath_left (tidy : Tidy client.queue) (packed : syncPackWritePath env path client = .ok after) :
    packWorkPath size db rel source (packLeftPath client.rel path client.queue) =
      packWorkPath size db rel source after.queue := by
  obtain ⟨tidy', fewer⟩ := syncPackWritePath_entries packed tidy
  have kept := syncPackWritePath_kept packed tidy
  obtain ⟨ring, looked, clean, -⟩ := tidy.syncFind path
  rw [syncPackWritePath_eq] at packed
  simp only [packLeftPath]
  rcases hit : syncFind path client.queue with ⟨_ | sh, found⟩
  · simp only [hit] at packed ⊢
    rw [← Except.ok.inj packed]
  · simp only [hit] at packed ring looked clean ⊢
    have left : after.queue.shs = packLeft client.rel packFuel sh.loc (hashDel sh found) := syncPackWrite_left packed
    rw [← left]
    have same : ∀ entry ∈ after.queue.shs, found.sq.node entry.loc = after.queue.sq.node entry.loc := fun entry member => by
      rw [ring]
      exact (kept entry member).2.symm
    refine packWorkPath_congr tidy' ⟨tidy'.nodup, fun entry member => ?_, by simp⟩ rfl same
    obtain ⟨bound, occupied, pending, src⟩ := tidy'.refers entry member
    have node := same entry member
    exact ⟨bound, node ▸ occupied, node ▸ pending, node ▸ src⟩

/-! ## Calls -/

/-- What `xmp_rename` does with the queue, and the system call behind it. -/
def renameClear (env : Env) (source target : Path) (newTimestamp : UInt64) (client : Client) : Prop :=
  let stays := Scratch.Stays client.fs source target
  if client.opens env target then clears env (client.packWork target ++ [.delta target true]) stays client.scratch
  else
    match relFind target client.rel with
    | none => clears env (client.packWork source) stays client.scratch
    | some rh =>
      let rn := client.rel.rq.node rh.loc
      if client.db rn.dst = some rn.time then clears env [.delta rn.dst true] stays client.scratch
      else
        clears env [.delta rn.dst false] (fun scratch => ∀ size, scratch.Sizes client.fs size →
          clears env (packWorkPath size (Function.update client.db target (some newTimestamp)) client.rel source
            client.queue) stays scratch) client.scratch

/-- What `xmp_link` does with the queue. -/
def linkClear (env : Env) (source target : Path) (client : Client) : Prop :=
  match relFind target client.rel with
  | none => True
  | some rh =>
    let rn := client.rel.rq.node rh.loc
    clears env (client.packWork rn.dst) (fun scratch => ∀ size, scratch.Sizes client.fs size →
      clears env (packWorkPath size client.db client.rel source (packLeftPath client.rel rn.dst client.queue) ++
        [.delta rn.dst (decide (client.db rn.dst = some rn.time))]) (fun _ => True) scratch) client.scratch

/-- What `sync_execute` does with a pending head. -/
def headClear (env : Env) (client : Client) : Prop :=
  let sn := client.node client.queue.sq.head
  sn.op.isBuffered && !sn.isDelete && !sn.isPacked →
    let found := syncFind sn.src client.queue
    let queue := match found.1 with
      | some sh => hashDel sh found.2
      | none => found.2
    clears env (packWork client.fs.getFileSize client.db client.rel packFuel client.queue.sq.head queue) (fun _ => True)
      client.scratch

/-- The call keeps off the files of the deltas in the queue: nothing that it writes, moves or replaces in
the temporary directory is one of them. -/
def Client.KeepsOff (client : Client) (event : Event) : Prop :=
  match event.call with
  | .mknod path _ _ => ∀ fs, client.fs.openExcl path = .ok fs →
      clears event.env (Client.packWork path
        { recfsUpdateTimestamp path client.newVersion (increaseRecfsCnt client).2 with fs := fs }) (fun _ => True)
        client.scratch
  | .unlink path =>
      clears event.env (client.packWork path) (Scratch.Stays client.fs path (tmpPath path)) client.scratch
  | .rename source target =>
      renameClear event.env source target client.newVersion (increaseRecfsCnt (recfsDelTimestamp source client)).2
  | .link source target => linkClear event.env source target client
  | .truncate path _ => client.scratch.Avoids path
  | .write path _ _ => client.scratch.Avoids path
  | .syncExecute => headClear event.env client
  | .mkdir .. => True
  | .rmdir .. => True
  | .chmod .. => True
  | .chown .. => True
  | .utimens .. => True
  | .relDequeue => True

/-! ## The state of a call -/

namespace Scratch

variable {scratch : Scratch} {content : Bytes}

/-- The record is right about the state, and about what has changed since the first one. -/
structure Describes (scratch : Scratch) (first : FileSystem) (state : Client) : Prop where
  deltas : scratch.deltas = state.deltas
  same : ∀ path other, state.fs.Same path other ↔ scratch.same path other
  older : ∀ path other, scratch.same path other → first.Same path other
  held : ∀ slot, state.QueuedDelta slot → (state.node slot).src ∈ scratch.held
  sizes : scratch.Sizes first state.fs.getFileSize

namespace Describes

theorem self (client : Client) : client.scratch.Describes client.fs client :=
  ⟨rfl, fun _ _ => Iff.rfl, fun _ _ => id, fun slot queued => ⟨slot, queued, rfl⟩, fun _ _ => rfl⟩

theorem apart (describes : scratch.Describes first state) (avoids : scratch.Avoids name) (queued : state.QueuedDelta slot) :
    ¬ state.fs.Same name (state.node slot).src := fun same =>
  avoids _ (describes.held slot queued) ((describes.same _ _).mp same)

/-- The queue changes. -/
theorem requeue (describes : scratch.Describes first state) (fs : after.fs = state.fs) (deltas : after.deltas = state.deltas)
    (held : ∀ slot, after.QueuedDelta slot → (after.node slot).src ∈ scratch.held) : scratch.Describes first after :=
  ⟨describes.deltas.trans deltas.symm, fs ▸ describes.same, describes.older, held, fs ▸ describes.sizes⟩

theorem write (describes : scratch.Describes first state) (allocated : state.fs.Allocated)
    (stored : state.fs.store name content = some fs) : (scratch.write name).Describes first { state with fs := fs } := by
  obtain ⟨deltas, same, older, held, sizes⟩ := describes
  refine ⟨deltas, fun path other => (FileSystem.same_store allocated stored).trans (same path other), older, held,
    fun path outside => ?_⟩
  have apart : ¬ state.fs.Same name path := fun shared =>
    outside name (Set.mem_insert ..) (older _ _ ((same _ _).mp shared))
  exact (FileSystem.Keeps.size_store allocated apart stored).trans
    (sizes path fun other member => outside other (Set.mem_insert_of_mem _ member))

theorem remove (describes : scratch.Describes first state) (regular : state.fs.Regular name) :
    (scratch.remove name).Describes first { state with fs := state.fs.remove name } := by
  obtain ⟨deltas, same, older, held, sizes⟩ := describes
  refine ⟨deltas, fun path other => ?_, fun path other shared => ?_, held, fun path outside => ?_⟩
  · exact (FileSystem.same_remove_iff regular).trans
      (or_congr_right (and_congr_right fun _ => and_congr_right fun _ => same path other))
  · rcases shared with equal | ⟨-, -, shared⟩
    · exact .inl equal
    · exact older path other shared
  · have apart : path ≠ name := fun equal => outside name (Set.mem_insert ..) (.inl equal.symm)
    exact (FileSystem.Keeps.size_remove apart).trans
      (sizes path fun other member => outside other (Set.mem_insert_of_mem _ member))

theorem delta {originfile newfile basefile deltaFile : Path} {computed : Client}
    (describes : scratch.Describes first state) (allocated : state.fs.Allocated) (taken : Bool)
    (computing : computeDelta env originfile newfile basefile state = .ok (deltaFile, computed)) :
    (Work.next env scratch (.delta basefile taken)).Describes first computed ∧
      (taken = true → deltaFile ∈ (Work.next env scratch (.delta basefile taken)).held) := by
  obtain ⟨old, new, delta, facts⟩ := computeDelta_eq_ok computing
  have named := facts.path_eq
  obtain ⟨opened, created, stored, ⟨sig, -, sigOpened⟩, deltaOpened, -, deltaStored, rfl⟩ := facts.files
  rw [FileSystem.store_store deltaOpened] at deltaStored
  obtain ⟨⟨ino, found, -⟩, -⟩ := FileSystem.entry_store sigOpened
  have opens := allocated.store sigOpened
  have removed := (describes.write allocated sigOpened).remove ⟨ino, found⟩
  obtain ⟨deltas, same, older, held, sizes⟩ := removed.write (opens.remove _) deltaStored
  have path : deltaFile = deltaPath env scratch.deltas basefile := by rw [named, describes.deltas]
  subst path
  refine ⟨⟨congrArg (· + 1) deltas, same, older, fun slot queued => ?_, fun path outside => ?_⟩, fun takes => ?_⟩
  · have before : (state.node slot).src ∈ scratch.held := held slot queued
    simp only [Work.next, Scratch.compute, Scratch.remove]
    split
    · exact Set.mem_insert_of_mem _ before
    · exact before
  · refine sizes path fun other member => outside other ?_
    simpa only [Work.next, Scratch.compute, Scratch.remove, Scratch.write, Set.insert_idem] using member
  · simp only [Work.next, Scratch.compute, takes, ↓reduceIte]
    exact Set.mem_insert ..

end Describes

end Scratch

end DeltaCFS
