import DeltaCFS.Proofs.Client.Scratch

/-! # The delta files of the nodes in the queue

`compute_delta` opens its delta file under a name with three random letters, whether there is a file
of that name or not, and `sync_send` reads it when the node has its turn. As long as no call of
`compute_delta` draws the name of a delta that waits, and the other files of the temporary directory
keep out of the way, every node that waits has a file of its own, which holds what was computed for it.
-/

namespace DeltaCFS

variable {env : Env} {client state after : Client} {slot fuel : ℕ} {path source target name : Path}
  {fs first : FileSystem} {queue : SyncQueue} {rest : Scratch → Prop} {works : List Work}

/-! ## What a call makes of the delta files -/

/-- What one of the calls of `compute_delta` between the two states writes to the path. -/
def WritesDelta (env : Env) (client after : Client) (path : Path) (delta : Bytes) : Prop :=
  ∃ count basefile old new, client.deltas ≤ count ∧ count < after.deltas ∧ path = deltaPath env count basefile ∧
    env.pipeline count old new = .ok (some delta)

/-- Every delta in the queue has a file of its own. -/
structure Client.DeltaFiles (client : Client) : Prop where
  apart : ∀ slot slot', client.QueuedDelta slot → client.QueuedDelta slot' →
    (client.node slot).src = (client.node slot').src → slot = slot'
  regular : ∀ slot, client.QueuedDelta slot → client.fs.Regular (client.node slot).src
  allocated : client.fs.Allocated

/-- The deltas that were in the queue before the call still are, with their files as they were, and the
others hold what the call computed. -/
structure Progress (env : Env) (client state : Client) : Prop where
  files : state.DeltaFiles
  count : client.deltas ≤ state.deltas
  kept : ∀ slot, client.QueuedDelta slot → state.QueuedDelta slot ∧ (state.node slot).src = (client.node slot).src ∧
    state.fs.read (client.node slot).src = client.fs.read (client.node slot).src
  fresh : ∀ slot, state.QueuedDelta slot → client.QueuedDelta slot ∨
    ∃ delta, WritesDelta env client state (state.node slot).src delta ∧ state.fs.read (state.node slot).src = some delta

/-- The call has come to the state, and keeps off the files of the deltas in what it does next. -/
structure Keeping (env : Env) (client : Client) (first : FileSystem) (state : Client) (rest : Scratch → Prop) : Prop where
  progress : Progress env client state
  next : ∃ scratch, scratch.Describes first state ∧ rest scratch

/-- A delta that is computed and not yet in the queue. -/
structure Computed (env : Env) (client state : Client) (name : Path) : Prop where
  writes : ∃ delta, WritesDelta env client state name delta ∧ state.fs.read name = some delta
  avoids : state.Avoids name

/-- The same slots hold deltas, with the same files. -/
def SameDeltas (state state' : Client) : Prop :=
  ∀ slot, (state'.QueuedDelta slot ↔ state.QueuedDelta slot) ∧
    (state.QueuedDelta slot → (state'.node slot).src = (state.node slot).src)

namespace Progress

theorem refl (env : Env) (files : client.DeltaFiles) : Progress env client client :=
  ⟨files, le_rfl, fun _ queued => ⟨queued, rfl, rfl⟩, fun _ => .inl⟩

/-- The queue changes in other nodes. -/
theorem requeue {state' : Client} (progress : Progress env client state) (fs : state'.fs = state.fs)
    (deltas : state'.deltas = state.deltas) (same : SameDeltas state state') : Progress env client state' := by
  obtain ⟨files, count, kept, fresh⟩ := progress
  refine ⟨⟨fun slot slot' queued queued' equal => ?_, fun slot queued => ?_, fs ▸ files.allocated⟩, deltas ▸ count,
    fun slot queued => ?_, fun slot queued => ?_⟩
  · have first := (same slot).1.mp queued
    have second := (same slot').1.mp queued'
    rw [(same slot).2 first, (same slot').2 second] at equal
    exact files.apart slot slot' first second equal
  · have old := (same slot).1.mp queued
    rw [(same slot).2 old, fs]
    exact files.regular slot old
  · obtain ⟨still, src, read⟩ := kept slot queued
    exact ⟨(same slot).1.mpr still, ((same slot).2 still).trans src, fs ▸ read⟩
  · have old := (same slot).1.mp queued
    rcases fresh slot old with before | ⟨delta, ⟨n, base, first, second, least, bound, named, pipeline⟩, read⟩
    · exact .inl before
    · rw [(same slot).2 old, fs]
      exact .inr ⟨delta, ⟨n, base, first, second, least, deltas ▸ bound, named, pipeline⟩, read⟩

/-- Other files change. -/
theorem write (progress : Progress env client state) (allocated : fs.Allocated)
    (keeps : ∀ slot, state.QueuedDelta slot → state.fs.Keeps (state.node slot).src fs) :
    Progress env client { state with fs := fs } := by
  obtain ⟨files, count, kept, fresh⟩ := progress
  refine ⟨⟨files.apart, fun slot queued => (keeps slot queued).regular (files.regular slot queued), allocated⟩, count,
    fun slot queued => ?_, fun slot queued => ?_⟩
  · obtain ⟨still, src, read⟩ := kept slot queued
    have same := (keeps slot still).read
    rw [src] at same
    exact ⟨still, src, same.trans read⟩
  · rcases fresh slot queued with before | ⟨delta, writes, read⟩
    · exact .inl before
    · exact .inr ⟨delta, writes, (keeps slot queued).read.trans read⟩

/-- A delta enters the queue in a slot that held none before the call. -/
theorem add {state' : Client} (progress : Progress env client state) (slot : ℕ) (computed : Computed env client state name)
    (fs : state'.fs = state.fs) (deltas : state'.deltas = state.deltas) (free : ¬ client.QueuedDelta slot)
    (src : state'.QueuedDelta slot → (state'.node slot).src = name)
    (others : ∀ other, other ≠ slot → (state'.QueuedDelta other ↔ state.QueuedDelta other) ∧
      (state.QueuedDelta other → (state'.node other).src = (state.node other).src)) :
    Progress env client state' := by
  obtain ⟨files, count, kept, fresh⟩ := progress
  obtain ⟨⟨delta, ⟨n, base, first, second, least, bound, named, pipeline⟩, held⟩, avoids⟩ := computed
  have regular : state.fs.Regular name := FileSystem.regular_iff_read.mpr ⟨delta, held⟩
  have clash {other : ℕ} (different : other ≠ slot) (queued : state'.QueuedDelta other) :
      (state'.node other).src ≠ name := by
    have old := (others other different).1.mp queued
    rw [(others other different).2 old]
    exact avoids other old
  refine ⟨⟨fun slot₁ slot₂ queued₁ queued₂ equal => ?_, fun other queued => ?_, fs ▸ files.allocated⟩, deltas ▸ count,
    fun other queued => ?_, fun other queued => ?_⟩
  · by_cases here₁ : slot₁ = slot
    · by_cases here₂ : slot₂ = slot
      · exact here₁.trans here₂.symm
      · subst here₁
        exact absurd (equal.symm.trans (src queued₁)) (clash here₂ queued₂)
    · by_cases here₂ : slot₂ = slot
      · subst here₂
        exact absurd (equal.trans (src queued₂)) (clash here₁ queued₁)
      · have old₁ := (others slot₁ here₁).1.mp queued₁
        have old₂ := (others slot₂ here₂).1.mp queued₂
        rw [(others slot₁ here₁).2 old₁, (others slot₂ here₂).2 old₂] at equal
        exact files.apart slot₁ slot₂ old₁ old₂ equal
  · by_cases here : other = slot
    · subst here
      rw [src queued, fs]
      exact regular
    · have old := (others other here).1.mp queued
      rw [(others other here).2 old, fs]
      exact files.regular other old
  · have here : other ≠ slot := fun same => free (same ▸ queued)
    obtain ⟨still, name, read⟩ := kept other queued
    exact ⟨(others other here).1.mpr still, ((others other here).2 still).trans name, fs ▸ read⟩
  · by_cases here : other = slot
    · subst here
      rw [src queued, fs]
      exact .inr ⟨delta, ⟨n, base, first, second, least, deltas ▸ bound, named, pipeline⟩, held⟩
    · have old := (others other here).1.mp queued
      rw [(others other here).2 old, fs]
      rcases fresh other old with before | ⟨delta, ⟨n, base, first, second, least, bound, named, pipeline⟩, read⟩
      · exact .inl before
      · exact .inr ⟨delta, ⟨n, base, first, second, least, deltas ▸ bound, named, pipeline⟩, read⟩

/-- Versions, relations and the counter do not matter. -/
theorem frame {state' : Client} (progress : Progress env client state) (fs : state'.fs = state.fs)
    (deltas : state'.deltas = state.deltas) (queue : state'.queue = state.queue) : Progress env client state' :=
  progress.requeue fs deltas (fun slot => by simp only [Client.QueuedDelta, Client.node, queue, implies_true, and_self])

/-- A slot that holds something else now held no delta before the call. -/
theorem not_queued (progress : Progress env client state) (other : (state.node slot).op ≠ .delta) :
    ¬ client.QueuedDelta slot := fun queued => other (progress.kept slot queued).1.2.2

end Progress

/-! ## Queue operations -/

/-- The node may change, but not into or out of a delta, and a delta keeps its file. -/
def SyncNode.SameDelta (sn sn' : SyncNode) : Prop :=
  sn'.isEmpty = sn.isEmpty ∧ (sn'.op = .delta ↔ sn.op = .delta) ∧ (sn.op = .delta → sn'.src = sn.src)

namespace SameDeltas

variable {state' : Client}

theorem of_ring (ring : state'.queue.sq = state.queue.sq) : SameDeltas state state' := by
  intro slot
  simp only [Client.QueuedDelta, Client.node, ring, implies_true, and_self]

theorem trans {state'' : Client} (first : SameDeltas state state') (second : SameDeltas state' state'') :
    SameDeltas state state'' := by
  intro slot
  refine ⟨(second slot).1.trans (first slot).1, fun queued => ?_⟩
  exact ((second slot).2 ((first slot).1.mpr queued)).trans ((first slot).2 queued)

theorem of_node (same : ∀ slot, (state.node slot).SameDelta (state'.node slot)) : SameDeltas state state' := by
  intro slot
  obtain ⟨isEmpty, op, src⟩ := same slot
  exact ⟨by simp only [Client.QueuedDelta, isEmpty, op], fun queued => src queued.2.2⟩

theorem modify {change : SyncNode → SyncNode} (same : (state.node slot).SameDelta (change (state.node slot))) :
    SameDeltas state (state.modifyNode slot change) := by
  refine of_node fun other => ?_
  simp only [Client.node, Client.modifyNode, SyncQueue.modifyNode, RingBuffer.modify_node]
  split
  · next here =>
    subst here
    exact same
  · exact ⟨rfl, Iff.rfl, fun _ => rfl⟩

/-- A node that is not a delta enters the queue. -/
theorem enqueue {op : Op} {src dst : Path} {para : Option (Fin 5 → UInt64)} {bn : Option (List BufInfo)}
    {localtime baseVersion : UInt64}
    (enqueued : syncEnqueue op src dst para bn none localtime baseVersion state.queue = .ok queue)
    (other : op ≠ .delta) : SameDeltas state { state with queue := queue } := by
  simp only [syncEnqueue] at enqueued
  split at enqueued
  · next free =>
    obtain rfl := Except.ok.inj enqueued
    intro slot
    by_cases here : slot = state.queue.sq.tail
    · subst here
      simp [Client.QueuedDelta, Client.node, RingBuffer.push, SyncNode.enqueued, other, free]
    · simp [Client.QueuedDelta, Client.node, RingBuffer.push, Function.update_of_ne here]
  · exact absurd enqueued (by simp)

theorem syncDelete (state : Client) (path : Path) :
    SameDeltas state { state with queue := syncDelete path state.queue } := by
  have ring := syncFind_sq path state.queue
  simp only [DeltaCFS.syncDelete]
  split
  · next sh looked hit =>
    rw [hit] at ring
    have found : SameDeltas state { state with queue := hashDel sh looked } := of_ring ring
    exact found.trans (modify ⟨rfl, Iff.rfl, fun _ => rfl⟩)
  · next looked miss =>
    rw [miss] at ring
    exact of_ring ring

theorem syncDeleteWrite (state : Client) (path : Path) :
    SameDeltas state { state with queue := syncDeleteWrite path state.queue } := by
  have ring := syncFind_sq path state.queue
  have settled (sn : SyncNode) : sn.SameDelta sn.deleteWrite := by
    by_cases newfile : sn.op = .newfile
    · simp [SyncNode.SameDelta, SyncNode.deleteWrite, newfile]
    · simp [SyncNode.SameDelta, SyncNode.deleteWrite, newfile]
  simp only [DeltaCFS.syncDeleteWrite]
  split
  · next sh looked hit =>
    rw [hit] at ring
    have found : SameDeltas state { state with queue := hashDel sh looked } := of_ring ring
    exact found.trans (modify (settled _))
  · next looked miss =>
    rw [miss] at ring
    exact of_ring ring

theorem appended (state : Client) (path : Path) (record : BufInfo) :
    SameDeltas state { state with
      queue := (syncFind path state.queue).2.modifyNode slot (SyncNode.appended record) } := by
  have found : SameDeltas state { state with queue := (syncFind path state.queue).2 } :=
    of_ring (syncFind_sq path state.queue)
  refine found.trans (modify ?_)
  obtain ⟨op, src, -, -, -, -, -, isEmpty, -⟩ :=
    SyncNode.appended_fields record (Client.node { state with queue := (syncFind path state.queue).2 } slot)
  exact ⟨isEmpty, by rw [op], fun _ => src⟩

end SameDeltas

theorem Computed.requeue {state' : Client} (computed : Computed env client state name) (fs : state'.fs = state.fs)
    (deltas : state'.deltas = state.deltas) (same : SameDeltas state state') : Computed env client state' name := by
  obtain ⟨⟨delta, ⟨n, base, first, second, least, bound, named, pipeline⟩, held⟩, avoids⟩ := computed
  refine ⟨⟨delta, ⟨n, base, first, second, least, deltas ▸ bound, named, pipeline⟩, fs ▸ held⟩, fun slot queued => ?_⟩
  have old := (same slot).1.mp queued
  exact (same slot).2 old ▸ avoids slot old

/-! ## In the temporary directory -/

namespace Keeping

theorem start (env : Env) (files : client.DeltaFiles) (off : rest client.scratch) :
    Keeping env client client.fs client rest :=
  ⟨.refl env files, _, .self client, off⟩

theorem mono {rest' : Scratch → Prop} (keeping : Keeping env client first state rest)
    (weaker : ∀ scratch, rest scratch → rest' scratch) : Keeping env client first state rest' := by
  obtain ⟨progress, scratch, describes, next⟩ := keeping
  exact ⟨progress, scratch, describes, weaker scratch next⟩

/-- The queue changes in other nodes. -/
theorem requeue {state' : Client} (keeping : Keeping env client first state rest) (fs : state'.fs = state.fs)
    (deltas : state'.deltas = state.deltas) (same : SameDeltas state state') : Keeping env client first state' rest := by
  obtain ⟨progress, scratch, describes, next⟩ := keeping
  refine ⟨progress.requeue fs deltas same, scratch, describes.requeue fs deltas fun slot queued => ?_, next⟩
  have old := (same slot).1.mp queued
  exact (same slot).2 old ▸ describes.held slot old

/-- Versions, relations and the counter do not matter. -/
theorem frame {state' : Client} (keeping : Keeping env client first state rest) (fs : state'.fs = state.fs)
    (deltas : state'.deltas = state.deltas) (queue : state'.queue = state.queue) : Keeping env client first state' rest :=
  keeping.requeue fs deltas (.of_ring (by rw [queue]))

/-- The delta enters the queue. -/
theorem add {state' : Client} (keeping : Keeping env client first state fun scratch => name ∈ scratch.held ∧ rest scratch)
    (slot : ℕ) (computed : Computed env client state name) (fs : state'.fs = state.fs)
    (deltas : state'.deltas = state.deltas) (free : ¬ client.QueuedDelta slot)
    (src : state'.QueuedDelta slot → (state'.node slot).src = name)
    (others : ∀ other, other ≠ slot → (state'.QueuedDelta other ↔ state.QueuedDelta other) ∧
      (state.QueuedDelta other → (state'.node other).src = (state.node other).src)) :
    Keeping env client first state' rest := by
  obtain ⟨progress, scratch, describes, held, next⟩ := keeping
  refine ⟨progress.add slot computed fs deltas free src others, scratch,
    describes.requeue fs deltas fun other queued => ?_, next⟩
  by_cases here : other = slot
  · subst here
    exact src queued ▸ held
  · have old := (others other here).1.mp queued
    exact (others other here).2 old ▸ describes.held other old

/-- The copy is made and the writes are undone in it. -/
theorem copy {opened copied undone : FileSystem} {content content' : Bytes}
    (keeping : Keeping env client first state (clears env (.copy path :: works) rest))
    (opens : state.fs.store (tmpPath path) [] = some opened) (copying : opened.store (tmpPath path) content = some copied)
    (undoes : copied.store (tmpPath path) content' = some undone) :
    Keeping env client first { state with fs := undone } (clears env works rest) := by
  obtain ⟨progress, scratch, describes, clear, next⟩ := keeping
  rw [FileSystem.store_store opens] at copying
  rw [FileSystem.store_store copying] at undoes
  have allocated := progress.files.allocated
  have kept : Progress env client { state with fs := undone } :=
    progress.write (allocated.store undoes) fun slot queued => .store allocated (describes.apart clear queued) undoes
  exact ⟨kept, _, describes.write allocated undoes, next⟩

/-- The copy is removed. -/
theorem discard (keeping : Keeping env client first state (clears env (.discard path :: works) rest))
    (regular : state.fs.Regular (tmpPath path)) :
    Keeping env client first { state with fs := state.fs.remove (tmpPath path) } (clears env works rest) := by
  obtain ⟨progress, scratch, describes, clear, next⟩ := keeping
  have kept : Progress env client { state with fs := state.fs.remove (tmpPath path) } :=
    progress.write (progress.files.allocated.remove _) fun slot queued =>
      .remove fun same => clear (same ▸ describes.held slot queued)
  exact ⟨kept, _, describes.remove regular, next⟩

/-- A delta is computed under a name that no file of a delta has. -/
theorem computeDelta {originfile newfile basefile deltaFile : Path} {taken : Bool} {computed : Client}
    (keeping : Keeping env client first state (clears env (.delta basefile taken :: works) rest))
    (computing : computeDelta env originfile newfile basefile state = .ok (deltaFile, computed)) :
    Keeping env client first computed
        (fun scratch => (taken = true → deltaFile ∈ scratch.held) ∧ clears env works rest scratch) ∧
      Computed env client computed deltaFile ∧
      computed.queue = state.queue ∧ computed.db = state.db ∧ computed.rel = state.rel := by
  obtain ⟨progress, scratch, describes, clear, next⟩ := keeping
  obtain ⟨described, takes⟩ := describes.delta progress.files.allocated taken computing
  obtain ⟨old, new, delta, facts⟩ := computeDelta_eq_ok computing
  have named := facts.path_eq
  have pipeline := facts.pipeline
  obtain ⟨opened, created, stored, ⟨_, -, sigOpened⟩, deltaOpened, -, deltaStored, rfl⟩ := facts.files
  rw [FileSystem.store_store deltaOpened] at deltaStored
  have allocated := progress.files.allocated
  have opens := allocated.store sigOpened
  have avoids (slot : ℕ) (queued : state.QueuedDelta slot) : ¬ state.fs.Same deltaFile (state.node slot).src := by
    rw [named, ← describes.deltas]
    exact describes.apart clear.2 queued
  have keeps (slot : ℕ) (queued : state.QueuedDelta slot) : state.fs.Keeps (state.node slot).src stored := by
    have notSig := describes.apart clear.1 queued
    have signed := FileSystem.Keeps.store allocated notSig sigOpened
    have removed : opened.Keeps (state.node slot).src (opened.remove (sigPath basefile)) :=
      .remove fun same => notSig (.inl same.symm)
    have apart : ¬ (opened.remove (sigPath basefile)).Same deltaFile (state.node slot).src := by
      obtain ⟨⟨ino, found, -⟩, -⟩ := FileSystem.entry_store sigOpened
      rw [FileSystem.same_remove_iff ⟨ino, found⟩, FileSystem.same_store allocated sigOpened]
      rintro (equal | ⟨-, -, shared⟩)
      · exact avoids slot queued (.inl equal)
      · exact avoids slot queued shared
    exact (signed.trans removed).trans (.store (opens.remove _) apart deltaStored)
  have advanced := progress.write ((opens.remove _).store deltaStored) keeps
  have counted : Progress env client { state with fs := stored, deltas := state.deltas + 1 } := by
    refine ⟨⟨advanced.files.apart, advanced.files.regular, advanced.files.allocated⟩, Nat.le_succ_of_le progress.count,
      advanced.kept, fun slot queued => ?_⟩
    rcases advanced.fresh slot queued with before | ⟨delta, ⟨n, base, first, second, least, bound, same⟩, read⟩
    · exact .inl before
    · exact .inr ⟨delta, ⟨n, base, first, second, least, Nat.lt_succ_of_lt bound, same⟩, read⟩
  have written : stored.read deltaFile = some delta := by
    obtain ⟨⟨ino, found, content⟩, -⟩ := FileSystem.entry_store deltaStored
    simp only [FileSystem.read, found, content]
  refine ⟨⟨counted, _, described, takes, next⟩, ⟨⟨delta, ⟨state.deltas, basefile, old, new, progress.count,
    Nat.lt_succ_self _, named, pipeline⟩, written⟩, fun slot queued same => ?_⟩, rfl, rfl, rfl⟩
  exact avoids slot queued (.inl same.symm)

/-! ## Packing -/

theorem packNewfile (keeping : Keeping env client first state rest) :
    Keeping env client first (packNewfile slot state) rest := by
  simp only [DeltaCFS.packNewfile]
  split
  · exact keeping
  · exact keeping.requeue rfl rfl (SameDeltas.modify ⟨rfl, Iff.rfl, fun _ => rfl⟩)

/-- The node of a slot becomes the delta that was computed for it. -/
theorem becomes {change : SyncNode → SyncNode}
    (keeping : Keeping env client first state fun scratch => name ∈ scratch.held ∧ rest scratch)
    (computed : Computed env client state name) (free : ¬ client.QueuedDelta slot)
    (named : ∀ sn, (change sn).src = name) : Keeping env client first (state.modifyNode slot change) rest := by
  refine keeping.add slot computed rfl rfl free (fun _ => ?_) fun other apart => ?_
  · simp [Client.node, Client.modifyNode, SyncQueue.modifyNode, RingBuffer.modify_node, named]
  · simp [Client.QueuedDelta, Client.node, Client.modifyNode, SyncQueue.modifyNode, RingBuffer.modify_node, apart]

theorem packWrite (write : (state.node slot).op = .write)
    (keeping : Keeping env client first state (clears env
      (packWork state.fs.getFileSize state.db state.rel (fuel + 1) slot state.queue) rest))
    (packed : packWrite env slot state = .ok after) :
    Keeping env client first after rest ∧ after.db = state.db ∧ after.rel = state.rel := by
  have here : (state.queue.sq.node slot).op = .write := write
  have unrelated : relationOf state.rel (state.queue.sq.node slot) = none := by simp [relationOf, here]
  simp only [packWork, unrelated, here, true_and] at keeping
  cases packWrite_eq_ok write packed with
  | unopened newfile => exact absurd (write.symm.trans newfile) (by simp)
  | whole newfile => exact absurd (write.symm.trans newfile) (by simp)
  | stale newfile => exact absurd (write.symm.trans newfile) (by simp)
  | related newfile => exact absurd (write.symm.trans newfile) (by simp)
  | writes _ sends =>
    have sent : sendsWrite ((state.queue.sq.node slot).bn.getD [])
      (state.fs.getFileSize (state.queue.sq.node slot).src) = true := sends
    simp only [sent, Bool.true_eq_false, ↓reduceIte] at keeping
    exact ⟨keeping.requeue rfl rfl (SameDeltas.modify ⟨rfl, by simp [write], fun _ => rfl⟩), rfl, rfl⟩
  | @rebuilt computed copied undone deltaFile _ rebuilds copies undoes computing =>
    have rebuilt : sendsWrite ((state.queue.sq.node slot).bn.getD [])
      (state.fs.getFileSize (state.queue.sq.node slot).src) = false := rebuilds
    simp only [rebuilt, ↓reduceIte] at keeping
    obtain ⟨opened, opens, copying⟩ := Option.bind_eq_some_iff.mp copies
    obtain ⟨next, ready, queue, db, rel⟩ := (keeping.copy opens copying undoes).computeDelta computing
    have still : (computed.node slot).op ≠ .delta := by
      rw [Client.node, queue]
      simp [show (state.queue.sq.node slot).op = .write from write]
    have entered := @becomes env client computed slot deltaFile first (clears env [.discard (state.node slot).src] rest)
      (fun sn => sn.packedDelta deltaFile sn.baseVer sn.baseVer) (next.mono fun _ all => ⟨all.1 rfl, all.2⟩) ready
      (next.progress.not_queued still) fun _ => rfl
    have copy : computed.fs.Regular (tmpPath (state.node slot).src) := by
      obtain ⟨⟨ino, found, -⟩, -⟩ := FileSystem.entry_store undoes
      obtain ⟨old, new, delta, facts⟩ := computeDelta_eq_ok computing
      exact facts.regular ⟨ino, found⟩ (tmpPath_ne_sigPath _)
    exact ⟨entered.discard copy, db, rel⟩

/-- Packing a node, and before it the nodes its relation leads to. -/
theorem syncPackWrite (keeping : Keeping env client first state (clears env
      (packWork state.fs.getFileSize state.db state.rel fuel slot state.queue) rest))
    (packed : syncPackWrite env fuel slot state = .ok after) :
    Keeping env client first after rest ∧ after.db = state.db ∧ after.rel = state.rel := by
  induction fuel generalizing slot state after rest with
  | zero => exact absurd packed (by simp [DeltaCFS.syncPackWrite])
  | succ fuel ih =>
    rw [DeltaCFS.syncPackWrite] at packed
    split at packed
    · next newfile =>
      cases found : relFind (state.node slot).src state.rel with
      | none =>
        have missing : relFind (state.queue.sq.node slot).src state.rel = none := found
        have here : (state.queue.sq.node slot).op = .newfile := newfile
        simp only [packWork, relationOf, here, missing, ↓reduceIte, Option.map_none, reduceCtorEq, false_and] at keeping
        simp only [found] at packed
        obtain rfl := Except.ok.inj packed
        exact ⟨keeping.packNewfile, (packNewfile_frame slot state).2⟩
      | some rh =>
        have related : relationOf state.rel (state.queue.sq.node slot) = some (state.rel.rq.node rh.loc) :=
          relationOf_newfile newfile found
        simp only [packWork, related] at keeping
        simp only [found, Except.bind_eq_ok, require_eq_ok, recfsGetTimestamp] at packed
        obtain ⟨inner, packing, ⟨deltaFile, computed⟩, computing, check, version, packed⟩ := packed
        have looked : Keeping env client first { state with
            queue := (syncFind (state.rel.rq.node rh.loc).dst state.queue).2 } _ :=
          (keeping.mono fun _ => clears_append.mp).requeue rfl rfl (.of_ring (syncFind_sq _ _))
        have inside : Keeping env client first inner (clears env
            [.delta (state.rel.rq.node rh.loc).dst (decide (state.db (state.rel.rq.node rh.loc).dst =
              some (state.rel.rq.node rh.loc).time))] rest) ∧ inner.db = state.db ∧ inner.rel = state.rel := by
          cases hit : (syncFind (state.rel.rq.node rh.loc).dst state.queue).1 with
          | none =>
            simp only [hit] at packing looked
            obtain rfl := Except.ok.inj packing
            exact ⟨looked, rfl, rfl⟩
          | some sh =>
            simp only [hit, packFound, Except.bind_eq_ok] at packing looked
            obtain ⟨deep, packing, same⟩ := packing
            obtain rfl := Except.ok.inj same
            obtain ⟨packed, db, rel⟩ := ih looked packing
            exact ⟨packed.requeue rfl rfl (.of_ring rfl), db, rel⟩
        obtain ⟨inside, db, rel⟩ := inside
        obtain ⟨next, ready, queue, db', rel'⟩ := inside.computeDelta computing
        have free : ¬ client.QueuedDelta slot := keeping.progress.not_queued (by simp [newfile])
        split at packed
        · next current =>
          have taken : decide (state.db (state.rel.rq.node rh.loc).dst = some (state.rel.rq.node rh.loc).time) = true := by
            rw [decide_eq_true_iff, ← db, ← db', version, current]
          obtain rfl := Except.ok.inj packed
          exact ⟨(next.mono fun _ all => ⟨all.1 taken, all.2⟩).becomes ready free fun _ => rfl, db'.trans db,
            rel'.trans rel⟩
        · obtain rfl := Except.ok.inj packed
          obtain ⟨-, db'', rel''⟩ := packNewfile_frame slot computed
          exact ⟨(next.mono fun _ => And.right).packNewfile, db''.trans (db'.trans db), rel''.trans (rel'.trans rel)⟩
    · next write => exact keeping.packWrite write packed
    · next other other' =>
      have here : (state.queue.sq.node slot).op ≠ .newfile := other
      have here' : (state.queue.sq.node slot).op ≠ .write := other'
      simp only [packWork, relationOf, here, here', ↓reduceIte, false_and] at keeping
      exact Except.ok.inj packed ▸ ⟨keeping, rfl, rfl⟩

theorem packPath (keeping : Keeping env client first state (clears env (state.packWork path) rest))
    (packed : syncPackWritePath env path state = .ok after) :
    Keeping env client first after rest ∧ after.db = state.db ∧ after.rel = state.rel := by
  have ring := syncFind_sq path state.queue
  simp only [Client.packWork, packWorkPath] at keeping
  rw [syncPackWritePath_eq] at packed
  split at packed
  · next sh queue hit =>
    simp only [hit] at keeping ring
    have deleted : Keeping env client first { state with queue := hashDel sh queue } _ :=
      keeping.requeue rfl rfl (.of_ring ring)
    exact deleted.syncPackWrite packed
  · next queue miss =>
    simp only [miss] at keeping ring
    exact Except.ok.inj packed ▸ ⟨keeping.requeue rfl rfl (.of_ring ring), rfl, rfl⟩

/-- The sizes that files have by now. -/
theorem sizes {sized : (Path → ℤ) → Scratch → Prop}
    (keeping : Keeping env client first state fun scratch => ∀ size, scratch.Sizes first size → sized size scratch) :
    Keeping env client first state (sized state.fs.getFileSize) := by
  obtain ⟨progress, scratch, describes, next⟩ := keeping
  exact ⟨progress, scratch, describes, next _ describes.sizes⟩

/-! ## Handlers -/

variable {res : ℤ} {dst : Path} {para : Option (Fin 5 → UInt64)} {bn : Option (List BufInfo)}
  {localtime baseVersion fromVersion newTimestamp : UInt64}

theorem enqueue {op : Op} {src : Path} (keeping : Keeping env client first state rest)
    (enqueued : syncEnqueue op src dst para bn none localtime baseVersion state.queue = .ok queue)
    (other : op ≠ .delta) : Keeping env client first { state with queue := queue } rest :=
  keeping.requeue rfl rfl (.enqueue enqueued other)

/-- The computed delta enters the queue in a free slot. -/
theorem enqueueDelta (keeping : Keeping env client first state fun scratch => name ∈ scratch.held ∧ rest scratch)
    (computed : Computed env client state name)
    (enqueued : syncEnqueue .delta name dst para bn none localtime baseVersion state.queue = .ok queue) :
    Keeping env client first { state with queue := queue } rest := by
  simp only [syncEnqueue] at enqueued
  split at enqueued
  · next free =>
    obtain rfl := Except.ok.inj enqueued
    refine keeping.add state.queue.sq.tail computed rfl rfl (fun queued => ?_) (fun _ => ?_) fun other apart => ?_
    · have occupied := (keeping.progress.kept _ queued).1.2.1
      rw [Client.node, free] at occupied
      exact absurd occupied (by simp)
    · simp [Client.node, RingBuffer.push, SyncNode.enqueued]
    · simp [Client.QueuedDelta, Client.node, RingBuffer.push, Function.update_of_ne apart]
  · exact absurd enqueued (by simp)

/-- The UNLINK node of a rename, and the computed delta. -/
theorem enqueueUnlinkDelta {unlinked : SyncQueue}
    (keeping : Keeping env client first state fun scratch => name ∈ scratch.held ∧ rest scratch)
    (computed : Computed env client state name)
    (unlinks : syncEnqueue .unlink source [] none none none fromVersion 0 state.queue = .ok unlinked)
    (enqueued : syncEnqueue .delta name dst para bn none localtime baseVersion (syncDelete source unlinked) = .ok queue) :
    Keeping env client first { state with queue := queue } rest := by
  have same : SameDeltas state { state with queue := syncDelete source unlinked } :=
    (SameDeltas.enqueue unlinks (by simp)).trans (SameDeltas.syncDelete _ source)
  have moved : Keeping env client first { state with queue := syncDelete source unlinked } _ := keeping.requeue rfl rfl same
  exact moved.enqueueDelta (computed.requeue rfl rfl same) enqueued

/-- The call of the file system at the end leaves every file of a delta as it is. -/
theorem call (keeping : Keeping env client first state rest) (allocated : fs.Allocated)
    (keeps : ∀ scratch slot, scratch.Describes first state → rest scratch → state.QueuedDelta slot →
      state.fs.Keeps (state.node slot).src fs) : Progress env client { state with fs := fs } := by
  obtain ⟨progress, scratch, describes, next⟩ := keeping
  exact progress.write allocated fun slot queued => keeps scratch slot describes next queued

theorem callRename {before : FileSystem} (keeping : Keeping env client first state (Scratch.Stays before source target))
    (dirs : before.entry target = some .dir → state.fs.entry target = some .dir)
    (moved : state.fs.rename source target = .ok fs) : Progress env client { state with fs := fs } := by
  refine keeping.call (keeping.progress.files.allocated.rename moved) fun scratch slot describes stays queued => ?_
  obtain ⟨apart, outside, apart', above⟩ := stays _ (describes.held slot queued)
  exact .rename (keeping.progress.files.regular slot queued) apart outside apart' (fun below => dirs (above below)) moved

theorem mknod {mode rdev : ℕ} (files : client.DeltaFiles) (off : client.KeepsOff ⟨env, .mknod path mode rdev⟩)
    (handled : xmpMknod env path mode rdev client = .ok (res, after)) : Progress env client after := by
  have start := Progress.refl env files
  obtain ⟨numbered, rfl, ⟨-, rfl⟩ | ⟨fs, packed, queue, opened, packing, queued, -, rfl⟩⟩ := xmpMknod_eq_ok handled
  · exact start.frame rfl rfl rfl
  · have stored := FileSystem.openExcl_store opened
    have created : Progress env client { client with fs := fs } :=
      start.write (files.allocated.openExcl opened) fun slot queued =>
        .openExcl files.allocated (files.regular slot queued) opened
    have same (name other : Path) : fs.Same name other ↔ client.fs.Same name other :=
      FileSystem.same_store files.allocated stored
    have describes : client.scratch.Describes fs { client with
        fs := fs, recfsCnt := client.recfsCnt + 1, db := Function.update client.db path (some client.newVersion) } :=
      ⟨rfl, same, fun _ _ => (same _ _).mpr, fun slot queued => ⟨slot, queued, rfl⟩, fun _ _ => rfl⟩
    have numbered : Progress env client { client with
        fs := fs, recfsCnt := client.recfsCnt + 1, db := Function.update client.db path (some client.newVersion) } :=
      created.frame rfl rfl rfl
    have keeping : Keeping env client fs _ _ := ⟨numbered, _, describes, off fs opened⟩
    exact ((keeping.packPath packing).1.enqueue queued (by simp)).progress

theorem unlink (files : client.DeltaFiles) (tidy : Tidy client.queue) (off : client.KeepsOff ⟨env, .unlink path⟩)
    (handled : xmpUnlink env path client = .ok (res, after)) : Progress env client after := by
  obtain ⟨version, packed, rel, -, packing, -, outcome⟩ := xmpUnlink_eq_ok handled
  obtain ⟨ready, -⟩ := (Keeping.start env files off).packPath packing
  rcases outcome with ⟨-, rfl⟩ | ⟨fs, queue, related, moved, queued, -, -, rfl⟩
  · exact ready.progress.frame rfl rfl rfl
  · have dirs := (FileSystem.TemporaryInvariant.dir (tmpPath path)).packPath packing tidy
    have stashed := ready.callRename dirs moved
    exact ((stashed.requeue rfl rfl (.enqueue queued (by simp)) : Progress env client { packed with
      fs := fs, queue := queue })).frame rfl rfl rfl

theorem renameSync (starts : ∀ {rest : Scratch → Prop}, rest state.scratch → Keeping env client state.fs state rest)
    (clear : renameClear env source target newTimestamp state)
    (synced : renameSync env source target fromVersion newTimestamp state = .ok after) :
    Keeping env client state.fs after (Scratch.Stays state.fs source target) := by
  simp only [DeltaCFS.renameSync] at synced
  simp only [renameClear] at clear
  split at synced
  · next opens =>
    simp only [opens, ↓reduceIte] at clear
    obtain ⟨packed, timestamp, deltaFile, computed, unlinked, queue, packing, -, computing, first, second, rfl⟩ :=
      renameOnto_eq_ok synced
    obtain ⟨ready, -⟩ := ((starts clear).mono fun _ => clears_append.mp).packPath packing
    obtain ⟨next, fresh, -⟩ := ready.computeDelta computing
    exact ((next.mono fun _ all => ⟨all.1 rfl, all.2⟩).enqueueUnlinkDelta fresh first second).frame rfl rfl rfl
  · next closed =>
    simp only [closed, Bool.false_eq_true, ↓reduceIte] at clear
    cases related : relFind target state.rel with
    | none =>
      simp only [related] at clear synced
      obtain ⟨packed, queue, packing, queued, rfl⟩ := renamePlain_eq_ok synced
      exact (((starts clear).packPath packing).1.enqueue queued (by simp)).frame rfl rfl rfl
    | some rh =>
      simp only [related] at clear synced
      obtain ⟨deltaFile, computed, check, computing, known, outcome⟩ := renameRelated_eq_ok synced
      have version : computed.db (state.rel.rq.node rh.loc).dst = state.db (state.rel.rq.node rh.loc).dst := by
        obtain ⟨old, new, delta, facts⟩ := computeDelta_eq_ok computing
        obtain ⟨_, _, _, _, _, _, _, rfl⟩ := facts.files
        rfl
      rcases outcome with ⟨current, unlinked, queue, first, second, rfl⟩ | ⟨changed, packed, queue, packing, queued, rfl⟩
      · rw [if_pos (by rw [← version, known, current])] at clear
        obtain ⟨next, fresh, -⟩ := (starts clear).computeDelta computing
        exact ((next.mono fun _ all => ⟨all.1 rfl, all.2⟩).enqueueUnlinkDelta fresh first second).frame rfl rfl rfl
      · have stale : state.db (state.rel.rq.node rh.loc).dst ≠ some (state.rel.rq.node rh.loc).time := fun same =>
          changed (Option.some.inj (known.symm.trans (version.trans same)))
        rw [if_neg stale] at clear
        obtain ⟨next, -, queue', db, rel⟩ := (starts clear).computeDelta computing
        have sized := (next.mono fun _ => And.right).sizes
        rw [← queue', ← db, ← rel] at sized
        have numbered : Keeping env client state.fs { computed with
            db := Function.update computed.db target (some newTimestamp) } _ := sized.frame rfl rfl rfl
        exact ((numbered.packPath packing).1.enqueue queued (by simp)).frame rfl rfl rfl

theorem rename (files : client.DeltaFiles) (tidy : Tidy client.queue)
    (off : client.KeepsOff ⟨env, .rename source target⟩)
    (handled : xmpRename env source target client = .ok (res, after)) : Progress env client after := by
  obtain ⟨version, synced, rel, -, syncing, -, outcome⟩ := xmpRename_eq_ok handled
  have starts {rest : Scratch → Prop} (off : rest client.scratch) : Keeping env client client.fs { client with
      recfsCnt := client.recfsCnt + 1, db := Function.update client.db source none } rest :=
    (Keeping.start env files off).frame rfl rfl rfl
  have ready := renameSync starts off syncing
  rcases outcome with ⟨-, rfl⟩ | ⟨fs, moved, -, rfl⟩
  · exact ready.progress.frame rfl rfl rfl
  · have dirs := (FileSystem.TemporaryInvariant.dir target).renameSync syncing tidy
    exact (ready.callRename dirs moved).frame rfl rfl rfl

theorem linkSync (starts : ∀ {rest : Scratch → Prop}, rest state.scratch → Keeping env client state.fs state rest)
    (tidy : Tidy state.queue) (clear : linkClear env source target state)
    (synced : linkSync env source target fromVersion state = .ok after) :
    Keeping env client state.fs after fun _ => True := by
  simp only [DeltaCFS.linkSync] at synced
  simp only [linkClear] at clear
  cases related : relFind target state.rel with
  | none =>
    simp only [related] at synced
    exact Except.ok.inj synced ▸ starts trivial
  | some rh =>
    simp only [related] at clear synced
    obtain ⟨middle, packed, deltaFile, computed, check, packing, packing', computing, known, outcome⟩ :=
      linkRelated_eq_ok synced
    obtain ⟨halfway, db, rel⟩ := (starts clear).packPath packing
    have sized := halfway.sizes.mono fun _ => clears_append.mp
    have works : packWorkPath middle.fs.getFileSize state.db state.rel source middle.queue = middle.packWork source := by
      rw [Client.packWork, db, rel]
    rw [packWorkPath_left tidy packing, works] at sized
    obtain ⟨ready, db', -⟩ := sized.packPath packing'
    obtain ⟨next, fresh, -, db'', -⟩ := ready.computeDelta computing
    rcases outcome with ⟨current, queue, queued, rfl⟩ | ⟨-, rfl⟩
    · have taken : decide (state.db (state.rel.rq.node rh.loc).dst = some (state.rel.rq.node rh.loc).time) = true := by
        rw [decide_eq_true_iff, ← db, ← db', ← db'', known, current]
      have entered := (next.mono fun _ all => ⟨all.1 taken, all.2⟩).enqueueDelta fresh queued
      exact entered.requeue rfl rfl (SameDeltas.syncDelete { computed with queue := queue } source)
    · exact next.mono fun _ _ => trivial

theorem link (files : client.DeltaFiles) (tidy : Tidy client.queue) (off : client.KeepsOff ⟨env, .link source target⟩)
    (handled : xmpLink env source target client = .ok (res, after)) : Progress env client after := by
  obtain ⟨version, synced, queue, -, syncing, queued, outcome⟩ := xmpLink_eq_ok handled
  have ready := (linkSync (Keeping.start env files) tidy off syncing).enqueue queued (by simp)
  rcases outcome with ⟨-, rfl⟩ | ⟨fs, linked, -, rfl⟩
  · exact ready.progress.frame rfl rfl rfl
  · have done := ready.call (ready.progress.files.allocated.link linked) fun _ slot _ _ queued =>
      .link (ready.progress.files.regular slot queued) linked
    exact done.frame rfl rfl rfl

theorem truncate {size : ℕ} (files : client.DeltaFiles) (off : client.KeepsOff ⟨env, .truncate path size⟩)
    (handled : xmpTruncate env path size client = .ok (res, after)) : Progress env client after := by
  obtain ⟨synced, syncing, outcome⟩ := xmpTruncate_eq_ok handled
  have start : Keeping env client client.fs client fun scratch => scratch.Avoids path := .start env files off
  have ready : Keeping env client client.fs synced fun scratch => scratch.Avoids path := by
    rcases truncateSync_eq_ok syncing with ⟨-, rfl⟩ | ⟨-, sh, -, rfl⟩ | ⟨-, -, version, queue, -, queued, rfl⟩
    · exact start.requeue rfl rfl (.syncDeleteWrite client path)
    · exact start.requeue rfl rfl (.appended client path _)
    · have looked : Keeping env client client.fs { client with queue := (syncFind path client.queue).2 } _ :=
        start.requeue rfl rfl (.of_ring (syncFind_sq path client.queue))
      exact (looked.enqueue queued (by simp)).frame rfl rfl rfl
  rcases outcome with ⟨-, rfl⟩ | ⟨fs, truncated, -, rfl⟩
  · exact ready.progress
  · exact ready.call (ready.progress.files.allocated.truncate truncated) fun _ _ describes avoids queued =>
      .truncate (describes.apart avoids queued) truncated

theorem writeFile {offset : ℕ} {data : Bytes} (files : client.DeltaFiles)
    (off : client.KeepsOff ⟨env, .write path offset data⟩)
    (handled : xmpWrite env path offset data client = .ok (res, after)) : Progress env client after := by
  obtain ⟨synced, syncing, outcome⟩ := xmpWrite_eq_ok handled
  have start : Keeping env client client.fs client fun scratch => scratch.Avoids path := .start env files off
  have ready : Keeping env client client.fs synced fun scratch => scratch.Avoids path := by
    rcases writeSync_eq_ok syncing with ⟨sh, -, rfl⟩ | ⟨-, version, queue, -, queued, rfl⟩
    · exact start.requeue rfl rfl (.appended client path _)
    · have looked : Keeping env client client.fs { client with queue := (syncFind path client.queue).2 } _ :=
        start.requeue rfl rfl (.of_ring (syncFind_sq path client.queue))
      exact (looked.enqueue queued (by simp)).frame rfl rfl rfl
  rcases outcome with ⟨-, rfl⟩ | ⟨fs, -, written, -, rfl⟩
  · exact ready.progress
  · exact ready.call (ready.progress.files.allocated.pwriteAt written) fun _ _ describes avoids queued =>
      .pwriteAt (describes.apart avoids queued) written

theorem setattr {op : Op} {values : List UInt64} (files : client.DeltaFiles) (other : op ≠ .delta)
    (handled : xmpSetattr env op path values client = .ok (res, after)) : Progress env client after := by
  obtain ⟨queue, queued, outcome⟩ := xmpSetattr_eq_ok handled
  have ready : Progress env client { client with queue := queue } :=
    (Progress.refl env files).requeue rfl rfl (.enqueue queued other)
  rcases outcome with ⟨-, rfl⟩ | ⟨fs, changed, -, rfl⟩
  · exact ready
  · exact ready.write (ready.files.allocated.setattr changed) fun _ _ => .setattr changed

theorem mkdir {mode : ℕ} (files : client.DeltaFiles) (handled : xmpMkdir env path mode client = .ok (res, after)) :
    Progress env client after := by
  rcases xmpMkdir_eq_ok handled with ⟨-, rfl⟩ | ⟨fs, queue, made, queued, -, rfl⟩
  · exact .refl env files
  · have done : Progress env client { client with fs := fs } :=
      (Progress.refl env files).write (files.allocated.mkdir made) fun slot queued => .mkdir (files.regular slot queued) made
    have entered : Progress env client { client with fs := fs, queue := queue } :=
      done.requeue rfl rfl (.enqueue queued (by simp))
    exact entered.frame rfl rfl rfl

theorem rmdir (files : client.DeltaFiles) (handled : xmpRmdir env path client = .ok (res, after)) :
    Progress env client after := by
  obtain ⟨version, queue, -, queued, outcome⟩ := xmpRmdir_eq_ok handled
  have ready : Progress env client { client with queue := queue } :=
    (Progress.refl env files).requeue rfl rfl (.enqueue queued (by simp))
  rcases outcome with ⟨-, rfl⟩ | ⟨fs, removed, -, rfl⟩
  · exact ready
  · exact ready.write (ready.files.allocated.rmdir removed) fun slot queued =>
      .rmdir (ready.files.regular slot queued) removed

/-- Packing the head of the queue. -/
theorem packHead (files : client.DeltaFiles) (off : headClear env client)
    (packed : packHead env client = .ok after) : Progress env client after := by
  have ring := syncFind_sq (client.node client.queue.sq.head).src client.queue
  simp only [DeltaCFS.packHead] at packed
  simp only [headClear] at off
  split at packed
  · next waits =>
    have start := Keeping.start env files (off waits)
    cases hit : (syncFind (client.node client.queue.sq.head).src client.queue).1 with
    | none =>
      simp only [hit] at packed start
      have looked : Keeping env client client.fs { client with
          queue := (syncFind (client.node client.queue.sq.head).src client.queue).2 } _ :=
        start.requeue rfl rfl (.of_ring ring)
      exact (looked.syncPackWrite packed).1.progress
    | some sh =>
      simp only [hit] at packed start
      have deleted : Keeping env client client.fs { client with
          queue := hashDel sh (syncFind (client.node client.queue.sq.head).src client.queue).2 } _ :=
        start.requeue rfl rfl (.of_ring ring)
      exact (deleted.syncPackWrite packed).1.progress
  · exact Except.ok.inj packed ▸ .refl env files

end Keeping

/-! ## Runs -/

/-- Packing neither fills nor frees a slot. -/
theorem packHead_flags (formed : client.WellFormed) (occupied : (client.node client.queue.sq.head).isEmpty = false)
    (packed : packHead env client = .ok after) (slot : ℕ) : (after.node slot).isEmpty = (client.node slot).isEmpty := by
  obtain ⟨tidy, nodes, ⟨fifo, queued, -⟩, -⟩ := formed.queue
  have rule : PackInvariant env fun state => (state.node slot).isEmpty = (client.node slot).isEmpty := by
    refine ⟨fun ring same => ?_, fun _ _ _ one same => ?_⟩
    · simpa only [Client.node, ring] using same
    · obtain ⟨-, -, -, ⟨sn, changed, isEmpty, -⟩, -⟩ := one.frame
      simp only [Client.node, changed, SyncQueue.modifyNode, RingBuffer.modify_node] at same ⊢
      split
      · next here => exact isEmpty.trans (here ▸ same)
      · exact same
  exact rule.packHead packed tidy queued.head_lt occupied rfl

/-- After packing, what is left to a call is at most to take the head out of the queue. -/
theorem Progress.of_step {event : Event} {outcome : Outcome} (formed : client.WellFormed) (files : client.DeltaFiles)
    (off : client.KeepsOff event) (stepped : client.step event.env event.call = .ok outcome) :
    ∃ state, Progress event.env client state ∧
      (outcome.client = state ∨ outcome.client = { state with queue := syncDequeue state.queue }) ∧
      ∀ sn, outcome.sent = some sn →
        sn.isEmpty = false ∧ state.node client.queue.sq.head = sn ∧ outcome.client.fs = state.fs ∧
          outcome.client.deltas = state.deltas := by
  obtain ⟨env, call⟩ := event
  have handler {handled : Handled} (ran : Outcome.ofHandled handled = .ok outcome)
      (progress : ∀ {res after}, handled = .ok (res, after) → Progress env client after) :
      ∃ state, Progress env client state ∧
        (outcome.client = state ∨ outcome.client = { state with queue := syncDequeue state.queue }) ∧
        ∀ sn, outcome.sent = some sn →
          sn.isEmpty = false ∧ state.node client.queue.sq.head = sn ∧ outcome.client.fs = state.fs ∧
            outcome.client.deltas = state.deltas := by
    obtain ⟨same, quiet⟩ := ofHandled_eq_ok ran
    exact ⟨outcome.client, progress same, .inl rfl, fun sn sent => absurd (quiet.symm.trans sent) (by simp)⟩
  have tidy := formed.queue.tidy
  cases call with
  | mknod path mode rdev => exact handler stepped (Keeping.mknod files off)
  | mkdir path mode => exact handler stepped (Keeping.mkdir files)
  | unlink path => exact handler stepped (Keeping.unlink files tidy off)
  | rmdir path => exact handler stepped (Keeping.rmdir files)
  | rename source target => exact handler stepped (Keeping.rename files tidy off)
  | link source target => exact handler stepped (Keeping.link files tidy off)
  | chmod path mode => exact handler stepped (Keeping.setattr files (by simp))
  | chown path uid gid => exact handler stepped (Keeping.setattr files (by simp))
  | utimens path accessed modified => exact handler stepped (Keeping.setattr files (by simp))
  | truncate path size => exact handler stepped (Keeping.truncate files off)
  | write path offset data => exact handler stepped (Keeping.writeFile files off)
  | syncExecute =>
    rcases syncExecute_eq_ok (step_syncExecute stepped).1 with ⟨-, quiet, same⟩ | ⟨occupied, packed, packing, sent, same⟩
    · exact ⟨client, .refl env files, .inl same, fun sn sent => absurd (quiet.symm.trans sent) (by simp)⟩
    · refine ⟨packed, Keeping.packHead files off packing, .inr same, fun sn sends => ?_⟩
      rw [sent] at sends
      split at sends
      · exact absurd sends (by simp)
      · obtain rfl := Option.some.inj sends
        exact ⟨(packHead_flags formed occupied packing _).trans occupied, rfl, by rw [same], by rw [same]⟩
  | relDequeue =>
    obtain rfl := Except.ok.inj stepped
    have ready : Progress env client { client with rel := relDequeue client.rel } :=
      (Progress.refl env files).frame rfl rfl rfl
    exact ⟨_, ready, .inl rfl, fun _ sent => absurd sent (by simp)⟩

/-- The deltas that are still in the queue after a call. -/
theorem dequeued_deltas {outcome : Client}
    (dequeued : outcome = state ∨ outcome = { state with queue := syncDequeue state.queue }) :
    outcome.fs = state.fs ∧ outcome.deltas = state.deltas ∧
      ∀ slot, outcome.QueuedDelta slot → state.QueuedDelta slot ∧ (outcome.node slot).src = (state.node slot).src := by
  rcases dequeued with rfl | rfl
  · exact ⟨rfl, rfl, fun slot queued => ⟨queued, rfl⟩⟩
  · refine ⟨rfl, rfl, fun slot queued => ?_⟩
    obtain ⟨bound, occupied, delta⟩ := queued
    simp only [Client.QueuedDelta, Client.node, syncDequeue] at bound occupied delta ⊢
    split at occupied
    · next free =>
      simp only [free, ↓reduceIte] at delta ⊢
      exact ⟨⟨bound, occupied, delta⟩, trivial⟩
    · next busy =>
      simp only [busy, Bool.false_eq_true, ↓reduceIte, RingBuffer.pop, Function.update_apply] at occupied delta ⊢
      split at occupied
      · exact absurd occupied (by simp)
      · next other =>
        simp only [other, ↓reduceIte] at delta ⊢
        exact ⟨⟨bound, occupied, delta⟩, trivial⟩

theorem Client.DeltaFiles.initial (memory : Memory) (dirSize : Path → ℕ) : (Client.initial memory dirSize).DeltaFiles := by
  have none (slot : ℕ) : ¬ (Client.initial memory dirSize).QueuedDelta slot := fun queued =>
    absurd queued.2.1 (by simp [Client.node, Client.initial, SyncQueue.initial, SyncNode.fresh])
  exact ⟨fun slot _ queued => absurd queued (none slot), fun slot queued => absurd queued (none slot),
    fun _ inside => absurd inside List.not_mem_nil⟩

/-- Calls that keep off the files of the deltas in the queue. -/
def KeptOff (event : Event) (client : Client) : Prop := client.KeepsOff event

/-- On the way to the state there is a call that made the node of the slot a delta, which it has been since,
and in which `compute_delta` wrote these bytes to its file. -/
def MadeDelta (first client : Client) (slot : ℕ) (delta : Bytes) : Prop :=
  ∃ event before after, Transition.Run Client.next KeptOff first before ∧ before.KeepsOff event ∧
    before.next event = .ok after ∧ ¬ before.QueuedDelta slot ∧ after.QueuedDelta slot ∧
    Transition.Run Client.next (fun event state => state.KeepsOff event ∧ state.QueuedDelta slot) after client ∧
    WritesDelta event.env before after (client.node slot).src delta

/-- What the runs that keep off the files keep. -/
structure KeptDeltas (first client : Client) : Prop where
  run : Transition.Run Client.next KeptOff first client
  formed : client.WellFormed
  files : client.DeltaFiles
  made : ∀ slot, client.QueuedDelta slot →
    ∃ delta, MadeDelta first client slot delta ∧ client.fs.read (client.node slot).src = some delta

theorem KeptDeltas.step {first : Client} {event : Event} (kept : KeptDeltas first client) (off : client.KeepsOff event)
    (stepped : client.next event = .ok after) : KeptDeltas first after := by
  obtain ⟨run, formed, files, made⟩ := kept
  obtain ⟨outcome, ran, rfl⟩ := next_eq_ok stepped
  obtain ⟨state, progress, dequeued, -⟩ := Progress.of_step formed files off ran
  obtain ⟨fs, deltas, left⟩ := dequeued_deltas dequeued
  refine ⟨run.tail off stepped, formed.step stepped, ⟨fun slot slot' queued queued' equal => ?_, fun slot queued => ?_,
    fs ▸ progress.files.allocated⟩, fun slot queued => ?_⟩
  · obtain ⟨old, src⟩ := left slot queued
    obtain ⟨old', src'⟩ := left slot' queued'
    exact progress.files.apart slot slot' old old' (src.symm.trans (equal.trans src'))
  · obtain ⟨old, src⟩ := left slot queued
    exact src ▸ fs ▸ progress.files.regular slot old
  · obtain ⟨old, src⟩ := left slot queued
    by_cases before : client.QueuedDelta slot
    · obtain ⟨delta, ⟨event', first', second, reach, off', made', not, becomes, since, writes⟩, held⟩ := made slot before
      obtain ⟨-, same, read⟩ := progress.kept slot before
      refine ⟨delta, ⟨event', first', second, reach, off', made', not, becomes, since.tail ⟨off, before⟩ stepped, ?_⟩, ?_⟩
      · rwa [src, same]
      · rw [src, same, fs, read, held]
    · obtain ⟨delta, ⟨n, base, old', new, least, bound, same⟩, read⟩ := (progress.fresh slot old).resolve_left before
      refine ⟨delta, ⟨event, client, outcome.client, run, off, stepped, before, queued, .refl _, ?_⟩, ?_⟩
      · rw [src]
        exact ⟨n, base, old', new, least, deltas ▸ bound, same⟩
      · rw [src, fs, read]

theorem KeptDeltas.of_run {memory : Memory} {dirSize : Path → ℕ}
    (run : Transition.Run Client.next KeptOff (Client.initial memory dirSize) client) :
    KeptDeltas (Client.initial memory dirSize) client :=
  run.invariant (KeptDeltas (Client.initial memory dirSize)) (fun kept off stepped => kept.step off stepped)
    ⟨.refl _, .initial memory dirSize, .initial memory dirSize, fun slot queued =>
      absurd queued.2.1 (by simp [Client.node, Client.initial, SyncQueue.initial, SyncNode.fresh])⟩

/-- A new file without a relation is packed without a delta. -/
theorem packWork_unrelated (unrelated : ∀ sh, (syncFind path client.queue).1 = some sh →
    (client.node sh.loc).op = .newfile ∧ relFind (client.node sh.loc).src client.rel = none) :
    client.packWork path = [] := by
  have ring := syncFind_sq path client.queue
  simp only [Client.packWork, packWorkPath]
  split
  · next sh queue hit =>
    obtain ⟨newfile, alone⟩ := unrelated sh (congrArg Prod.fst hit)
    rw [hit] at ring
    dsimp only at ring
    simp only [Client.node] at newfile alone
    simp [packFuel, packWork, relationOf, hashDel, ring, newfile, alone]
  · rfl

theorem mknod_keepsOff {mode rdev : ℕ} (unqueued : (syncFind path client.queue).1 = none) :
    client.KeepsOff ⟨env, .mknod path mode rdev⟩ := by
  intro fs _
  have nothing : Client.packWork path { recfsUpdateTimestamp path client.newVersion (increaseRecfsCnt client).2 with
      fs := fs } = [] := packWork_unrelated fun sh hit => absurd (unqueued.symm.trans hit) (by simp)
  exact nothing.symm ▸ trivial

/-- The names of the deltas in the queue, before the ring has wrapped around. -/
theorem Client.scratch_held (formed : client.WellFormed) (ahead : client.queue.sq.head < client.queue.sq.tail)
    {P : Path → Prop} (check : ∀ slot < client.queue.sq.tail, client.QueuedDelta slot → P (client.node slot).src) :
    ∀ name ∈ client.scratch.held, P name := by
  rintro name ⟨slot, queued, rfl⟩
  exact check slot (formed.occupied_lt_tail ahead queued.1 queued.2.1) queued

/-- What keeps a rename onto a file that is not waiting off the files of the deltas. -/
def OntoClear (env : Env) (source target : Path) (client : Client) (name : Path) : Prop :=
  ¬ client.fs.Same (sigPath target) name ∧ ¬ client.fs.Same (deltaPath env client.deltas target) name ∧
    name ≠ source ∧ FileSystem.isBelow source name = false ∧ name ≠ target ∧ FileSystem.isBelow target name = false

instance : DecidablePred (OntoClear env source target client) := fun _ => inferInstanceAs (Decidable (_ ∧ _))

theorem rename_keepsOff (opens : client.opens env target = true)
    (alone : ∀ sh, (syncFind target client.queue).1 = some sh →
      (client.node sh.loc).op = .newfile ∧ relFind (client.node sh.loc).src client.rel = none)
    (held : ∀ name ∈ client.scratch.held, OntoClear env source target client name)
    (drawn : FileSystem.isBelow source (deltaPath env client.deltas target) = false ∧
      FileSystem.isBelow target (deltaPath env client.deltas target) = false ∧
      deltaPath env client.deltas target ≠ source ∧ deltaPath env client.deltas target ≠ target) :
    client.KeepsOff ⟨env, .rename source target⟩ := by
  have nothing : Client.packWork target (increaseRecfsCnt (recfsDelTimestamp source client)).2 = [] :=
    packWork_unrelated alone
  simp only [Client.KeepsOff, renameClear]
  rw [if_pos (show Client.opens env target (increaseRecfsCnt (recfsDelTimestamp source client)).2 = true from opens),
    nothing, List.nil_append]
  refine ⟨⟨fun name inside => (held name inside).1, fun name inside => (held name inside).2.1⟩, fun name inside => ?_⟩
  rcases inside with rfl | inside
  · exact ⟨drawn.2.2.1, drawn.1, drawn.2.2.2, fun below => absurd (drawn.2.1.symm.trans below) (by simp)⟩
  · obtain ⟨-, -, apart, outside, apart', beneath⟩ := held name inside
    exact ⟨apart, outside, apart', fun below => absurd (beneath.symm.trans below) (by simp)⟩

/-- Two files are renamed onto `/b`. -/
def renamesOntoTwice (env : Env) : List Event :=
  [⟨env, .mknod [47, 97] 33188 0⟩, ⟨env, .mknod [47, 98] 33188 0⟩, ⟨env, .rename [47, 97] [47, 98]⟩,
    ⟨env, .mknod [47, 99] 33188 0⟩, ⟨env, .rename [47, 99] [47, 98]⟩]

/-- `rand` counts its calls. -/
def Env.counting : Env := { Env.plain with rand := id }

end DeltaCFS
