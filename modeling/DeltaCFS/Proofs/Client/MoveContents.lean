import DeltaCFS.Proofs.Client.EditContents
import DeltaCFS.Proofs.Client.Waiting

/-! # Deleting and renaming

The content moves with the file, and its new version stands for what the old one stood for. What the
queue gets is either a node that says just that, or the deletion of the old name and a delta.
-/

namespace DeltaCFS

open Bytes

variable {what origin : UInt64 → Bytes} {dir : Dir} {env : Env} {client start after : Client} {path source target : Path}
  {db : Path → Option UInt64} {res : ℤ}

/-- What `xmp_rename` packs it packs truly, and what it computes has no false hits. -/
structure RenamesTruly (origin : UInt64 → Bytes) (env : Env) (source target : Path) (newTimestamp : UInt64)
    (client : Client) : Prop where
  onto : client.opens env target = true → packsEachPath (PacksTruly origin env) env target client ∧
    ∀ packed, syncPackWritePath env target client = .ok packed → packed.MayCompute env target ∧ ∀ old new,
      packed.fs.read target = some old → packed.fs.read source = some new →
        SafeDelta env packed old new
  plain : client.opens env target = false → relFind target client.rel = none →
    packsEachPath (PacksTruly origin env) env source client
  related : client.opens env target = false → ∀ rh, relFind target client.rel = some rh →
    client.MayCompute env (client.rel.rq.node rh.loc).dst ∧
      (client.db (client.rel.rq.node rh.loc).dst = some (client.rel.rq.node rh.loc).time → ∀ old new,
        client.fs.read (client.rel.rq.node rh.loc).dst = some old → client.fs.read source = some new →
          SafeDelta env client old new) ∧
      (client.db (client.rel.rq.node rh.loc).dst ≠ some (client.rel.rq.node rh.loc).time → ∀ deltaFile computed,
        computeDelta env (client.rel.rq.node rh.loc).dst source (client.rel.rq.node rh.loc).dst client =
          .ok (deltaFile, computed) →
        packsEachPath (PacksTruly origin env) env source (recfsUpdateTimestamp target newTimestamp computed))

namespace Contents

/-- Packing the node of a path leaves nothing pending for it. -/
theorem packPath (contents : Contents what origin dir start.fs db start.queue.sq start.rel)
    (table : PendingTable start.queue) (temporary : ∀ name, tmpDir <+: name → start.db name = db name)
    (known : ∀ src dst time, start.rel.Related src dst time → start.db dst = some time → db dst = some time)
    (each : packsEachPath (PacksTruly origin env) env path start)
    (packing : syncPackWritePath env path start = .ok after) :
    Contents what origin dir after.fs db after.queue.sq after.rel ∧ Settled after.queue.sq path ∧
      after.db = start.db ∧ after.rel = start.rel ∧ PendingTable after.queue := by
  obtain ⟨sameDb, sameRel, packed⟩ :=
    (Contents.packRule env start temporary known).packPath packing table.tidy each ⟨rfl, rfl, contents⟩
  obtain ⟨complete | ⟨stuck, -⟩, -, none⟩ := PendingTable.packPath packing table
  · exact ⟨packed, complete.settled none, sameDb, sameRel, complete⟩
  · exact absurd stuck (contents.not_stuck table.tidy path)

theorem unlink (contents : Contents what origin dir client.fs client.db client.queue.sq client.rel)
    (linked : Linked dir client) (state : MountState client) (bound : client.recfsCnt.toNat + 1 < counterBound)
    (user : UserPath path) (each : packsEachPath (PacksTruly origin env) env path client)
    (avoids : ∀ packed, syncPackWritePath env path client = .ok packed → packed.Avoids (tmpPath path))
    (handled : xmpUnlink env path client = .ok (res, after)) (done : 0 ≤ res) :
    ∃ what', Contents what' origin dir after.fs after.db after.queue.sq after.rel := by
  obtain ⟨version, packed, rel, known, packing, forgotten, outcome⟩ := xmpUnlink_eq_ok handled
  rcases outcome with ⟨failed, -⟩ | ⟨fs, queue, related, moved, queued, entered, -, rfl⟩
  · omega
  have free := linked.unmentioned state.based bound
  have apart : version ≠ client.newVersion := fun same => free.2.1 path (same ▸ known)
  obtain ⟨-, -, sameCount⟩ := syncPackWritePath_frame packing linked.queue.tidy
  have new : packed.newVersion = client.newVersion := by simp only [Client.newVersion, sameCount]
  have chosen := contents.choose_update free (what version) (origin client.newVersion)
  rw [Function.update_eq_self] at chosen
  obtain ⟨ready, settled, sameDb, sameRel, -⟩ :=
    chosen.packPath linked.table (fun _ _ => rfl) (fun _ _ _ _ => id) each packing
  obtain ⟨content, held, plain, reads⟩ := ready.plain.rename moved
  have isContent := Option.some.inj (held.symm.trans (ready.files path version user known))
  rw [Function.update_of_ne apart] at isContent
  have notTmp : path ≠ tmpPath path := user.ne_of_prefix (tmpDir_prefix_tmpPath path)
  have settledTmp : Settled packed.queue.sq (tmpPath path) := by
    intro slot alive waits
    obtain ⟨user, -⟩ := ready.pending slot alive waits
    exact user.ne_of_prefix (tmpDir_prefix_tmpPath path)
  have bare := (ready.forget settledTmp).forget settled
  have changed := bare.change plain fun name => by
    rw [reads]
    by_cases stash : name = tmpPath path
    · subst stash
      refine .inr ⟨fun inside => absurd (tmpDir_prefix_tmpPath path) inside, fun src time _ => ?_, fun slot alive op => ?_⟩
      · simp [Function.update_of_ne notTmp.symm]
      · exact avoids packed packing slot ⟨alive.1, alive.2.1, op⟩
    · rw [if_neg stash]
      by_cases here : name = path
      · exact .inr (here ▸ bare.spare user (Function.update_self ..))
      · exact .inl (if_neg here)
  have stored : fs.read (tmpPath path) = some (Function.update what client.newVersion (what version) client.newVersion) := by
    rw [reads, if_pos rfl, Function.update_self, isContent]
  have assigned := changed.assign (by simp [Function.update_of_ne notTmp.symm]) stored
  rw [Function.update_comm notTmp, Function.update_idem, ← sameDb] at assigned
  have queuing := assigned.enqueue queued (fun old => ⟨fun _ => ?_, by simp [SyncNode.enqueued],
    by simp [SyncNode.enqueued], by simp [SyncNode.enqueued], by simp [SyncNode.enqueued]⟩) (fun _ => new ▸ free.1)
    (by simp [Op.isBuffered])
  · refine ⟨Function.update what client.newVersion (what version), ?_⟩
    rw [new]
    have fewer : rel.Sane ∧ ∀ src dst time, rel.Related src dst time → packed.rel.Related src dst time := by
      obtain ⟨sane, first⟩ := (sameRel ▸ state.based.related.sane : packed.rel.Sane).relDeleteDst path
      obtain ⟨sane', second⟩ := sane.relDeleteSrc path
      rw [forgotten]
      exact ⟨sane', fun _ _ _ related => (first (second related).1).1⟩
    refine queuing.relate fun src dst time found => ?_
    rcases (fewer.1.relEnqueue entered).2 found with ⟨-, rfl, rfl⟩ | ⟨-, old⟩
    · exact .inr (.inr (new ▸ stored))
    · exact .inl (fewer.2 _ _ _ old)
  · simp only [SyncNode.enqueued, new, Function.update_self, Function.update_of_ne apart]

/-- The deletion of the source and the delta for the target, between safe files. -/
theorem unlinkDelta {first second third : SyncQueue} {fs : FileSystem} {rel : RelTable} {para : Option (Fin 5 → UInt64)}
    {deltaFile : Path} {delta : Bytes} {fromVersion new base : UInt64}
    (contents : Contents what origin dir fs db first.sq rel) (temporary : tmpDir <+: deltaFile)
    (held : fs.read deltaFile = some delta) (patched : serverPatch (what base) delta = .ok (true, what new))
    (free : dir (verToName new) = none)
    (unlinked : syncEnqueue .unlink source [] none none none fromVersion 0 first = .ok second)
    (queued : syncEnqueue .delta deltaFile target para none none new base (DeltaCFS.syncDelete source second) = .ok third) :
    Contents what origin dir fs db third.sq rel := by
  have deleted := (contents.enqueue unlinked (fun old => .of_plain rfl) (by simp)
    (by simp [Op.isBuffered])).syncDelete source
  refine deleted.enqueue queued (fun old => ⟨by simp [SyncNode.enqueued], by simp [SyncNode.enqueued],
    by simp [SyncNode.enqueued], by simp [SyncNode.enqueued], fun _ => ⟨temporary, delta, held, patched⟩⟩)
    (fun _ => free) (by simp [Op.isBuffered])

/-- What `xmp_rename` does with the queue, before the versions of its paths are taken away. The new
version stands for what the source has. -/
theorem renameSync {fromVersion new : UInt64} (contents : Contents what origin dir start.fs db start.queue.sq start.rel)
    (table : PendingTable start.queue) (user : UserPath source) (user' : UserPath target)
    (temporary : ∀ name, tmpDir <+: name → start.db name = db name)
    (known : ∀ src dst time, start.rel.Related src dst time →
      start.db dst = some time ∨ dst = target ∧ time = new → db dst = some time)
    (versioned : db source = some fromVersion) (same : what new = what fromVersion) (free : dir (verToName new) = none)
    (fewer : ∀ path version, start.db path = some version → db path = some version)
    (truly : RenamesTruly origin env source target new start)
    (synced : DeltaCFS.renameSync env source target fromVersion new start = .ok after) :
    Contents what origin dir after.fs db after.queue.sq start.rel ∧
      (start.opens env target = true → Settled after.queue.sq target) := by
  have known' : ∀ src dst time, start.rel.Related src dst time → start.db dst = some time → db dst = some time :=
    fun src dst time related found => known src dst time related (.inl found)
  have renames (old : SyncNode) :
      (old.enqueued .rename source target none none none new fromVersion).Carries what origin after.fs :=
    ⟨fun _ => same, by simp [SyncNode.enqueued], by simp [SyncNode.enqueued], by simp [SyncNode.enqueued],
      by simp [SyncNode.enqueued]⟩
  simp only [DeltaCFS.renameSync] at synced
  split at synced
  · next opens =>
    obtain ⟨each, draws⟩ := truly.onto opens
    obtain ⟨packed, timestamp, deltaFile, computed, unlinked, queue, packing, version, computing, first, second, rfl⟩ :=
      renameOnto_eq_ok synced
    obtain ⟨ready, settled, sameDb, sameRel, -⟩ := contents.packPath table temporary known' each packing
    obtain ⟨may, safe⟩ := draws packed packing
    obtain ⟨old, content, delta, facts⟩ := computeDelta_eq_ok computing
    obtain ⟨next, newRead, deltaRead, patches⟩ :=
      ready.computing facts may (fun name inside => by rw [sameDb]; exact temporary name inside) user
    have prefixed : tmpDir <+: deltaFile := by
      rw [facts.path_eq]
      exact tmpDir_prefix_deltaPath ..
    have oldRead := facts.old_of_plain ready.plain (user'.ne_of_prefix (tmpDir_prefix_sigPath target))
    have oldIs : old = what timestamp :=
      Option.some.inj (oldRead.symm.trans (ready.files _ _ user' (fewer _ _ (sameDb ▸ version))))
    have newIs : content = what new := by
      rw [same]
      exact Option.some.inj (newRead.symm.trans (ready.files _ _ user versioned))
    have patched := patches (safe old content oldRead newRead)
    rw [oldIs, newIs] at patched
    obtain ⟨_, _, stored, _, _, _, _, rfl⟩ := facts.files
    rw [← sameRel]
    exact ⟨next.unlinkDelta prefixed deltaRead patched free first second,
      fun _ => ((settled.enqueue first rfl).syncDelete source).enqueue second rfl⟩
  · next closed =>
    have closed : start.opens env target = false := by simpa using closed
    split at synced
    · next unrelated =>
      obtain ⟨packed, queue, packing, queued, rfl⟩ := renamePlain_eq_ok synced
      obtain ⟨ready, -, -, sameRel, -⟩ := contents.packPath table temporary known' (truly.plain closed unrelated) packing
      rw [← sameRel]
      exact ⟨ready.enqueue queued renames (fun _ => free) (by simp [Op.isBuffered]), by simp [closed]⟩
    · next rh related =>
      obtain ⟨may, safe, later⟩ := truly.related closed rh related
      obtain ⟨deltaFile, computed, check, computing, version, outcome⟩ := renameRelated_eq_ok synced
      obtain ⟨old, content, delta, facts⟩ := computeDelta_eq_ok computing
      obtain ⟨next, newRead, deltaRead, patches⟩ := contents.computing facts may temporary user
      have prefixed : tmpDir <+: deltaFile := by
        rw [facts.path_eq]
        exact tmpDir_prefix_deltaPath ..
      have oldRead := facts.old_of_plain contents.plain (ne_sigPath _)
      obtain ⟨_, _, stored, _, _, _, _, rfl⟩ := facts.files
      rcases outcome with ⟨current, unlinked, queue, first, second, rfl⟩ | ⟨changed, packed, queue, packing, queued, rfl⟩
      · subst current
        have linked := RelTable.related_of_relFind related
        have oldIs := contents.stashed _ _ _ linked (known' _ _ _ linked version) old oldRead
        have newIs : content = what new := by
          rw [same]
          exact Option.some.inj (newRead.symm.trans (contents.files _ _ user versioned))
        have patched := patches (safe version old content oldRead newRead)
        rw [oldIs, newIs] at patched
        exact ⟨next.unlinkDelta prefixed deltaRead patched free first second, by simp [closed]⟩
      · have each := later (fun found => changed (Option.some.inj (version.symm.trans found))) _ _ computing
        have temporary' (name : Path) (inside : tmpDir <+: name) :
            Function.update start.db target (some new) name = db name := by
          rw [Function.update_of_ne (user'.ne_of_prefix inside).symm]
          exact temporary name inside
        have known'' (src dst : Path) (time : UInt64) (found : start.rel.Related src dst time)
            (version : Function.update start.db target (some new) dst = some time) : db dst = some time :=
          known src dst time found ((Linked.update_cases version).symm.imp And.right id)
        have packs : Contents what origin dir
            (recfsUpdateTimestamp target new { start with fs := stored, deltas := start.deltas + 1 }).fs db
            (recfsUpdateTimestamp target new { start with fs := stored, deltas := start.deltas + 1 }).queue.sq
            (recfsUpdateTimestamp target new { start with fs := stored, deltas := start.deltas + 1 }).rel := next
        obtain ⟨ready, -, -, sameRel, -⟩ := packs.packPath table temporary' known'' each packing
        rw [show start.rel = packed.rel from sameRel.symm]
        exact ⟨ready.enqueue queued renames (fun _ => free) (by simp [Op.isBuffered]), by simp [closed]⟩

/-- A target that exists must be opened. -/
theorem rename (contents : Contents what origin dir client.fs client.db client.queue.sq client.rel)
    (linked : Linked dir client) (state : MountState client) (bound : client.recfsCnt.toNat + 1 < counterBound)
    (user : UserPath source) (user' : UserPath target)
    (opened : env.openFails = true → client.fs.entry target = none)
    (truly : RenamesTruly origin env source target client.newVersion
      (increaseRecfsCnt (recfsDelTimestamp source client)).2)
    (handled : xmpRename env source target client = .ok (res, after)) (done : 0 ≤ res) :
    ∃ what', Contents what' origin dir after.fs after.db after.queue.sq after.rel := by
  obtain ⟨version, synced, rel, known, syncing, entered, outcome⟩ := xmpRename_eq_ok handled
  rcases outcome with ⟨failed, -⟩ | ⟨fs, moved, -, rfl⟩
  · omega
  have free := linked.unmentioned state.based bound
  have above := newVersion_toNat bound
  have apart : version ≠ client.newVersion := fun same => free.2.1 source (same ▸ known)
  have chosen := contents.choose_update free (what version) (origin client.newVersion)
  rw [Function.update_eq_self] at chosen
  have fewer (path : Path) (found : UInt64) (old : Function.update client.db source none path = some found) :
      client.db path = some found := (Linked.delete_cases old).2
  have temporary (name : Path) (inside : tmpDir <+: name) :
      Function.update client.db source none name = client.db name :=
    Function.update_of_ne (user.ne_of_prefix inside).symm ..
  have relations (src dst : Path) (time : UInt64) (found : client.rel.Related src dst time)
      (cases : Function.update client.db source none dst = some time ∨ dst = target ∧ time = client.newVersion) :
      client.db dst = some time := by
    rcases cases with old | ⟨-, rfl⟩
    · exact fewer dst time old
    · have := state.based.related.bound _ _ _ found
      omega
  have begun : Contents (Function.update what client.newVersion (what version)) origin dir
      (increaseRecfsCnt (recfsDelTimestamp source client)).2.fs client.db
      (increaseRecfsCnt (recfsDelTimestamp source client)).2.queue.sq
      (increaseRecfsCnt (recfsDelTimestamp source client)).2.rel := chosen
  obtain ⟨ready, settles⟩ := begun.renameSync linked.table user user' temporary relations known
    (by rw [Function.update_self, Function.update_of_ne apart]) free.1 fewer truly syncing
  obtain ⟨sameRel, -, sameDb⟩ := renameSync_frame syncing linked.queue
  have table : PendingTable synced.queue :=
    PendingTable.renameSync syncing linked.table fun _ _ => begun.not_stuck linked.queue.tidy source
  have settled : Settled synced.queue.sq source := table.settled fun sh member named =>
    (SyncQueue.Waits.of_renameSync ⟨sh, member, named⟩ syncing state.formed.queue).2 rfl
  have settled' : Settled synced.queue.sq target := by
    cases opens : client.opens env target with
    | true => exact settles opens
    | false =>
      -- the target has no file, so it has no version either
      intro slot alive waits named
      obtain ⟨-, version'⟩ := ready.pending slot alive waits
      rw [named] at version'
      obtain ⟨content, held⟩ := state.mounted.exist target user' _ version'
      obtain ⟨ino, present⟩ := FileSystem.regular_iff_read.mpr ⟨content, held⟩
      simp only [Client.opens, present, Option.isSome_some, Bool.and_true, Bool.not_eq_false'] at opens
      exact absurd (present.symm.trans (opened opens)) (by simp)
  obtain ⟨content, held, plain, reads⟩ := ready.plain.rename moved
  have isContent := Option.some.inj (held.symm.trans (ready.files source version user known))
  rw [Function.update_of_ne apart] at isContent
  have bare := (ready.forget settled).forget settled'
  have changed := bare.change plain fun name => by
    rw [reads]
    by_cases there : name = target
    · exact .inr (there ▸ bare.spare user' (Function.update_self ..))
    · rw [if_neg there]
      by_cases here : name = source
      · subst here
        exact .inr (bare.spare user (by rw [Function.update_of_ne there, Function.update_self]))
      · exact .inl (if_neg here)
  have stored : fs.read target = some (Function.update what client.newVersion (what version) client.newVersion) := by
    rw [reads, if_pos rfl, Function.update_self, isContent]
  have assigned := changed.assign (Function.update_self ..) stored
  rw [Function.update_idem] at assigned
  refine ⟨Function.update what client.newVersion (what version), ?_⟩
  simp only [sameDb]
  obtain ⟨sane, replaced⟩ := state.based.related.sane.replaced target sameRel
  refine assigned.relate fun src dst time found => ?_
  rcases (sane.relEnqueue entered).2 found with ⟨-, rfl, -⟩ | ⟨-, old⟩
  · exact .inr (.inl user')
  · exact .inl (replaced old).1

end Contents

end DeltaCFS
