import DeltaCFS.Proofs.Client.Contents

/-! # Packing keeps what the versions stand for

A node is packed truly if its message makes the content of its version: what is undone of its writes is
the file as it was before them, its delta has no false hits, and the names that packing uses for files
of its own are not in use.
-/

namespace DeltaCFS

open Bytes

variable {what origin : UInt64 → Bytes} {dir : Dir} {env : Env} {client after : Client} {slot : ℕ}
  {db : Path → Option UInt64} {path name originfile newfile basefile deltaFile : Path}

/-! ## Conditions -/

/-- No delta in the queue has the name for its file, and no relation leads to its current version. -/
structure Client.Vacant (client : Client) (name : Path) : Prop where
  avoids : client.Avoids name
  stash : ∀ src time, client.rel.Related src name time → client.db name ≠ some time

/-- Both names of the files that `compute_delta` makes are vacant. -/
structure Client.MayCompute (env : Env) (basefile : Path) (client : Client) : Prop where
  sig : client.Vacant (sigPath basefile)
  delta : client.Vacant (deltaPath env client.deltas basefile)

/-- None of the searches for the next delta has a false hit, if it is between these contents. -/
def SafeDelta (env : Env) (client : Client) (old new : Bytes) : Prop :=
  NoFalseHits (env.qsort client.deltas) (env.sigStack client.deltas) (env.searchStack client.deltas) old new

/-- The message that the node of the slot is packed into makes the content of its version. -/
structure PacksTruly (origin : UInt64 → Bytes) (env : Env) (client : Client) (slot : ℕ) : Prop where
  whole : (client.node slot).op = .newfile → ∀ content, client.fs.read (client.node slot).src = some content →
    content.length < 2 ^ 64
  related : (client.node slot).op = .newfile → ∀ rh, relFind (client.node slot).src client.rel = some rh →
    client.MayCompute env (client.rel.rq.node rh.loc).dst ∧
      (client.db (client.rel.rq.node rh.loc).dst = some (client.rel.rq.node rh.loc).time → ∀ old new,
        client.fs.read (client.rel.rq.node rh.loc).dst = some old → client.fs.read (client.node slot).src = some new →
          SafeDelta env client old new)
  writes : (client.node slot).op = .write →
    sendsWrite ((client.node slot).bn.getD []) (client.fs.getFileSize (client.node slot).src) = true →
      ∀ bi ∈ (client.node slot).bn.getD [], bi.Arrives
  rebuilt : (client.node slot).op = .write →
    sendsWrite ((client.node slot).bn.getD []) (client.fs.getFileSize (client.node slot).src) = false →
      client.Vacant (tmpPath (client.node slot).src) ∧ client.MayCompute env (client.node slot).src ∧
        ∀ content, client.fs.read (client.node slot).src = some content →
          undoWrites ((client.node slot).bn.getD []) content = origin (client.node slot).time ∧
            SafeDelta env client (origin (client.node slot).time) content

/-! ## Files -/

/-- A vacant name of the temporary directory is spare. -/
theorem Client.Vacant.spare (vacant : client.Vacant name) (temporary : tmpDir <+: name)
    (same : client.db name = db name) : Spare db client.queue.sq client.rel name := by
  refine ⟨fun user => absurd temporary user, fun src time related => ?_, fun slot alive op => ?_⟩
  · rw [← same]
    exact vacant.stash src time related
  · exact vacant.avoids slot ⟨alive.1, alive.2.1, op⟩

/-- Computing a delta. -/
theorem Contents.computing {computed : Client} {old new delta : Bytes}
    (contents : Contents what origin dir client.fs db client.queue.sq client.rel)
    (facts : DeltaComputed env originfile newfile basefile client deltaFile computed old new delta)
    (may : client.MayCompute env basefile) (temporary : ∀ name, tmpDir <+: name → client.db name = db name)
    (user : UserPath newfile) :
    Contents what origin dir computed.fs db computed.queue.sq computed.rel ∧ client.fs.read newfile = some new ∧
      computed.fs.read deltaFile = some delta ∧
      (SafeDelta env client old new → serverPatch old delta = .ok (true, new)) := by
  obtain ⟨plain, newRead, reads⟩ := facts.of_plain contents.plain user
  have named := facts.path_eq
  have pipeline := facts.pipeline
  obtain ⟨_, _, stored, -, -, -, -, rfl⟩ := facts.files
  refine ⟨contents.change plain fun name => ?_, newRead, by rw [reads, if_pos rfl],
    fun right => serverPatch_of_pipeline right pipeline⟩
  rw [reads]
  by_cases delta : name = deltaFile
  · rw [delta, named]
    exact .inr (may.delta.spare (tmpDir_prefix_deltaPath ..) (temporary _ (tmpDir_prefix_deltaPath ..)))
  · by_cases sig : name = sigPath basefile
    · rw [sig]
      exact .inr (may.sig.spare (tmpDir_prefix_sigPath _) (temporary _ (tmpDir_prefix_sigPath _)))
    · exact .inl (by rw [if_neg delta, if_neg sig])

/-- The copy of a file with its writes undone. -/
theorem Contents.undone {copied undone : FileSystem} {records : List BufInfo} {content : Bytes}
    (contents : Contents what origin dir client.fs db client.queue.sq client.rel) (user : UserPath path)
    (held : client.fs.read path = some content) (vacant : client.Vacant (tmpPath path))
    (temporary : ∀ name, tmpDir <+: name → client.db name = db name)
    (copies : copyfile path (tmpPath path) client.fs = some copied)
    (undoes : copied.store (tmpPath path) (undoWrites records ((copied.read (tmpPath path)).getD [])) = some undone) :
    Contents what origin dir undone db client.queue.sq client.rel ∧
      undone.read (tmpPath path) = some (undoWrites records content) := by
  obtain ⟨opened, opens, copying⟩ := Option.bind_eq_some_iff.mp copies
  have plain := contents.plain
  have first := plain.store opens
  have second := first.store copying
  have source : opened.read path = some content := by
    rw [plain.unshared.read_store opens, if_neg (user.ne_of_prefix (tmpDir_prefix_tmpPath path)), held]
  have copy : copied.read (tmpPath path) = some content := by
    rw [first.unshared.read_store copying, if_pos rfl, source, Option.getD_some]
  rw [copy, Option.getD_some] at undoes
  refine ⟨contents.change (second.store undoes) fun name => ?_, by rw [second.unshared.read_store undoes, if_pos rfl]⟩
  by_cases same : name = tmpPath path
  · rw [same]
    exact .inr (vacant.spare (tmpDir_prefix_tmpPath path) (temporary _ (tmpDir_prefix_tmpPath path)))
  · refine .inl ?_
    rw [second.unshared.read_store undoes, if_neg same, first.unshared.read_store copying, if_neg same,
      plain.unshared.read_store opens, if_neg same]

/-! ## The rule -/

/-- The contents go along with packing that is true. The versions of the paths are those of `db`, of
which the client may have forgotten some. -/
theorem Contents.packRule (env : Env) (start : Client)
    (temporary : ∀ name, tmpDir <+: name → start.db name = db name)
    (known : ∀ src dst time, start.rel.Related src dst time → start.db dst = some time → db dst = some time) :
    PackRule env (PacksTruly origin env) fun client => client.db = start.db ∧ client.rel = start.rel ∧
      Contents what origin dir client.fs db client.queue.sq client.rel where
  hash := by
    rintro client queue ring ⟨sameDb, sameRel, contents⟩
    exact ⟨sameDb, sameRel, by simpa only [ring] using contents⟩
  one := by
    rintro slot client after bound occupied waits truly one ⟨sameDb, sameRel, contents⟩
    have alive : Undeleted client.queue.sq slot := ⟨bound, occupied, waits.2.2⟩
    obtain ⟨user, version⟩ := contents.pending slot alive waits
    have held : client.fs.read (client.node slot).src = some (what (client.node slot).time) :=
      contents.files _ _ user version
    have carries : (client.node slot).Carries what origin client.fs := contents.nodes slot alive
    have temporary' (name : Path) (inside : tmpDir <+: name) : client.db name = db name := by
      rw [sameDb]
      exact temporary name inside
    have known' : ∀ src dst time, client.rel.Related src dst time → client.db dst = some time → db dst = some time := by
      rw [sameRel, sameDb]
      exact known
    -- packing settles the node
    have packed (change : SyncNode → SyncNode) {fs : FileSystem}
        (contents : Contents what origin dir fs db client.queue.sq client.rel)
        (settled : ¬ (change (client.node slot)).Pending) (time : (change (client.node slot)).time = (client.node slot).time)
        (carries : (change (client.node slot)).Carries what origin fs) :
        Contents what origin dir fs db (client.queue.sq.modify slot change) client.rel := by
      refine contents.modify (fun _ => carries) (fun _ version versioned => ?_) fun _ pends => absurd pends settled
      rw [SyncNode.newVersion?_eq _ versioned, show (change (client.queue.sq.node slot)).time = _ from time]
      exact contents.undelivered slot alive _ waits.newVersion?
    have wholeFile {fs : FileSystem} (newfile : (client.node slot).op = .newfile) {content : Bytes}
        (read : client.fs.read (client.node slot).src = some content) :
        ((client.node slot).packedFile content).Carries what origin fs := by
      obtain rfl := Option.some.inj (held.symm.trans read)
      have small := truly.whole newfile _ held
      refine ⟨?_, ?_, fun _ _ => ⟨rfl, ?_⟩, ?_, ?_⟩
      · simp [SyncNode.packedFile, newfile]
      · simp [SyncNode.packedFile, newfile]
      · simp only [SyncNode.packedFile, Fin.val_zero, ↓reduceIte, UInt64.toNat_ofNat']
        exact Nat.mod_eq_of_lt small
      · simp [SyncNode.packedFile, newfile]
      · simp [SyncNode.packedFile, newfile]
    have asDelta {fs : FileSystem} {deltaFile : Path} {base former : UInt64} {delta : Bytes}
        (prefixed : tmpDir <+: deltaFile) (read : fs.read deltaFile = some delta)
        (patched : serverPatch (what base) delta = .ok (true, what (client.node slot).time)) :
        ((client.node slot).packedDelta deltaFile base former).Carries what origin fs := by
      refine ⟨?_, ?_, ?_, ?_, fun _ => ⟨prefixed, delta, read, patched⟩⟩
      all_goals simp [SyncNode.packedDelta]
    cases one with
    | unopened newfile unrelated missing => exact ⟨sameDb, sameRel, contents⟩
    | @whole content newfile unrelated read =>
      refine ⟨sameDb, sameRel, packed (·.packedFile content) contents ?_ rfl (wholeFile newfile read)⟩
      exact SyncNode.not_pending_of_packed rfl
    | @stale computed _ _ _ content newfile related computing _ _ read =>
      obtain ⟨old, new, delta, facts⟩ := computeDelta_eq_ok computing
      obtain ⟨may, -⟩ := truly.related newfile _ related
      obtain ⟨ready, newRead, -, -⟩ := contents.computing facts may temporary' user
      have agrees := (FileSystem.Agrees.temporary client.fs).computeDelta computing (.refl contents.plain)
      have unchanged := agrees.read_eq _ user
      obtain ⟨_, _, _, _, _, _, _, rfl⟩ := facts.files
      exact ⟨sameDb, sameRel, packed (·.packedFile content) ready (SyncNode.not_pending_of_packed rfl) rfl
        (wholeFile newfile (unchanged ▸ read))⟩
    | @related _ rh deltaFile _ newfile related computing check current =>
      obtain ⟨old, new, delta, facts⟩ := computeDelta_eq_ok computing
      obtain ⟨may, safe⟩ := truly.related newfile _ related
      obtain ⟨ready, newRead, deltaRead, patches⟩ := contents.computing facts may temporary' user
      have prefixed : tmpDir <+: _ := facts.path_eq ▸ tmpDir_prefix_deltaPath ..
      have oldRead := facts.old_of_plain contents.plain (ne_sigPath _)
      obtain ⟨_, _, _, _, _, _, _, rfl⟩ := facts.files
      subst current
      have patched := patches (safe check old new oldRead newRead)
      have linked := RelTable.related_of_relFind related
      have found := known' _ _ _ linked check
      rw [contents.stashed _ _ _ linked found old oldRead, ← Option.some.inj (held.symm.trans newRead)] at patched
      exact ⟨sameDb, sameRel, packed (·.packedDelta deltaFile (client.rel.rq.node rh.loc).time 0) ready
        (SyncNode.not_pending_of_packed rfl) rfl (asDelta prefixed deltaRead patched)⟩
    | writes write sends =>
      refine ⟨sameDb, sameRel, packed (fun sn => { sn with op := .write, isPacked := true }) contents
        (SyncNode.not_pending_of_packed rfl) rfl ?_⟩
      obtain ⟨began, records, buffered, appended, final, -⟩ := carries.write write
      have arrives := truly.writes write sends
      rw [buffered, Option.getD_some] at arrives
      exact ⟨by simp, by simp, by simp, fun _ => ⟨began, records, buffered, appended, final, fun _ => arrives⟩, by simp⟩
    | @rebuilt _ _ undone deltaFile write rebuilds copies undoes computing =>
      obtain ⟨began, records, buffered, -⟩ := carries.write write
      obtain ⟨vacant, may, restores⟩ := truly.rebuilt write rebuilds
      obtain ⟨restored, safe⟩ := restores _ held
      obtain ⟨copy, copyRead⟩ := contents.undone user held vacant temporary' copies undoes
      obtain ⟨old, new, delta, facts⟩ := computeDelta_eq_ok computing
      have may' : Client.MayCompute env (client.node slot).src { client with fs := undone } :=
        ⟨⟨may.sig.avoids, may.sig.stash⟩, ⟨may.delta.avoids, may.delta.stash⟩⟩
      obtain ⟨ready, newRead, deltaRead, patches⟩ := Contents.computing copy facts may' temporary' user
      have named : deltaFile = deltaPath env client.deltas (client.node slot).src := facts.path_eq
      have prefixed : tmpDir <+: deltaFile := named ▸ tmpDir_prefix_deltaPath ..
      have notCopy : deltaFile ≠ tmpPath (client.node slot).src := by
        rw [named]
        exact deltaPath_ne_tmpPath _ _ _
      have notUser := user.ne_of_prefix (tmpDir_prefix_tmpPath (client.node slot).src)
      have oldIs : old = what (client.node slot).baseVer :=
        (Option.some.inj ((facts.old_of_plain copy.plain (tmpPath_ne_sigPath _)).symm.trans copyRead)).trans
          (restored.trans began.symm)
      have newIs : new = what (client.node slot).time :=
        Option.some.inj (newRead.symm.trans (copy.files _ _ user version))
      obtain ⟨_, _, stored, _, _, _, _, rfl⟩ := facts.files
      have removed := ready.change (ready.plain.remove (tmpPath (client.node slot).src)) fun name => by
        rw [FileSystem.read_remove]
        by_cases same : name = tmpPath (client.node slot).src
        · rw [same]
          exact .inr (vacant.spare (tmpDir_prefix_tmpPath _) (temporary' _ (tmpDir_prefix_tmpPath _)))
        · exact .inl (if_neg same)
      have deltaKept : (stored.remove (tmpPath (client.node slot).src)).read deltaFile = some delta := by
        rw [FileSystem.read_remove, if_neg notCopy]
        exact deltaRead
      have patched := patches (oldIs ▸ newIs ▸ began.symm ▸ safe)
      rw [oldIs, newIs] at patched
      exact ⟨sameDb, sameRel, packed (fun sn => sn.packedDelta deltaFile sn.baseVer sn.baseVer) removed
        (SyncNode.not_pending_of_packed rfl) rfl (asDelta prefixed deltaKept patched)⟩

end DeltaCFS
