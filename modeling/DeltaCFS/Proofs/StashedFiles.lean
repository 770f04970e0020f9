import DeltaCFS.Proofs.Client.Inodes
import DeltaCFS.Proofs.RelationGraph

/-! # What packing writes does to the files `xmp_unlink` moved away

`create_tmp` and `rename_tmp` both put a file into the temporary directory under the last component of
its path, and the names of signatures and deltas are made of that component too. Packing writes as a
delta creates, overwrites and removes files under these names, and a file that was moved there may have
any of them, or share its inode with one.
-/

namespace DeltaCFS

variable {env : Env} {client after : Client} {slot : ℕ} {name : Path} {content : Bytes}

/-! ## The files of one packing -/

/-- What the temporary copy of a file is, after the writes are undone: the copy is emptied before the
file is read. -/
def rebuiltOld (client : Client) (slot : ℕ) : Bytes :=
  let src := (client.node slot).src
  undoWrites ((client.node slot).bn.getD [])
    (if client.fs.Same (tmpPath src) src then [] else (client.fs.read src).getD [])

/-- What is read of the copy: opening the signature file may empty it. -/
def signedOld (client : Client) (slot : ℕ) : Bytes :=
  let src := (client.node slot).src
  if client.fs.Same (sigPath src) (tmpPath src) then [] else rebuiltOld client slot

/-- What is written to the signature file. -/
def rebuiltSig (env : Env) (client : Client) (slot : ℕ) : Bytes :=
  (env.signature client.deltas (signedOld client slot)).getD []

/-- What is read of the file itself when its delta is computed. -/
def rebuiltNew (env : Env) (client : Client) (slot : ℕ) : Bytes :=
  let src := (client.node slot).src
  if client.fs.Same (deltaPath env client.deltas src) src then []
  else if client.fs.Same (sigPath src) src then rebuiltSig env client slot
  else if client.fs.Same (tmpPath src) src then rebuiltOld client slot
  else (client.fs.read src).getD []

/-- The bytes are those of the delta that packing the writes of the node as a delta computes. -/
def IsRebuiltDelta (env : Env) (client : Client) (slot : ℕ) (content : Bytes) : Prop :=
  env.pipeline client.deltas (signedOld client slot) (rebuiltNew env client slot) = .ok (some content)

/-! ## What is left of the names -/

namespace DeltaComputed

variable {originfile newfile basefile path : Path} {old new delta : Bytes}

/-- The file of the delta is open and the signature file is gone. -/
theorem created (computed : DeltaComputed env originfile newfile basefile client path after old new delta)
    (allocated : client.fs.Allocated) :
    ∃ (created : FileSystem) (sig : Bytes), env.signature client.deltas old = some sig ∧ created.Allocated ∧
      created.read newfile = some new ∧ created.store path delta = some after.fs ∧
      (∀ name, created.Same path name ↔ name ≠ sigPath basefile ∧ client.fs.Same path name) ∧
      ∀ name, created.read name =
        if name = sigPath basefile then none
        else if client.fs.Same path name then some []
        else if client.fs.Same (sigPath basefile) name then some sig
        else client.fs.read name := by
  have apart : path ≠ sigPath basefile := by
    rw [computed.path_eq]
    exact deltaPath_ne_sigPath _ _ _ _
  obtain ⟨opened, created, stored, ⟨sig, signed, sigOpened⟩, deltaOpened, newRead, deltaStored, rfl⟩ := computed.files
  have opens := allocated.store sigOpened
  have removes := opens.remove (sigPath basefile)
  have sameRemoved (name : Path) : (opened.remove (sigPath basefile)).Same path name ↔
      name ≠ sigPath basefile ∧ client.fs.Same path name := by
    by_cases sig : name = sigPath basefile
    · obtain ⟨⟨ino, found, -⟩, -⟩ := FileSystem.entry_store sigOpened
      have gone : (opened.remove (sigPath basefile)).entry (sigPath basefile) = none := by
        simp [FileSystem.remove, found, FileSystem.entry_erase]
      subst sig
      simp [FileSystem.Same, gone, apart]
    · rw [FileSystem.same_remove apart sig, FileSystem.same_store allocated sigOpened]
      exact ⟨fun same => ⟨sig, same⟩, fun same => same.2⟩
  refine ⟨created, sig, signed, removes.store deltaOpened, newRead, deltaStored, fun name => ?_, fun name => ?_⟩
  · rw [FileSystem.same_store removes deltaOpened, sameRemoved]
  · rw [FileSystem.read_store removes deltaOpened, FileSystem.read_remove,
      FileSystem.read_store allocated sigOpened]
    by_cases signs : name = sigPath basefile
    · rw [if_neg fun same => ((sameRemoved name).mp same).1 signs, if_pos signs, if_pos signs]
    · by_cases hit : client.fs.Same path name
      · rw [if_pos ((sameRemoved name).mpr ⟨signs, hit⟩), if_neg signs, if_pos hit]
      · rw [if_neg fun same => hit ((sameRemoved name).mp same).2, if_neg signs, if_neg signs, if_neg hit]

/-- The delta and the signature file are all that changes. -/
theorem read_eq (computed : DeltaComputed env originfile newfile basefile client path after old new delta)
    (allocated : client.fs.Allocated) (name : Path) :
    after.fs.read name =
      if name = sigPath basefile then none
      else if client.fs.Same path name then some delta
      else if client.fs.Same (sigPath basefile) name then some ((env.signature client.deltas old).getD [])
      else client.fs.read name := by
  obtain ⟨created, sig, signed, good, -, stored, same, reads⟩ := computed.created allocated
  rw [FileSystem.read_store good stored, reads, signed, Option.getD_some]
  by_cases signs : name = sigPath basefile
  · rw [if_neg fun hit => ((same name).mp hit).1 signs, if_pos signs, if_pos signs]
  · by_cases hit : client.fs.Same path name
    · rw [if_pos ((same name).mpr ⟨signs, hit⟩), if_neg signs, if_pos hit]
    · rw [if_neg fun other => hit ((same name).mp other).2, if_neg signs, if_neg signs, if_neg hit, if_neg hit]

theorem old_eq (computed : DeltaComputed env originfile newfile basefile client path after old new delta)
    (allocated : client.fs.Allocated) :
    old = if client.fs.Same (sigPath basefile) originfile then [] else (client.fs.read originfile).getD [] := by
  obtain ⟨opened, opens, oldRead⟩ := computed.old_read
  rw [FileSystem.read_store allocated opens] at oldRead
  split at oldRead
  · next hit => rw [if_pos hit, ← Option.some.inj oldRead]
  · next miss => rw [if_neg miss, oldRead, Option.getD_some]

theorem new_eq (computed : DeltaComputed env originfile newfile basefile client path after old new delta)
    (allocated : client.fs.Allocated) :
    new = if client.fs.Same path newfile then []
      else if client.fs.Same (sigPath basefile) newfile then (env.signature client.deltas old).getD []
      else (client.fs.read newfile).getD [] := by
  obtain ⟨created, sig, signed, -, newRead, -, -, reads⟩ := computed.created allocated
  rw [reads] at newRead
  rw [signed, Option.getD_some]
  split at newRead
  · exact absurd newRead (by simp)
  · split at newRead
    · next hit => rw [if_pos hit, ← Option.some.inj newRead]
    · next miss =>
      rw [if_neg miss]
      split at newRead
      · next hit => rw [if_pos hit, ← Option.some.inj newRead]
      · next miss' => rw [if_neg miss', newRead, Option.getD_some]

end DeltaComputed

/-- The copy of the file with its writes undone. -/
theorem undone_eq {copied undone : FileSystem} (allocated : client.fs.Allocated)
    (copies : copyfile (client.node slot).src (tmpPath (client.node slot).src) client.fs = some copied)
    (undoes : copied.store (tmpPath (client.node slot).src) (undoWrites ((client.node slot).bn.getD [])
      ((copied.read (tmpPath (client.node slot).src)).getD [])) = some undone) :
    undone.Allocated ∧ (∀ name other, undone.Same name other ↔ client.fs.Same name other) ∧
      ∀ name, undone.read name =
        if client.fs.Same (tmpPath (client.node slot).src) name then some (rebuiltOld client slot)
        else client.fs.read name := by
  obtain ⟨opened, opens, copying⟩ := Option.bind_eq_some_iff.mp copies
  have first := allocated.store opens
  have second := first.store copying
  have sameOpened (name other : Path) : opened.Same name other ↔ client.fs.Same name other :=
    FileSystem.same_store allocated opens
  have sameCopied (name other : Path) : copied.Same name other ↔ client.fs.Same name other :=
    (FileSystem.same_store first copying).trans (sameOpened name other)
  refine ⟨second.store undoes, fun name other => (FileSystem.same_store second undoes).trans (sameCopied name other),
    fun name => ?_⟩
  have held : copied.read (tmpPath (client.node slot).src) = some ((opened.read (client.node slot).src).getD []) := by
    rw [FileSystem.read_store first copying, if_pos (.inl rfl)]
  have source : (opened.read (client.node slot).src).getD [] =
      if client.fs.Same (tmpPath (client.node slot).src) (client.node slot).src then []
      else (client.fs.read (client.node slot).src).getD [] := by
    rw [FileSystem.read_store allocated opens]
    split
    · rfl
    · rfl
  by_cases hit : client.fs.Same (tmpPath (client.node slot).src) name
  · rw [FileSystem.read_store second undoes, if_pos ((sameCopied ..).mpr hit), if_pos hit, held, Option.getD_some, source]
    rfl
  · rw [FileSystem.read_store second undoes, if_neg fun also => hit ((sameCopied ..).mp also),
      FileSystem.read_store first copying, if_neg fun also => hit ((sameOpened ..).mp also),
      FileSystem.read_store allocated opens, if_neg hit, if_neg hit]

/-- What packing writes as a delta leaves of every name. -/
theorem read_rebuilt (allocated : client.fs.Allocated) (write : (client.node slot).op = .write)
    (rebuilds : sendsWrite ((client.node slot).bn.getD []) (client.fs.getFileSize (client.node slot).src) = false)
    (packed : packWrite env slot client = .ok after) :
    ∃ delta, IsRebuiltDelta env client slot delta ∧ ∀ name, after.fs.read name =
      if name = tmpPath (client.node slot).src ∨ name = sigPath (client.node slot).src then none
      else if client.fs.Same (deltaPath env client.deltas (client.node slot).src) name then some delta
      else if client.fs.Same (sigPath (client.node slot).src) name then some (rebuiltSig env client slot)
      else if client.fs.Same (tmpPath (client.node slot).src) name then some (rebuiltOld client slot)
      else client.fs.read name := by
  cases packWrite_eq_ok write packed with
  | unopened newfile => exact absurd (write.symm.trans newfile) (by simp)
  | whole newfile => exact absurd (write.symm.trans newfile) (by simp)
  | stale newfile => exact absurd (write.symm.trans newfile) (by simp)
  | related newfile => exact absurd (write.symm.trans newfile) (by simp)
  | writes _ sends => exact absurd (sends.symm.trans rebuilds) (by simp)
  | rebuilt _ _ copies undoes computing =>
    obtain ⟨good, same, reads⟩ := undone_eq allocated copies undoes
    obtain ⟨old, new, delta, facts⟩ := computeDelta_eq_ok computing
    have oldIs : old = signedOld client slot := by
      rw [facts.old_eq good, signedOld]
      simp only [same, reads, if_pos (show client.fs.Same (tmpPath (client.node slot).src) _ from .inl rfl), Option.getD_some]
    have newIs : new = rebuiltNew env client slot := by
      rw [facts.new_eq good, facts.path_eq, rebuiltNew, oldIs]
      simp only [same, reads]
      split
      · rfl
      · split
        · rfl
        · split
          · rfl
          · rfl
    have pipeline := facts.pipeline
    rw [oldIs, newIs] at pipeline
    refine ⟨delta, pipeline, fun name => ?_⟩
    have left := facts.read_eq good name
    rw [facts.path_eq, oldIs] at left
    simp only [same, reads] at left
    rw [FileSystem.read_remove]
    by_cases copy : name = tmpPath (client.node slot).src
    · rw [if_pos copy, if_pos (.inl copy)]
    · rw [if_neg copy]
      simp only [copy, false_or]
      exact left

/-! ## Stashed files -/

/-- A live relation leads to the name, which lies in the temporary directory. -/
def Client.Stashed (client : Client) (name : Path) : Prop :=
  tmpDir <+: name ∧ ∃ r, client.rel.Live r ∧ (client.rel.rq.node r).dst = name

/-- Packing the writes of the node as a delta leaves a file with this content alone: it has neither the
name of the copy nor that of the signature, which are removed, and what is written to its inode through
the names of the packing, if anything is, are the bytes it has. -/
structure Client.Spares (env : Env) (client : Client) (slot : ℕ) (name : Path) (content : Bytes) : Prop where
  ne_copy : name ≠ tmpPath (client.node slot).src
  ne_sig : name ≠ sigPath (client.node slot).src
  delta : client.fs.Same (deltaPath env client.deltas (client.node slot).src) name → IsRebuiltDelta env client slot content
  sig : client.fs.Same (sigPath (client.node slot).src) name →
    client.fs.Same (deltaPath env client.deltas (client.node slot).src) name ∨ content = rebuiltSig env client slot
  copy : client.fs.Same (tmpPath (client.node slot).src) name →
    client.fs.Same (deltaPath env client.deltas (client.node slot).src) name ∨
      client.fs.Same (sigPath (client.node slot).src) name ∨ content = rebuiltOld client slot

/-- The file of one name after its neighbour was packed. -/
theorem Client.spares_iff (allocated : client.fs.Allocated) (write : (client.node slot).op = .write)
    (rebuilds : sendsWrite ((client.node slot).bn.getD []) (client.fs.getFileSize (client.node slot).src) = false)
    (packed : packWrite env slot client = .ok after) (held : client.fs.read name = some content) :
    after.fs.read name = some content ↔ client.Spares env slot name content := by
  obtain ⟨delta, pipeline, reads⟩ := read_rebuilt allocated write rebuilds packed
  have isDelta : IsRebuiltDelta env client slot content ↔ delta = content := by
    rw [IsRebuiltDelta, show _ = _ from pipeline, Except.ok.injEq, Option.some.injEq]
  rw [reads name]
  constructor
  · intro kept
    split at kept
    · exact absurd kept (by simp)
    · next apart =>
      obtain ⟨copy, sig⟩ := not_or.mp apart
      refine ⟨copy, sig, fun hit => ?_, fun hit => ?_, fun hit => ?_⟩
      · rw [if_pos hit] at kept
        exact isDelta.mpr (Option.some.inj kept)
      · refine or_iff_not_imp_left.mpr fun miss => ?_
        rw [if_neg miss, if_pos hit] at kept
        exact (Option.some.inj kept).symm
      · refine or_iff_not_imp_left.mpr fun miss => or_iff_not_imp_left.mpr fun miss' => ?_
        rw [if_neg miss, if_neg miss', if_pos hit] at kept
        exact (Option.some.inj kept).symm
  · intro spared
    rw [if_neg (not_or.mpr ⟨spared.ne_copy, spared.ne_sig⟩)]
    split
    · next hit => rw [isDelta.mp (spared.delta hit)]
    · next miss =>
      split
      · next hit => rw [(spared.sig hit).resolve_left miss]
      · next miss' =>
        split
        · next hit => rw [((spared.copy hit).resolve_left miss).resolve_left miss']
        · exact held

/-- `/f` is deleted, and a file of the same name elsewhere, which the server has, is overwritten. -/
def deletesAndOverwrites (kept : Path) : List Event :=
  [⟨.plain, .mkdir [47, 100] 493⟩, ⟨.plain, .mknod [47, 100, 47, 102] 33188 0⟩,
    ⟨.plain, .write [47, 100, 47, 102] 0 [1, 2]⟩, ⟨.plain, .syncExecute⟩, ⟨.plain, .syncExecute⟩,
    ⟨.plain, .mknod kept 33188 0⟩, ⟨.plain, .write kept 0 [9]⟩, ⟨.plain, .unlink kept⟩,
    ⟨.plain, .write [47, 100, 47, 102] 0 [3, 4]⟩]

end DeltaCFS
