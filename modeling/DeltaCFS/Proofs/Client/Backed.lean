import DeltaCFS.Proofs.PendingWrites
import DeltaCFS.Proofs.Client.Following
import DeltaCFS.Proofs.Client.Inodes
import DeltaCFS.Proofs.Client.Waiting

/-! # What the tables of the client refer to

Buffered nodes wait for files that exist, the files of the user have versions, and so do the names in
the temporary directory that relations lead to. The calls on regular files keep this when they are
granted and neither `xmp_rename` nor `xmp_unlink` moves a file onto another name of its own inode:
such a rename does nothing, but the version is gone.
-/

namespace DeltaCFS

variable {env : Env} {client after : Client} {path other source target src dst : Path} {res : ℤ} {fs fs' : FileSystem}
  {time : UInt64}

/-! ## System calls -/

theorem syscall_granted {call : FileSystem → Except Errno FileSystem} {done : ℤ} (granted : env.callFails = none)
    (ok : call client.fs = .ok fs) : client.syscall env call done = (done, { client with fs := fs }) := by
  simp only [Client.syscall, granted, ok]

/-- A rename that is granted and possible does not fail. -/
theorem xmpRename_granted (handled : xmpRename env source target client = .ok (res, after))
    (granted : env.callFails = none) (moves : ∀ version synced, renameSync env source target version client.newVersion
      { client with recfsCnt := client.recfsCnt + 1, db := Function.update client.db source none } = .ok synced →
      ∃ fs, synced.fs.rename source target = .ok fs) : 0 ≤ res := by
  simp only [xmpRename, increaseRecfsCnt, recfsDelTimestamp, recfsGetTimestamp, Except.bind_eq_ok] at handled
  obtain ⟨version, -, synced, syncing, related, relating, handled⟩ := handled
  obtain ⟨rel, -, rfl⟩ := relEnqueue_eq_ok relating
  obtain ⟨fs, moved⟩ := moves version synced syncing
  have called := Except.ok.inj handled
  rw [@syscall_granted env _ fs _ _ granted (by cases relFind target client.rel <;> exact moved)] at called
  obtain ⟨rfl, -⟩ := Prod.mk.inj called
  exact le_rfl

namespace FileSystem

/-- Removing a name makes no two names the same. -/
theorem Same.of_remove {name : Path} (same : (fs.remove name).Same path other) (apart : path ≠ name) :
    fs.Same path other := by
  refine same.imp_right fun ⟨present, equal⟩ => ?_
  rw [entry_remove fs name path apart] at present equal
  refine ⟨present, ?_⟩
  by_cases here : other = name
  · subst here
    simp only [remove] at equal
    split at equal
    · rw [entry_erase, if_pos rfl] at equal
      exact absurd equal present
    · exact equal
  · rwa [entry_remove fs name other here] at equal

/-- What happens in the temporary directory gives no file of the user another name. -/
theorem TemporaryInvariant.apart (user : UserPath path) :
    TemporaryInvariant fun fs => fs.Allocated ∧ ¬ fs.Same path other where
  store := by
    intro fs fs' name content _ stored ⟨allocated, apart⟩
    exact ⟨allocated.store stored, fun same => apart ((same_store allocated stored).mp same)⟩
  remove := by
    intro fs name temporary ⟨allocated, apart⟩
    exact ⟨allocated.remove name, fun same => apart (same.of_remove (user.ne_of_prefix temporary))⟩

/-- A file gets a name that is not one of its own. -/
theorem NoDir.rename (noDir : fs.NoDir) (regular : fs.Regular source) (apart : ¬ fs.Same source target) :
    ∃ ino, fs.entry source = some (.file ino) ∧ fs.rename source target = .ok (fs.move source target ino) := by
  obtain ⟨ino, found⟩ := regular
  refine ⟨ino, found, ?_⟩
  rcases noDir.entry_cases target with absent | ⟨inode, also⟩
  · simp only [FileSystem.rename, found, absent]
  · have different : ino ≠ inode := by
      rintro rfl
      exact apart (.inr ⟨by simp [found], found.trans also.symm⟩)
    simp only [FileSystem.rename, found, also, different, ↓reduceIte]

theorem regular_move {ino : ℕ} :
    (fs.move source target ino).Regular path ↔ path = target ∨ path ≠ source ∧ fs.Regular path := by
  simp only [Regular, entry_move]
  by_cases here : path = target
  · simp [here]
  · by_cases there : path = source
    · simp [there]
    · simp [here, there]

namespace SameNames

theorem same_iff (names : fs.SameNames fs') (user : UserPath path) (user' : UserPath other) :
    fs'.Same path other ↔ fs.Same path other := by
  simp only [Same, names.entry_eq path user, names.entry_eq other user']

theorem truncate {size : ℕ} (noDir : fs.NoDir) (truncated : fs.truncate path size = .ok fs') : fs.SameNames fs' := by
  simp only [FileSystem.truncate] at truncated
  split at truncated
  · exact absurd truncated (by simp)
  · exact absurd truncated (by simp)
  · exact Except.ok.inj truncated ▸ ⟨noDir, fun _ _ => rfl⟩

theorem pwriteAt {offset : ℕ} {data : Bytes} (noDir : fs.NoDir) (written : fs.pwriteAt path offset data = .ok fs') :
    fs.SameNames fs' := by
  simp only [FileSystem.pwriteAt] at written
  split at written
  · exact Except.ok.inj written ▸ ⟨noDir, fun _ _ => rfl⟩
  · exact absurd written (by simp)

end SameNames

theorem regular_insert {ino : ℕ} : (fs.insert target (.file ino)).Regular path ↔ path = target ∨ fs.Regular path := by
  simp only [Regular, entry_insert]
  by_cases here : path = target
  · simp [here]
  · simp [here]

end FileSystem

/-! ## The invariant -/

/-- Entries are for files of the user that exist, and these and the targets of relations in the
temporary directory have versions. -/
structure Backed (client : Client) : Prop where
  formed : client.WellFormed
  table : PendingTable client.queue
  allocated : client.fs.Allocated
  noDir : client.fs.NoDir
  waits : ∀ path, client.queue.Waits path → UserPath path ∧ client.fs.Regular path
  known : ∀ path, UserPath path → client.fs.Regular path → (client.db path).isSome
  stashed : ∀ src dst time, client.rel.Related src dst time → tmpDir <+: dst → (client.db dst).isSome

namespace Backed

theorem pending (backed : Backed client) : PendingFiles client :=
  ⟨backed.table.tidy, backed.noDir, fun sh member => backed.waits sh.path ⟨sh, member, rfl⟩⟩

/-- A relation to a file leads to a version. -/
theorem version_of_related (backed : Backed client) (related : client.rel.Related src dst time)
    (regular : client.fs.Regular dst) : (client.db dst).isSome := by
  by_cases temporary : tmpDir <+: dst
  · exact backed.stashed src dst time related temporary
  · exact backed.known dst temporary regular

/-- No pending node has lost its file. -/
theorem not_stuck (backed : Backed client) (path : Path) : ¬ Stuck client path := by
  rintro ⟨sh, member, rfl, -, -, missing⟩
  exact missing (backed.waits sh.path ⟨sh, member, rfl⟩).2

theorem initial (memory : Memory) (dirSize : Path → ℕ) : Backed (Client.initial memory dirSize) where
  formed := .initial memory dirSize
  table := .initial memory dirSize
  allocated := fun _ inside => absurd inside List.not_mem_nil
  noDir := by
    intro path found
    simp [Client.initial, FileSystem.entry] at found
  waits := by
    rintro path ⟨sh, member, -⟩
    exact absurd member List.not_mem_nil
  known := by
    rintro path - ⟨ino, found⟩
    simp [Client.initial, FileSystem.entry] at found
  stashed := fun _ _ _ related => absurd related (RelTable.Sane.not_related_initial memory.relNode)

/-- What one call has to leave: the files that were there, except those that are `gone`, with their
versions. -/
structure Keeps (gone : Path → Prop) (client after : Client) : Prop where
  noDir : after.fs.NoDir
  files : ∀ path, UserPath path → after.fs.Regular path → (after.db path).isSome ∨ client.fs.Regular path ∧ ¬ gone path
  kept : ∀ path, UserPath path → client.fs.Regular path → ¬ gone path → after.fs.Regular path
  waits : ∀ path, after.queue.Waits path →
    client.queue.Waits path ∧ ¬ gone path ∨ UserPath path ∧ after.fs.Regular path
  versions : ∀ path, (client.db path).isSome → ¬ gone path → (after.db path).isSome
  relations : ∀ src dst time, after.rel.Related src dst time →
    client.rel.Related src dst time ∨ (tmpDir <+: dst → (after.db dst).isSome)

theorem of_keeps {gone : Path → Prop} (backed : Backed client) (keeps : Keeps gone client after)
    (user : ∀ path, gone path → UserPath path) (formed : after.WellFormed) (table : PendingTable after.queue)
    (allocated : after.fs.Allocated) : Backed after where
  formed := formed
  table := table
  allocated := allocated
  noDir := keeps.noDir
  waits := by
    intro path waits
    rcases keeps.waits path waits with ⟨old, here⟩ | new
    · obtain ⟨own, regular⟩ := backed.waits path old
      exact ⟨own, keeps.kept path own regular here⟩
    · exact new
  known := by
    intro path own regular
    rcases keeps.files path own regular with new | ⟨old, here⟩
    · exact new
    · exact keeps.versions path (backed.known path own old) here
  stashed := by
    intro src dst time related temporary
    rcases keeps.relations src dst time related with old | new
    · have here : ¬ gone dst := fun gone => user dst gone temporary
      exact keeps.versions dst (backed.stashed src dst time old temporary) here
    · exact new temporary

theorem isSome_update {db : Path → Option UInt64} {version : UInt64} (known : (db other).isSome) :
    (Function.update db path (some version) other).isSome := by
  simp only [Function.update_apply]
  split
  · rfl
  · exact known

/-- A call after which the names of the user stand for the files they stood for. -/
theorem Keeps.still (names : client.fs.SameNames after.fs)
    (waits : ∀ path, after.queue.Waits path → client.queue.Waits path ∨ UserPath path ∧ client.fs.Regular path)
    (versions : ∀ path, (client.db path).isSome → (after.db path).isSome)
    (relations : ∀ src dst time, after.rel.Related src dst time → client.rel.Related src dst time) :
    Keeps (fun _ => False) client after where
  noDir := names.noDir
  files := fun path user regular => .inr ⟨(names.regular_iff user).mp regular, id⟩
  kept := fun path user regular _ => (names.regular_iff user).mpr regular
  waits := by
    intro path waiting
    rcases waits path waiting with old | ⟨user, regular⟩
    · exact .inl ⟨old, id⟩
    · exact .inr ⟨user, (names.regular_iff user).mpr regular⟩
  versions := fun path known _ => versions path known
  relations := fun src dst time related => .inl (relations src dst time related)

theorem mknod {mode rdev : ℕ} (backed : Backed client) (user : UserPath path)
    (handled : xmpMknod env path mode rdev client = .ok (res, after)) : Keeps (fun _ => False) client after := by
  obtain ⟨stored, rfl, ⟨-, rfl⟩ | ⟨fs, packed, queue, opened, packing, queued, -, rfl⟩⟩ := xmpMknod_eq_ok handled
  · exact .still (.refl backed.noDir) (fun _ => .inl) (fun _ => isSome_update) fun _ _ _ => id
  · simp only [FileSystem.openExcl] at opened
    split at opened
    · exact absurd opened (by simp)
    · obtain rfl := Except.ok.inj opened
      have tidy := backed.formed.queue.tidy
      have names := (FileSystem.SameNames.temporary _).packPath packing tidy (.refl (backed.noDir.create path []))
      obtain ⟨db, rel, -⟩ := syncPackWritePath_frame packing tidy
      have regular (other : Path) (user : UserPath other) :
          packed.fs.Regular other ↔ other = path ∨ client.fs.Regular other :=
        (names.regular_iff user).trans FileSystem.regular_insert
      refine ⟨names.noDir, fun other own there => ?_, fun other own there _ => ?_, fun other waits => ?_,
        fun other known _ => ?_, fun _ _ _ related => .inl (rel ▸ related)⟩
      · rcases (regular other own).mp there with rfl | old
        · exact .inl (by simp [db])
        · exact .inr ⟨old, id⟩
      · exact (regular other own).mpr (.inr there)
      · rcases waits.of_enqueue queued with old | ⟨-, rfl⟩
        · exact .inl ⟨(old.of_packPath packing tidy).1, id⟩
        · exact .inr ⟨user, (regular other user).mpr (.inl rfl)⟩
      · simp only [db]
        exact isSome_update known

theorem unlink (backed : Backed client) (user : UserPath path) (regular : client.fs.Regular path)
    (apart : ¬ client.fs.Same path (tmpPath path)) (handled : xmpUnlink env path client = .ok (res, after)) :
    Keeps (· = path) client after := by
  obtain ⟨version, packed, rel, -, packing, rfl, outcome⟩ := xmpUnlink_eq_ok handled
  have tidy := backed.formed.queue.tidy
  have names := (FileSystem.SameNames.temporary _).packPath packing tidy (.refl backed.noDir)
  obtain ⟨-, apart'⟩ := (FileSystem.TemporaryInvariant.apart user).packPath packing tidy ⟨backed.allocated, apart⟩
  obtain ⟨db, same, -⟩ := syncPackWritePath_frame packing tidy
  obtain ⟨sane, fewer⟩ := backed.formed.rel.relDeleteDst path
  obtain ⟨sane', fewer'⟩ := sane.relDeleteSrc path
  rcases outcome with ⟨-, rfl⟩ | ⟨fs, queue, related, moved, queued, entering, -, rfl⟩
  · refine ⟨names.noDir, fun other own there => ?_, fun other own there _ => (names.regular_iff own).mpr there,
      fun other (waits : packed.queue.Waits other) => .inl (waits.of_packPath packing tidy),
      fun other known _ => by rwa [db],
      fun _ _ _ found => .inl ?_⟩
    · exact .inl (by simpa only [db] using backed.known other own ((names.regular_iff own).mp there))
    · simp only [same] at found
      exact (fewer (fewer' found).1).1
  · obtain ⟨ino, -, rename⟩ := names.noDir.rename ((names.regular_iff user).mpr regular) apart'
    obtain rfl := Except.ok.inj (moved.symm.trans rename)
    have left (other : Path) (own : UserPath other) :
        (packed.fs.move path (tmpPath path) ino).Regular other ↔ other ≠ path ∧ client.fs.Regular other := by
      rw [FileSystem.regular_move, names.regular_iff own]
      exact or_iff_right (own.ne_of_prefix (tmpDir_prefix_tmpPath path))
    refine ⟨names.noDir.move _ _ _, fun other own there => ?_, fun other own there here => ?_, fun other waits => ?_,
      fun other known here => ?_, fun src dst time found => ?_⟩
    · obtain ⟨here, old⟩ := (left other own).mp there
      exact .inr ⟨old, here⟩
    · exact (left other own).mpr ⟨here, there⟩
    · exact .inl ((waits.of_enqueue_plain queued rfl).of_packPath packing tidy)
    · simp only [Function.update_of_ne here, db]
      exact isSome_update known
    · rw [same] at entering
      rcases (sane'.relEnqueue entering).2 found with ⟨-, rfl, -⟩ | ⟨-, old⟩
      · have different := (user.ne_of_prefix (tmpDir_prefix_tmpPath path)).symm
        exact .inr fun _ => by simp [Function.update_of_ne different]
      · exact .inl (fewer (fewer' old).1).1

/-- A granted rename moves the file. -/
theorem rename (backed : Backed client) (granted : env.callFails = none) (user : UserPath source)
    (user' : UserPath target) (regular : client.fs.Regular source) (apart : ¬ client.fs.Same source target)
    (handled : xmpRename env source target client = .ok (res, after)) : Keeps (· = source) client after := by
  have tidy := backed.formed.queue.tidy
  have moves (version : UInt64) (synced : Client)
      (syncing : renameSync env source target version client.newVersion { client with
        recfsCnt := client.recfsCnt + 1, db := Function.update client.db source none } = .ok synced) :
      client.fs.SameNames synced.fs ∧ ∃ ino, synced.fs.rename source target = .ok (synced.fs.move source target ino) := by
    have names := (FileSystem.SameNames.temporary _).renameSync syncing tidy (.refl backed.noDir)
    obtain ⟨ino, -, moved⟩ := names.noDir.rename ((names.regular_iff user).mpr regular)
      fun shared => apart ((names.same_iff user user').mp shared)
    exact ⟨names, ino, moved⟩
  have done := xmpRename_granted handled granted fun version synced syncing => (moves version synced syncing).2.imp'
    _ fun _ moved => moved
  obtain ⟨version, synced, rel, -, syncing, entering, outcome⟩ := xmpRename_eq_ok handled
  obtain ⟨same, -, db⟩ := renameSync_frame syncing backed.formed.queue
  obtain ⟨sane, fewer⟩ := backed.formed.rel.replaced target same
  obtain ⟨names, ino, moves⟩ := moves version synced syncing
  rcases outcome with ⟨failed, -⟩ | ⟨fs, moved, -, rfl⟩
  · omega
  · obtain rfl := Except.ok.inj (moved.symm.trans moves)
    have left (other : Path) (own : UserPath other) :
        (synced.fs.move source target ino).Regular other ↔ other = target ∨ other ≠ source ∧ client.fs.Regular other := by
      rw [FileSystem.regular_move, names.regular_iff own]
    have stays (other : Path) (known : other = target ∨ (client.db other).isSome ∧ other ≠ source) :
        (synced.db other).isSome := by
      rw [db]
      rcases known with rfl | ⟨known, here⟩
      · simp
      · exact isSome_update (by simpa only [Function.update_of_ne here] using known)
    refine ⟨names.noDir.move _ _ _, fun other own there => ?_, fun other own there here => ?_,
      fun other (waits : synced.queue.Waits other) => ?_, fun other known here => ?_, fun src dst time found => ?_⟩
    · rcases (left other own).mp there with target | ⟨here, old⟩
      · exact .inl (stays other (.inl target))
      · exact .inr ⟨old, here⟩
    · exact (left other own).mpr (.inr ⟨here, there⟩)
    · exact .inl (waits.of_renameSync syncing backed.formed.queue :)
    · exact stays other (.inr ⟨known, here⟩)
    · rcases (sane.relEnqueue entering).2 found with ⟨-, rfl, -⟩ | ⟨-, old⟩
      · exact .inr fun _ => stays dst (.inl rfl)
      · exact .inl (fewer old).1

theorem link (backed : Backed client) (handled : xmpLink env source target client = .ok (res, after)) :
    Keeps (fun _ => False) client after := by
  have tidy := backed.formed.queue.tidy
  obtain ⟨version, synced, queue, -, syncing, queued, outcome⟩ := xmpLink_eq_ok handled
  have names := (FileSystem.SameNames.temporary _).linkSync syncing tidy (.refl backed.noDir)
  obtain ⟨same, -, db⟩ := linkSync_frame syncing backed.formed.queue
  have waits (other : Path) (waits : queue.Waits other) : client.queue.Waits other :=
    (waits.of_enqueue_plain queued rfl).of_linkSync syncing backed.formed.queue
  rcases outcome with ⟨-, rfl⟩ | ⟨fs, linked, -, rfl⟩
  · refine .still names (fun other waiting => .inl (waits other waiting)) (fun other known => ?_) fun _ _ _ => same ▸ id
    simp only [db]
    exact isSome_update known
  · simp only [FileSystem.link] at linked
    split at linked
    · exact absurd linked (by simp)
    · exact absurd linked (by simp)
    · exact absurd linked (by simp)
    · next ino _ _ =>
      obtain rfl := Except.ok.inj linked
      have regular (other : Path) (own : UserPath other) :
          (synced.fs.insert target (.file ino)).Regular other ↔ other = target ∨ client.fs.Regular other :=
        FileSystem.regular_insert.trans (or_congr_right (names.regular_iff own))
      refine ⟨names.noDir.insert _ _, fun other own there => ?_, fun other own there _ => ?_,
        fun other waiting => .inl ⟨waits other waiting, id⟩, fun other known _ => ?_,
        fun _ _ _ found => .inl (same ▸ found)⟩
      · rcases (regular other own).mp there with rfl | old
        · exact .inl (by simp)
        · exact .inr ⟨old, id⟩
      · exact (regular other own).mpr (.inr there)
      · simp only [db]
        exact isSome_update known

theorem truncate {size : ℕ} (backed : Backed client) (handled : xmpTruncate env path size client = .ok (res, after)) :
    Keeps (fun _ => False) client after := by
  have tidy := backed.formed.queue.tidy
  obtain ⟨synced, syncing, outcome⟩ := xmpTruncate_eq_ok handled
  have waits (other : Path) (waits : synced.queue.Waits other) : client.queue.Waits other :=
    waits.of_truncateSync tidy syncing
  have versions (other : Path) (known : (client.db other).isSome) : (synced.db other).isSome := by
    rcases truncateSync_eq_ok syncing with ⟨-, rfl⟩ | ⟨-, sh, -, rfl⟩ | ⟨-, -, version, queue, -, -, rfl⟩
    · exact known
    · exact known
    · exact isSome_update known
  have rel : synced.rel = client.rel := by
    rcases truncateSync_eq_ok syncing with ⟨-, rfl⟩ | ⟨-, sh, -, rfl⟩ | ⟨-, -, version, queue, -, -, rfl⟩ <;> rfl
  have fs := truncateSync_fs syncing
  rcases outcome with ⟨-, rfl⟩ | ⟨fs', truncated, -, rfl⟩
  · exact .still (fs.symm ▸ .refl backed.noDir) (fun other waiting => .inl (waits other waiting)) versions
      fun _ _ _ => rel ▸ id
  · have names := FileSystem.SameNames.truncate backed.noDir (fs ▸ truncated)
    exact .still names (fun other waiting => .inl (waits other waiting)) versions fun _ _ _ => rel ▸ id

theorem write {offset : ℕ} {data : Bytes} (backed : Backed client) (user : UserPath path)
    (regular : client.fs.Regular path) (handled : xmpWrite env path offset data client = .ok (res, after)) :
    Keeps (fun _ => False) client after := by
  have tidy := backed.formed.queue.tidy
  obtain ⟨synced, syncing, outcome⟩ := xmpWrite_eq_ok handled
  have waits (other : Path) (waits : synced.queue.Waits other) :
      client.queue.Waits other ∨ UserPath other ∧ client.fs.Regular other := by
    rcases waits.of_writeSync tidy syncing with old | rfl
    · exact .inl old
    · exact .inr ⟨user, regular⟩
  have versions (other : Path) (known : (client.db other).isSome) : (synced.db other).isSome := by
    rcases writeSync_eq_ok syncing with ⟨sh, -, rfl⟩ | ⟨-, version, queue, -, -, rfl⟩
    · exact known
    · exact isSome_update known
  have rel : synced.rel = client.rel := by
    rcases writeSync_eq_ok syncing with ⟨sh, -, rfl⟩ | ⟨-, version, queue, -, -, rfl⟩ <;> rfl
  have fs := writeSync_fs syncing
  rcases outcome with ⟨-, rfl⟩ | ⟨fs', -, written, -, rfl⟩
  · exact .still (fs.symm ▸ .refl backed.noDir) waits versions fun _ _ _ => rel ▸ id
  · have names := FileSystem.SameNames.pwriteAt backed.noDir (fs ▸ written)
    exact .still names waits versions fun _ _ _ => rel ▸ id

theorem syncExecute {sent : Option SyncNode} (backed : Backed client)
    (executed : syncExecute env client = .ok (sent, after)) : Keeps (fun _ => False) client after := by
  have names := (FileSystem.SameNames.temporary _).syncExecute executed backed.formed.queue (.refl backed.noDir)
  have waits (other : Path) (waits : after.queue.Waits other) := waits.of_syncExecute backed.formed.queue.tidy executed
  rcases SyncQueue.Holds.syncExecute executed backed.formed.queue (Formed.packKeeps env _) with
    ⟨-, rfl⟩ | ⟨⟨db, rel, -⟩, -⟩
  · exact .still names (fun other waiting => .inl waiting) (fun _ => id) fun _ _ _ => id
  · exact .still names (fun other waiting => .inl (waits other waiting)) (fun _ => db ▸ id) fun _ _ _ => rel ▸ id

theorem relDequeue (backed : Backed client) : Keeps (fun _ => False) client { client with rel := relDequeue client.rel } :=
  .still (.refl backed.noDir) (fun _ => .inl) (fun _ => id) fun _ _ _ => backed.formed.rel.relDequeue.2

end Backed

end DeltaCFS
