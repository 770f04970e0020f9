import DeltaCFS.Proofs.Client.TemporaryFiles
import DeltaCFS.Proofs.Client.WellFormed

/-! # Mounts of regular files

Calls that make neither directories nor links leave a file system in which every name is a regular
file of its own. Packing then changes only what lies in the temporary directory, and a call that
succeeds changes what its own path reads as, and nothing else outside that directory.
-/

namespace DeltaCFS

open Bytes

variable {env : Env} {client after : Client} {path source target : Path} {res : ℤ} {fs fs' : FileSystem}
  {content : Bytes}

/-! ## System calls -/

/-- Every entry is a regular file with one name. -/
structure FileSystem.Plain (fs : FileSystem) : Prop where
  unshared : fs.Unshared
  noDir : fs.NoDir

namespace FileSystem.Plain

theorem store (plain : fs.Plain) (stored : fs.store path content = some fs') : fs'.Plain :=
  ⟨plain.unshared.store stored, plain.noDir.store stored⟩

theorem remove (plain : fs.Plain) (path : Path) : (fs.remove path).Plain :=
  ⟨plain.unshared.remove, plain.noDir.remove path⟩

theorem openExcl (plain : fs.Plain) (opened : fs.openExcl path = .ok fs') :
    fs'.Plain ∧ ∀ other, fs'.read other = if other = path then some [] else fs.read other := by
  simp only [FileSystem.openExcl] at opened
  split at opened
  · exact absurd opened (by simp)
  · obtain rfl := Except.ok.inj opened
    exact ⟨⟨plain.unshared.create [], plain.noDir.create path []⟩, fun other => plain.unshared.read_create path other []⟩

/-- The source's content is at the target. -/
theorem rename (plain : fs.Plain) (renamed : fs.rename source target = .ok fs') :
    ∃ content, fs.read source = some content ∧ fs'.Plain ∧
      ∀ other, fs'.read other =
        if other = target then some content else if other = source then none else fs.read other := by
  have moved {ino : ℕ} (found : fs.entry source = some (.file ino)) : (fs.move source target ino).Plain :=
    ⟨plain.unshared.move found, plain.noDir.move source target ino⟩
  rcases plain.noDir.entry_cases source with absent | ⟨ino, found⟩
  · simp [FileSystem.rename, absent] at renamed
  · refine ⟨fs.data ino, by simp [read, found], ?_⟩
    rcases plain.noDir.entry_cases target with absent | ⟨other, also⟩
    · simp only [FileSystem.rename, found, absent] at renamed
      obtain rfl := Except.ok.inj renamed
      exact ⟨moved found, fun other => read_move fs source target other ino⟩
    · simp only [FileSystem.rename, found, also] at renamed
      split at renamed
      · -- one file has one name, so the two are the same
        next same =>
        obtain rfl := Except.ok.inj renamed
        obtain rfl : source = target := plain.unshared.single found (same ▸ also)
        refine ⟨plain, fun other => ?_⟩
        split
        · next here => simp [read, here, found]
        · rfl
      · obtain rfl := Except.ok.inj renamed
        exact ⟨moved found, fun other => read_move fs source target other ino⟩

/-- A change of the content of a file. -/
theorem setData {ino : ℕ} (plain : fs.Plain) (found : fs.entry path = some (.file ino)) (content : Bytes) :
    (fs.setData ino content).Plain ∧
      ∀ other, (fs.setData ino content).read other = if other = path then some content else fs.read other :=
  ⟨⟨plain.unshared.setData, plain.noDir⟩, fun other => plain.unshared.read_setData found other⟩

theorem truncate {size : ℕ} (plain : fs.Plain) (truncated : fs.truncate path size = .ok fs') :
    ∃ content, fs.read path = some content ∧ fs'.Plain ∧
      ∀ other, fs'.read other = if other = path then some (resize size content) else fs.read other := by
  rcases plain.noDir.entry_cases path with absent | ⟨ino, found⟩
  · simp [FileSystem.truncate, absent] at truncated
  · simp only [FileSystem.truncate, found] at truncated
    obtain rfl := Except.ok.inj truncated
    exact ⟨fs.data ino, by simp [read, found], plain.setData found _⟩

theorem pwriteAt {offset : ℕ} {data : Bytes} (plain : fs.Plain) (written : fs.pwriteAt path offset data = .ok fs') :
    ∃ content, fs.read path = some content ∧ fs'.Plain ∧
      ∀ other, fs'.read other = if other = path then some (pwrite content offset data) else fs.read other := by
  rcases plain.noDir.entry_cases path with absent | ⟨ino, found⟩
  · simp [FileSystem.pwriteAt, absent] at written
  · simp only [FileSystem.pwriteAt, found] at written
    obtain rfl := Except.ok.inj written
    exact ⟨fs.data ino, by simp [read, found], plain.setData found _⟩

end FileSystem.Plain

/-! ## Packing -/

/-- The files outside the temporary directory read as they did. -/
structure FileSystem.Agrees (fs fs' : FileSystem) : Prop where
  plain : fs'.Plain
  read_eq : ∀ path, UserPath path → fs'.read path = fs.read path

namespace FileSystem.Agrees

theorem refl (plain : fs.Plain) : fs.Agrees fs := ⟨plain, fun _ _ => rfl⟩

theorem trans {fs'' : FileSystem} (first : fs.Agrees fs') (second : fs'.Agrees fs'') : fs.Agrees fs'' :=
  ⟨second.plain, fun path user => (second.read_eq path user).trans (first.read_eq path user)⟩

theorem temporary (fs : FileSystem) : TemporaryInvariant fs.Agrees where
  store := by
    intro first second path content temporary stored agrees
    refine ⟨agrees.plain.store stored, fun other user => ?_⟩
    rw [agrees.plain.unshared.read_store stored, if_neg (user.ne_of_prefix temporary)]
    exact agrees.read_eq other user
  remove := by
    intro first path temporary agrees
    refine ⟨agrees.plain.remove path, fun other user => ?_⟩
    rw [read_remove, if_neg (user.ne_of_prefix temporary)]
    exact agrees.read_eq other user

end FileSystem.Agrees

/-! ## Calls that succeed -/

theorem truncateSync_fs {size : ℕ} (synced : truncateSync path size client = .ok after) : after.fs = client.fs := by
  rcases truncateSync_eq_ok synced with ⟨-, rfl⟩ | ⟨-, sh, -, rfl⟩ | ⟨-, -, version, queue, -, -, rfl⟩
  all_goals rfl

theorem writeSync_fs {offset : ℕ} {data : Bytes} (synced : writeSync env path offset data client = .ok after) :
    after.fs = client.fs := by
  rcases writeSync_eq_ok synced with ⟨sh, -, rfl⟩ | ⟨-, version, queue, -, -, rfl⟩
  all_goals rfl

namespace FileSystem.Plain

theorem mknod {mode rdev : ℕ} (plain : client.fs.Plain) (tidy : Tidy client.queue)
    (handled : xmpMknod env path mode rdev client = .ok (res, after)) (done : 0 ≤ res) :
    after.fs.Plain ∧ ∀ other, UserPath other →
      after.fs.read other = if other = path then some [] else client.fs.read other := by
  obtain ⟨stored, rfl, ⟨failed, -⟩ | ⟨fs, packed, queue, opened, packing, -, -, rfl⟩⟩ := xmpMknod_eq_ok handled
  · omega
  · obtain ⟨created, reads⟩ := plain.openExcl opened
    have agrees := (Agrees.temporary fs).packPath packing tidy (.refl created)
    exact ⟨agrees.plain, fun other user => (agrees.read_eq other user).trans (reads other)⟩

theorem unlink (plain : client.fs.Plain) (tidy : Tidy client.queue)
    (handled : xmpUnlink env path client = .ok (res, after)) (done : 0 ≤ res) :
    after.fs.Plain ∧ ∀ other, UserPath other →
      after.fs.read other = if other = path then none else client.fs.read other := by
  obtain ⟨version, packed, rel, -, packing, -, outcome⟩ := xmpUnlink_eq_ok handled
  have agrees := (Agrees.temporary client.fs).packPath packing tidy (.refl plain)
  rcases outcome with ⟨failed, -⟩ | ⟨fs, queue, related, moved, -, -, -, rfl⟩
  · omega
  · obtain ⟨content, -, renamed, reads⟩ := agrees.plain.rename moved
    refine ⟨renamed, fun other user => ?_⟩
    rw [reads other, if_neg (user.ne_of_prefix (tmpDir_prefix_tmpPath path)), agrees.read_eq other user]

theorem xmpRename (plain : client.fs.Plain) (tidy : Tidy client.queue)
    (handled : xmpRename env source target client = .ok (res, after)) (done : 0 ≤ res) :
    ∃ content, (UserPath source → client.fs.read source = some content) ∧ after.fs.Plain ∧
      ∀ other, UserPath other → after.fs.read other =
        if other = target then some content else if other = source then none else client.fs.read other := by
  obtain ⟨version, synced, rel, -, syncing, -, outcome⟩ := xmpRename_eq_ok handled
  have agrees := (Agrees.temporary client.fs).renameSync syncing tidy (.refl plain)
  rcases outcome with ⟨failed, -⟩ | ⟨fs, moved, -, rfl⟩
  · omega
  · obtain ⟨content, found, renamed, reads⟩ := agrees.plain.rename moved
    refine ⟨content, fun user => agrees.read_eq source user ▸ found, renamed, fun other user => ?_⟩
    rw [reads other, agrees.read_eq other user]

theorem xmpTruncate {size : ℕ} (plain : client.fs.Plain)
    (handled : xmpTruncate env path size client = .ok (res, after)) (done : 0 ≤ res) :
    ∃ content, client.fs.read path = some content ∧ after.fs.Plain ∧
      ∀ other, after.fs.read other = if other = path then some (resize size content) else client.fs.read other := by
  obtain ⟨synced, syncing, ⟨failed, -⟩ | ⟨fs, truncated, -, rfl⟩⟩ := xmpTruncate_eq_ok handled
  · omega
  · rw [truncateSync_fs syncing] at truncated
    exact plain.truncate truncated

theorem xmpWrite {offset : ℕ} {data : Bytes} (plain : client.fs.Plain)
    (handled : xmpWrite env path offset data client = .ok (res, after)) (done : 0 ≤ res) :
    ∃ content, client.fs.read path = some content ∧ after.fs.Plain ∧
      ∀ other, after.fs.read other = if other = path then some (pwrite content offset data) else client.fs.read other := by
  obtain ⟨synced, syncing, ⟨failed, -⟩ | ⟨fs, -, written, -, rfl⟩⟩ := xmpWrite_eq_ok handled
  · omega
  · rw [writeSync_fs syncing] at written
    exact plain.pwriteAt written

end FileSystem.Plain

/-! ## Versions -/

theorem xmpMknod_db {mode rdev : ℕ} (tidy : Tidy client.queue)
    (handled : xmpMknod env path mode rdev client = .ok (res, after)) :
    after.db = Function.update client.db path (some client.newVersion) ∧ after.recfsCnt = client.recfsCnt + 1 := by
  obtain ⟨stored, rfl, ⟨-, rfl⟩ | ⟨fs, packed, queue, -, packing, -, -, rfl⟩⟩ := xmpMknod_eq_ok handled
  · exact ⟨rfl, rfl⟩
  · obtain ⟨db, -, count⟩ := syncPackWritePath_frame packing tidy
    exact ⟨db, count⟩

theorem xmpUnlink_db (tidy : Tidy client.queue) (handled : xmpUnlink env path client = .ok (res, after))
    (done : 0 ≤ res) :
    after.db = Function.update (Function.update client.db (tmpPath path) (some client.newVersion)) path none ∧
      after.recfsCnt = client.recfsCnt + 1 := by
  obtain ⟨version, packed, rel, -, packing, -, outcome⟩ := xmpUnlink_eq_ok handled
  obtain ⟨db, -, count⟩ := syncPackWritePath_frame packing tidy
  rcases outcome with ⟨failed, -⟩ | ⟨fs, queue, related, -, -, -, -, rfl⟩
  · omega
  · simp only [Client.newVersion, db, count, and_self]

/-- The branches of `xmp_rename` give the target its version and leave relations and counter. -/
theorem renameSync_frame {P : List SyncNode → Prop} {fromVersion newTimestamp : UInt64}
    (synced : renameSync env source target fromVersion newTimestamp client = .ok after)
    (holds : client.queue.Holds P) :
    after.rel = client.rel ∧ after.recfsCnt = client.recfsCnt ∧
      after.db = Function.update client.db target (some newTimestamp) := by
  have anything : client.queue.Holds fun _ => True := holds.imp fun _ _ => trivial
  exact (@SyncQueue.Holds.renameSync _ _ _ (fun _ => True) (fun _ => True) _ _ _ _ (fun _ => True) (fun _ => True) synced
    anything (fun _ _ _ _ => id) (fun _ _ _ _ => id) (fun _ _ => id) (fun _ => id) (fun _ _ _ _ _ => id) (fun _ _ => id)
    (fun _ _ _ _ _ _ => id)).2

/-- What `xmp_link` does before its own node leaves versions, relations and counter. -/
theorem linkSync_frame {P : List SyncNode → Prop} {fromVersion : UInt64}
    (synced : linkSync env source target fromVersion client = .ok after) (holds : client.queue.Holds P) :
    after.rel = client.rel ∧ after.recfsCnt = client.recfsCnt ∧ after.db = client.db := by
  have anything : client.queue.Holds fun _ => True := holds.imp fun _ _ => trivial
  exact (@SyncQueue.Holds.linkSync _ _ _ (fun _ => True) (fun _ => True) _ _ _ (fun _ => True) synced
    anything (fun _ _ _ _ => id) (fun _ => id) (fun _ _ _ _ _ _ _ => id) (fun _ => id) (fun _ _ _ _ _ => id)).2

theorem xmpRename_db {P : List SyncNode → Prop} (holds : client.queue.Holds P)
    (handled : xmpRename env source target client = .ok (res, after)) :
    after.db = Function.update (Function.update client.db source none) target (some client.newVersion) ∧
      after.recfsCnt = client.recfsCnt + 1 := by
  obtain ⟨version, synced, rel, -, syncing, -, outcome⟩ := xmpRename_eq_ok handled
  obtain ⟨-, count, db⟩ := renameSync_frame syncing holds
  rcases outcome with ⟨-, rfl⟩ | ⟨fs, -, -, rfl⟩
  · exact ⟨db, count⟩
  · exact ⟨db, count⟩

end DeltaCFS
