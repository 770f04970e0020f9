import DeltaCFS.Proofs.Client.Nodes

/-! # Files in the temporary directory

Whatever the client does with the queue, the files it writes and removes on the way lie in the
temporary directory. A property of the file system that changes there keep is kept by all of it.
-/

namespace DeltaCFS

variable {env : Env} {client after : Client} {path source target : Path} {fs fs' : FileSystem} {content : Bytes}

/-- A path outside of `TMP_DIR`. -/
def UserPath (path : Path) : Prop := ¬ tmpDir <+: path

instance (path : Path) : Decidable (UserPath path) := inferInstanceAs (Decidable (¬ _))

theorem UserPath.ne_of_prefix {other : Path} (user : UserPath path) (temporary : tmpDir <+: other) : path ≠ other := by
  rintro rfl
  exact user temporary

/-! ## Directories -/

/-- Every entry is a regular file. -/
def FileSystem.NoDir (fs : FileSystem) : Prop := ∀ path, fs.entry path ≠ some .dir

namespace FileSystem.NoDir

theorem store (noDir : fs.NoDir) (stored : fs.store path content = some fs') : fs'.NoDir := by
  obtain ⟨⟨ino, found, -⟩, others⟩ := entry_store stored
  intro other
  by_cases same : other = path
  · simp [same, found]
  · rw [others other same]
    exact noDir other

theorem remove (noDir : fs.NoDir) (path : Path) : (fs.remove path).NoDir := by
  intro other
  by_cases same : other = path
  · subst same
    simp only [FileSystem.remove]
    split
    · simp [entry_erase]
    · exact noDir other
  · rw [entry_remove _ _ _ same]
    exact noDir other

theorem create (noDir : fs.NoDir) (path : Path) (content : Bytes) : (fs.create path content).NoDir := by
  intro other
  rw [entry_create]
  split
  · simp
  · exact noDir other

theorem insert (noDir : fs.NoDir) (path : Path) (ino : ℕ) : (fs.insert path (.file ino)).NoDir := by
  intro other
  rw [entry_insert]
  split
  · simp
  · exact noDir other

theorem move (noDir : fs.NoDir) (source target : Path) (ino : ℕ) : (fs.move source target ino).NoDir := by
  intro other
  rw [entry_move]
  split
  · simp
  · split
    · simp
    · exact noDir other

/-- An entry that is not absent is a file. -/
theorem entry_cases (noDir : fs.NoDir) (path : Path) : fs.entry path = none ∨ fs.Regular path := by
  cases found : fs.entry path with
  | none => exact .inl rfl
  | some kind =>
    cases kind with
    | dir => exact absurd found (noDir path)
    | file ino => exact .inr ⟨ino, found⟩

/-- Without directories every name can be written to. -/
theorem exists_store (noDir : fs.NoDir) (path : Path) (content : Bytes) : ∃ fs', fs.store path content = some fs' := by
  rcases noDir.entry_cases path with absent | ⟨ino, found⟩
  · exact ⟨fs.create path content, by simp only [FileSystem.store, absent]⟩
  · exact ⟨fs.setData ino content, by simp only [FileSystem.store, found]⟩

end FileSystem.NoDir

/-! ## The rule -/

/-- A property of file systems that changes in the temporary directory keep. -/
structure TemporaryInvariant (R : FileSystem → Prop) : Prop where
  store : ∀ {fs fs' : FileSystem} {path : Path} {content : Bytes}, tmpDir <+: path →
    fs.store path content = some fs' → R fs → R fs'
  remove : ∀ {fs : FileSystem} {path : Path}, tmpDir <+: path → R fs → R (fs.remove path)

namespace TemporaryInvariant

variable {R : FileSystem → Prop}

theorem computeDelta {originfile newfile basefile deltaFile : Path} (rule : TemporaryInvariant R)
    (computing : computeDelta env originfile newfile basefile client = .ok (deltaFile, after)) (start : R client.fs) :
    R after.fs := by
  obtain ⟨old, new, delta, computed⟩ := computeDelta_eq_ok computing
  obtain ⟨opened, created, stored, ⟨_, -, sigOpened⟩, deltaOpened, -, deltaStored, rfl⟩ := computed.files
  have temporary : tmpDir <+: deltaFile := computed.path_eq ▸ tmpDir_prefix_deltaPath ..
  have removed := rule.remove (tmpDir_prefix_sigPath basefile) (rule.store (tmpDir_prefix_sigPath _) sigOpened start)
  exact rule.store temporary deltaStored (rule.store temporary deltaOpened removed)

theorem packedOne {slot : ℕ} (rule : TemporaryInvariant R) (one : PackedOne env slot client after)
    (start : R client.fs) : R after.fs := by
  cases one with
  | unopened => exact start
  | whole => exact start
  | stale _ _ computing => exact (rule.computeDelta computing start :)
  | related _ _ computing => exact (rule.computeDelta computing start :)
  | writes => exact start
  | rebuilt _ _ copies undoes computing =>
    obtain ⟨opened, created, copied⟩ := Option.bind_eq_some_iff.mp copies
    have temporary := tmpDir_prefix_tmpPath (client.node slot).src
    have undone := rule.store temporary undoes (rule.store temporary copied (rule.store temporary created start))
    exact rule.remove temporary (rule.computeDelta computing undone)

theorem packRule (rule : TemporaryInvariant R) (env : Env) : PackInvariant env fun state => R state.fs :=
  ⟨fun _ start => start, fun _ _ _ one start => rule.packedOne one start⟩

theorem packPath (rule : TemporaryInvariant R) (packed : syncPackWritePath env path client = .ok after)
    (tidy : Tidy client.queue) (start : R client.fs) : R after.fs :=
  (rule.packRule env).packPath packed tidy start

theorem renameSync {fromVersion newTimestamp : UInt64} (rule : TemporaryInvariant R)
    (synced : renameSync env source target fromVersion newTimestamp client = .ok after) (tidy : Tidy client.queue)
    (start : R client.fs) : R after.fs := by
  simp only [DeltaCFS.renameSync] at synced
  split at synced
  · obtain ⟨packed, timestamp, deltaFile, computed, unlinked, queue, packing, -, computing, -, -, rfl⟩ :=
      renameOnto_eq_ok synced
    exact (rule.computeDelta computing (rule.packPath packing tidy start) :)
  · split at synced
    · obtain ⟨packed, queue, packing, -, rfl⟩ := renamePlain_eq_ok synced
      exact (rule.packPath packing tidy start :)
    · obtain ⟨deltaFile, computed, check, computing, -, outcome⟩ := renameRelated_eq_ok synced
      have delta := rule.computeDelta computing start
      rcases outcome with ⟨-, unlinked, queue, -, -, rfl⟩ | ⟨-, packed, queue, packing, -, rfl⟩
      · exact delta
      · obtain ⟨old, new, bytes, facts⟩ := computeDelta_eq_ok computing
        obtain ⟨_, _, _, _, _, _, _, rfl⟩ := facts.files
        exact (rule.packPath packing tidy delta :)

theorem linkSync {fromVersion : UInt64} (rule : TemporaryInvariant R)
    (synced : linkSync env source target fromVersion client = .ok after) (tidy : Tidy client.queue)
    (start : R client.fs) : R after.fs := by
  simp only [DeltaCFS.linkSync] at synced
  split at synced
  · obtain ⟨first, packed, deltaFile, computed, check, packing, packing', computing, -, outcome⟩ :=
      linkRelated_eq_ok synced
    obtain ⟨tidy', -⟩ := syncPackWritePath_entries packing tidy
    have delta := rule.computeDelta computing (rule.packPath packing' tidy' (rule.packPath packing tidy start))
    rcases outcome with ⟨-, queue, -, rfl⟩ | ⟨-, rfl⟩
    · exact delta
    · exact delta
  · exact Except.ok.inj synced ▸ start

theorem syncExecute {P : List SyncNode → Prop} {sent : Option SyncNode} (rule : TemporaryInvariant R)
    (executed : syncExecute env client = .ok (sent, after)) (holds : client.queue.Holds P) (start : R client.fs) :
    R after.fs := by
  rcases syncExecute_eq_ok executed with ⟨-, -, rfl⟩ | ⟨occupied, packed, packing, -, rfl⟩
  · exact start
  · obtain ⟨tidy, nodes, ⟨fifo, queued, -⟩, -⟩ := holds
    exact ((rule.packRule env).packHead packing tidy queued.head_lt occupied start :)

end TemporaryInvariant

/-! ## Names -/

/-- The names outside the temporary directory stand for what they did. -/
structure FileSystem.SameNames (fs fs' : FileSystem) : Prop where
  noDir : fs'.NoDir
  entry_eq : ∀ path, UserPath path → fs'.entry path = fs.entry path

namespace FileSystem.SameNames

theorem refl (noDir : fs.NoDir) : fs.SameNames fs := ⟨noDir, fun _ _ => rfl⟩

theorem temporary (fs : FileSystem) : TemporaryInvariant fs.SameNames where
  store := by
    intro first second path content temporary stored same
    refine ⟨same.noDir.store stored, fun other user => ?_⟩
    rw [(entry_store stored).2 other (user.ne_of_prefix temporary)]
    exact same.entry_eq other user
  remove := by
    intro first path temporary same
    refine ⟨same.noDir.remove path, fun other user => ?_⟩
    rw [entry_remove _ _ _ (user.ne_of_prefix temporary)]
    exact same.entry_eq other user

theorem regular_iff (same : fs.SameNames fs') (user : UserPath path) : fs'.Regular path ↔ fs.Regular path := by
  simp only [Regular, same.entry_eq path user]

end FileSystem.SameNames

end DeltaCFS
