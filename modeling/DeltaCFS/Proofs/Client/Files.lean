import DeltaCFS.Model.Client

/-! # What the file operations of the client do to names and contents

The entry of a name after each operation, whatever the inodes are; and the content of every name
when no two names share an inode, which is how a mount without hard links looks.
-/

namespace DeltaCFS

/-- The inode of the entry, if it has one, comes before this one. -/
def Entry.Before (ino : ℕ) : Entry → Prop
  | .dir => True
  | .file other => other < ino

instance (ino : ℕ) : DecidablePred (Entry.Before ino)
  | .dir => isTrue trivial
  | .file other => inferInstanceAs (Decidable (other < ino))

namespace FileSystem

variable {fs fs' : FileSystem} {path other : Path} {content : Bytes} {ino : ℕ}

/-! ## Entries -/

theorem entry_erase (fs : FileSystem) (path other : Path) :
    (fs.erase path).entry other = if other = path then none else fs.entry other := by
  simp only [entry, erase]
  induction fs.tree with
  | nil => simp
  | cons item rest ih =>
    obtain ⟨name, kind⟩ := item
    by_cases named : name = path
    · rw [List.filter_cons_of_neg (by simpa using named), ih, List.lookup_cons, named]
      by_cases same : other = path
      · rw [if_pos same, if_pos same]
      · rw [if_neg same, if_neg same, beq_eq_false_iff_ne.mpr same]
    · rw [List.filter_cons_of_pos (by simpa using named), List.lookup_cons, List.lookup_cons, ih]
      by_cases same : other = name
      · have apart : other ≠ path := same ▸ named
        rw [beq_iff_eq.mpr same, if_neg apart, if_neg apart]
      · rw [beq_eq_false_iff_ne.mpr same]

theorem entry_insert (fs : FileSystem) (path other : Path) (kind : Entry) :
    (fs.insert path kind).entry other = if other = path then some kind else fs.entry other := by
  have erased := entry_erase fs path other
  simp only [entry, insert, List.lookup_cons] at erased ⊢
  by_cases same : other = path
  · rw [beq_iff_eq.mpr same, if_pos same]
  · rw [beq_eq_false_iff_ne.mpr same, erased, if_neg same, if_neg same]

@[simp] theorem entry_setData (fs : FileSystem) (ino : ℕ) (content : Bytes) (path : Path) :
    (fs.setData ino content).entry path = fs.entry path := rfl

theorem entry_create (fs : FileSystem) (path other : Path) (content : Bytes) :
    (fs.create path content).entry other = if other = path then some (.file fs.nextIno) else fs.entry other :=
  entry_insert fs path other _

theorem entry_move (fs : FileSystem) (source target other : Path) (ino : ℕ) :
    (fs.move source target ino).entry other =
      if other = target then some (.file ino) else if other = source then none else fs.entry other := by
  rw [move, entry_insert, entry_erase]

/-- The name stands for a regular file. -/
def Regular (fs : FileSystem) (path : Path) : Prop := ∃ ino, fs.entry path = some (.file ino)

theorem regular_iff_read : fs.Regular path ↔ ∃ content, fs.read path = some content := by
  simp only [Regular, read]
  constructor
  · rintro ⟨ino, found⟩
    exact ⟨fs.data ino, by rw [found]⟩
  · rintro ⟨content, found⟩
    split at found
    · next ino named => exact ⟨ino, named⟩
    · exact absurd found (by simp)

/-- Opening for writing succeeds, and afterwards the name is a regular file; other names keep what
they stand for. -/
theorem entry_store (stored : fs.store path content = some fs') :
    (∃ ino, fs'.entry path = some (.file ino) ∧ fs'.data ino = content) ∧
      ∀ other, other ≠ path → fs'.entry other = fs.entry other := by
  simp only [store] at stored
  split at stored
  · exact absurd stored (by simp)
  · next ino found =>
    obtain rfl := Option.some.inj stored
    exact ⟨⟨ino, found, Function.update_self ..⟩, fun other _ => rfl⟩
  · obtain rfl := Option.some.inj stored
    refine ⟨⟨fs.nextIno, by rw [entry_create, if_pos rfl], Function.update_self ..⟩, fun other different => ?_⟩
    rw [entry_create, if_neg different]

/-- What is written in full twice has been written once. -/
theorem store_store {content' : Bytes} (stored : fs.store path content = some fs') :
    fs'.store path content' = fs.store path content' := by
  simp only [store] at stored
  split at stored
  · exact absurd stored (by simp)
  · next ino found =>
    obtain rfl := Option.some.inj stored
    have found' : (fs.setData ino content).entry path = some (.file ino) := found
    rw [store, store, found, found']
    simp only [setData, Function.update_idem]
  · next absent =>
    obtain rfl := Option.some.inj stored
    have found : (fs.create path content).entry path = some (.file fs.nextIno) := by rw [entry_create, if_pos rfl]
    rw [store, store, absent, found]
    simp only [create, setData, Function.update_idem]

theorem Regular.store (stored : fs.store path content = some fs') (regular : fs.Regular other) :
    fs'.Regular other := by
  obtain ⟨⟨ino, found, -⟩, rest⟩ := entry_store stored
  by_cases same : other = path
  · exact ⟨ino, same ▸ found⟩
  · exact ⟨regular.choose, (rest other same).trans regular.choose_spec⟩

theorem entry_remove (fs : FileSystem) (path other : Path) (different : other ≠ path) :
    (fs.remove path).entry other = fs.entry other := by
  simp only [remove]
  split
  · rw [entry_erase, if_neg different]
  · rfl

theorem Regular.remove (regular : fs.Regular other) (apart : other ≠ path) : (fs.remove path).Regular other :=
  ⟨regular.choose, (entry_remove fs path other apart).trans regular.choose_spec⟩

/-- Inodes are allocated in order. -/
def Allocated (fs : FileSystem) : Prop := ∀ item ∈ fs.tree, item.2.Before fs.nextIno

instance (fs : FileSystem) : Decidable fs.Allocated := inferInstanceAs (Decidable (∀ item ∈ fs.tree, _))

theorem Allocated.ino_lt (allocated : fs.Allocated) (found : fs.entry path = some (.file ino)) : ino < fs.nextIno := by
  obtain ⟨before, after, split, -⟩ := List.lookup_eq_some_iff.mp found
  exact allocated (path, .file ino) (by simp [split])

/-! ## Contents without hard links -/

/-- Every regular file has one name, and inodes are allocated in order. -/
structure Unshared (fs : FileSystem) : Prop where
  ino_lt : ∀ {path ino}, fs.entry path = some (.file ino) → ino < fs.nextIno
  single : ∀ {path other ino}, fs.entry path = some (.file ino) → fs.entry other = some (.file ino) → path = other

namespace Unshared

theorem setData (unshared : fs.Unshared) : (fs.setData ino content).Unshared :=
  ⟨unshared.ino_lt, unshared.single⟩

theorem read_setData (unshared : fs.Unshared) (found : fs.entry path = some (.file ino)) (other : Path) :
    (fs.setData ino content).read other = if other = path then some content else fs.read other := by
  simp only [read, entry_setData]
  by_cases same : other = path
  · subst same
    simp [found, FileSystem.setData]
  · rw [if_neg same]
    split
    · next inode named =>
      have apart : inode ≠ ino := fun equal => same (unshared.single (equal ▸ named) found)
      simp [FileSystem.setData, Function.update_of_ne apart]
    · rfl

theorem create (unshared : fs.Unshared) (content : Bytes) : (fs.create path content).Unshared where
  ino_lt := by
    intro name ino found
    rw [entry_create] at found
    split at found
    · obtain rfl : fs.nextIno = ino := by simpa using found
      exact Nat.lt_succ_self _
    · exact Nat.lt_succ_of_lt (unshared.ino_lt found)
  single := by
    intro name other ino first second
    rw [entry_create] at first second
    split at first <;> split at second
    · next named also => exact named.trans also.symm
    · obtain rfl : fs.nextIno = ino := by simpa using first
      exact absurd (unshared.ino_lt second) (lt_irrefl _)
    · obtain rfl : fs.nextIno = ino := by simpa using second
      exact absurd (unshared.ino_lt first) (lt_irrefl _)
    · exact unshared.single first second

theorem read_create (unshared : fs.Unshared) (path other : Path) (content : Bytes) :
    (fs.create path content).read other = if other = path then some content else fs.read other := by
  simp only [read, entry_create]
  by_cases same : other = path
  · simp [same, FileSystem.create, FileSystem.setData]
  · simp only [same, ↓reduceIte]
    split
    · next ino found =>
      have older : ino ≠ fs.nextIno := (unshared.ino_lt found).ne
      simp [FileSystem.create, FileSystem.setData, Function.update_of_ne older, FileSystem.insert]
    · rfl

theorem store (unshared : fs.Unshared) (stored : fs.store path content = some fs') : fs'.Unshared := by
  simp only [FileSystem.store] at stored
  split at stored
  · exact absurd stored (by simp)
  · exact Option.some.inj stored ▸ unshared.setData
  · exact Option.some.inj stored ▸ unshared.create content

theorem read_store (unshared : fs.Unshared) (stored : fs.store path content = some fs') (other : Path) :
    fs'.read other = if other = path then some content else fs.read other := by
  simp only [FileSystem.store] at stored
  split at stored
  · exact absurd stored (by simp)
  · next ino found => exact Option.some.inj stored ▸ unshared.read_setData found other
  · exact Option.some.inj stored ▸ unshared.read_create path other content

theorem of_entries (unshared : fs.Unshared) (next : fs.nextIno ≤ fs'.nextIno)
    (entries : ∀ path ino, fs'.entry path = some (.file ino) → fs.entry path = some (.file ino)) :
    fs'.Unshared :=
  ⟨fun found => (unshared.ino_lt (entries _ _ found)).trans_le next,
    fun first second => unshared.single (entries _ _ first) (entries _ _ second)⟩

theorem erase (unshared : fs.Unshared) : (fs.erase path).Unshared := by
  refine unshared.of_entries le_rfl fun name ino found => ?_
  rw [entry_erase] at found
  split at found
  · exact absurd found (by simp)
  · exact found

theorem remove (unshared : fs.Unshared) : (fs.remove path).Unshared := by
  simp only [FileSystem.remove]
  split
  · exact unshared.erase
  · exact unshared

theorem move (unshared : fs.Unshared) {source target : Path} (found : fs.entry source = some (.file ino)) :
    (fs.move source target ino).Unshared where
  ino_lt := by
    intro name inode named
    rw [entry_move] at named
    split at named
    · obtain rfl : ino = inode := by simpa using named
      exact unshared.ino_lt found
    · split at named
      · exact absurd named (by simp)
      · exact unshared.ino_lt named
  single := by
    intro name other inode first second
    rw [entry_move] at first second
    -- the inode that moved had the source as its only name
    have moved {other : Path} (kept : other ≠ source) (equal : ino = inode) :
        fs.entry other ≠ some (.file inode) := fun also => kept (unshared.single (equal ▸ also) found)
    split at first <;> split at second
    · next named also => exact named.trans also.symm
    · split at second
      · exact absurd second (by simp)
      · next kept => exact absurd second (moved kept (by simpa using first))
    · split at first
      · exact absurd first (by simp)
      · next kept => exact absurd first (moved kept (by simpa using second))
    · split at first
      · exact absurd first (by simp)
      · split at second
        · exact absurd second (by simp)
        · exact unshared.single first second

end Unshared

theorem read_erase (fs : FileSystem) (path other : Path) :
    (fs.erase path).read other = if other = path then none else fs.read other := by
  simp only [read, entry_erase]
  by_cases same : other = path
  · simp [same]
  · simp only [same, ↓reduceIte]
    rfl

/-- Removing another name changes no content. -/
theorem read_remove (fs : FileSystem) (path other : Path) :
    (fs.remove path).read other = if other = path then none else fs.read other := by
  simp only [remove]
  split
  · exact read_erase fs path other
  · next irregular =>
    by_cases same : other = path
    · subst same
      rw [if_pos rfl, read]
      split
      · next ino found => exact absurd found (irregular ino)
      · rfl
    · rw [if_neg same]

theorem read_move (fs : FileSystem) (source target other : Path) (ino : ℕ) :
    (fs.move source target ino).read other =
      if other = target then some (fs.data ino) else if other = source then none else fs.read other := by
  simp only [read, entry_move]
  by_cases toTarget : other = target
  · simp [toTarget, move, insert, erase]
  · simp only [toTarget, ↓reduceIte]
    by_cases fromSource : other = source
    · simp [fromSource]
    · simp only [fromSource, ↓reduceIte]
      rfl

end FileSystem

end DeltaCFS
