import DeltaCFS.Proofs.Client.RegularFiles

/-! # Names that share an inode

Hard links are names of one file, so what is written through one name is read at the others. In a
file system that allocates its inodes in order, which is what every run of the client leaves, a write
changes the names of that file and nothing else, whether the file was there before or not.
-/

namespace DeltaCFS

variable {env : Env} {client after : Client} {path other source target : Path} {res : ℤ} {fs fs' : FileSystem}
  {content : Bytes} {ino : ℕ}

namespace FileSystem

/-- The names are equal or stand for the same thing. -/
def Same (fs : FileSystem) (path other : Path) : Prop :=
  path = other ∨ fs.entry path ≠ none ∧ fs.entry path = fs.entry other

instance (fs : FileSystem) (path other : Path) : Decidable (fs.Same path other) :=
  inferInstanceAs (Decidable (_ ∨ _ ∧ _))

/-! ## Allocation -/

namespace Allocated

theorem mono (allocated : fs.Allocated) (next : fs.nextIno ≤ fs'.nextIno) (tree : ∀ item ∈ fs'.tree, item ∈ fs.tree) :
    fs'.Allocated := by
  intro item member
  have before := allocated item (tree item member)
  obtain ⟨name, kind⟩ := item
  cases kind with
  | dir => trivial
  | file ino => exact Nat.lt_of_lt_of_le before next

theorem erase (allocated : fs.Allocated) (path : Path) : (fs.erase path).Allocated :=
  allocated.mono le_rfl fun _ member => List.mem_of_mem_filter member

theorem insert {kind : Entry} (allocated : fs.Allocated) (path : Path) (before : kind.Before fs.nextIno) :
    (fs.insert path kind).Allocated := by
  intro item member
  rcases List.mem_cons.mp member with rfl | old
  · exact before
  · exact allocated.erase path item old

theorem create (allocated : fs.Allocated) (path : Path) (content : Bytes) : (fs.create path content).Allocated := by
  intro item member
  rcases List.mem_cons.mp member with rfl | old
  · exact Nat.lt_succ_self fs.nextIno
  · have grown : { fs with nextIno := fs.nextIno + 1 }.Allocated := allocated.mono (Nat.le_succ _) fun _ => id
    exact grown.erase path item old

theorem store (allocated : fs.Allocated) (stored : fs.store path content = some fs') : fs'.Allocated := by
  simp only [FileSystem.store] at stored
  split at stored
  · exact absurd stored (by simp)
  · exact Option.some.inj stored ▸ allocated
  · exact Option.some.inj stored ▸ allocated.create path content

theorem remove (allocated : fs.Allocated) (path : Path) : (fs.remove path).Allocated := by
  simp only [FileSystem.remove]
  split
  · exact allocated.erase path
  · exact allocated

theorem temporary : TemporaryInvariant Allocated :=
  ⟨fun _ stored allocated => allocated.store stored, fun _ allocated => allocated.remove _⟩

theorem openExcl (allocated : fs.Allocated) (opened : fs.openExcl path = .ok fs') : fs'.Allocated := by
  simp only [FileSystem.openExcl] at opened
  split at opened
  · exact absurd opened (by simp)
  · exact Except.ok.inj opened ▸ allocated.create path []

theorem mkdir (allocated : fs.Allocated) (made : fs.mkdir path = .ok fs') : fs'.Allocated := by
  simp only [FileSystem.mkdir] at made
  split at made
  · exact absurd made (by simp)
  · exact Except.ok.inj made ▸ allocated.insert path trivial

theorem rmdir (allocated : fs.Allocated) (removed : fs.rmdir path = .ok fs') : fs'.Allocated := by
  simp only [FileSystem.rmdir] at removed
  split at removed
  · exact absurd removed (by simp)
  · exact absurd removed (by simp)
  · split at removed
    · exact absurd removed (by simp)
    · exact Except.ok.inj removed ▸ allocated.erase path

theorem move (allocated : fs.Allocated) (found : fs.entry source = some (.file ino)) :
    (fs.move source target ino).Allocated :=
  (allocated.erase source).insert target (allocated.ino_lt found)

theorem moveDir (allocated : fs.Allocated) (source target : Path) : (fs.moveDir source target).Allocated := by
  intro item member
  obtain ⟨old, inside, rfl⟩ := List.mem_map.mp member
  have before := allocated.erase target old inside
  split
  · exact before
  · exact before

theorem rename (allocated : fs.Allocated) (renamed : fs.rename source target = .ok fs') : fs'.Allocated := by
  simp only [FileSystem.rename] at renamed
  split at renamed
  · exact absurd renamed (by simp)
  · exact absurd renamed (by simp)
  · next ino other found _ =>
    obtain rfl := Except.ok.inj renamed
    split
    · exact allocated
    · exact allocated.move found
  · next ino found _ => exact Except.ok.inj renamed ▸ allocated.move found
  · exact absurd renamed (by simp)
  · split at renamed
    · exact Except.ok.inj renamed ▸ allocated
    · split at renamed
      · exact absurd renamed (by simp)
      · split at renamed
        · exact absurd renamed (by simp)
        · exact Except.ok.inj renamed ▸ allocated.moveDir source target
  · split at renamed
    · exact absurd renamed (by simp)
    · exact Except.ok.inj renamed ▸ allocated.moveDir source target

theorem link (allocated : fs.Allocated) (linked : fs.link source target = .ok fs') : fs'.Allocated := by
  simp only [FileSystem.link] at linked
  split at linked
  · exact absurd linked (by simp)
  · exact absurd linked (by simp)
  · exact absurd linked (by simp)
  · next ino found _ => exact Except.ok.inj linked ▸ allocated.insert target (allocated.ino_lt found)

theorem truncate {size : ℕ} (allocated : fs.Allocated) (truncated : fs.truncate path size = .ok fs') :
    fs'.Allocated := by
  simp only [FileSystem.truncate] at truncated
  split at truncated
  · exact absurd truncated (by simp)
  · exact absurd truncated (by simp)
  · exact Except.ok.inj truncated ▸ allocated

theorem pwriteAt {offset : ℕ} {data : Bytes} (allocated : fs.Allocated)
    (written : fs.pwriteAt path offset data = .ok fs') : fs'.Allocated := by
  simp only [FileSystem.pwriteAt] at written
  split at written
  · exact Except.ok.inj written ▸ allocated
  · exact absurd written (by simp)

theorem setattr (allocated : fs.Allocated) (changed : fs.setattr path = .ok fs') : fs'.Allocated := by
  simp only [FileSystem.setattr] at changed
  split at changed
  · exact Except.ok.inj changed ▸ allocated
  · exact absurd changed (by simp)

end Allocated

end FileSystem

/-! ## Runs -/

/-- Every call allocates its inodes in order. -/
theorem FileSystem.Allocated.step {event : Event} (allocated : client.fs.Allocated) (formed : client.WellFormed)
    (stepped : client.next event = .ok after) : after.fs.Allocated := by
  obtain ⟨env, call⟩ := event
  obtain ⟨outcome, ran, rfl⟩ := next_eq_ok stepped
  have tidy := formed.queue.tidy
  have setattr {op : Op} {path : Path} {para : List UInt64}
      (handled : xmpSetattr env op path para client = .ok (outcome.res, outcome.client)) :
      outcome.client.fs.Allocated := by
    obtain ⟨queue, -, ⟨-, same⟩ | ⟨fs, changed, -, same⟩⟩ := xmpSetattr_eq_ok handled
    · exact same ▸ allocated
    · exact same ▸ allocated.setattr changed
  cases call with
  | mknod path mode rdev =>
    obtain ⟨stored, rfl, ⟨-, same⟩ | ⟨fs, packed, queue, opened, packing, -, -, same⟩⟩ :=
      xmpMknod_eq_ok (ofHandled_eq_ok ran).1
    · exact same ▸ allocated
    · have created := temporary.packPath packing tidy (allocated.openExcl opened)
      exact same ▸ created
  | mkdir path mode =>
    rcases xmpMkdir_eq_ok (ofHandled_eq_ok ran).1 with ⟨-, same⟩ | ⟨fs, queue, made, -, -, same⟩
    · exact same ▸ allocated
    · exact same ▸ allocated.mkdir made
  | unlink path =>
    obtain ⟨version, packed, rel, -, packing, -, outcome⟩ := xmpUnlink_eq_ok (ofHandled_eq_ok ran).1
    have ready := temporary.packPath packing tidy allocated
    rcases outcome with ⟨-, same⟩ | ⟨fs, queue, related, moved, -, -, -, same⟩
    · exact same ▸ ready
    · exact same ▸ ready.rename moved
  | rmdir path =>
    obtain ⟨version, queue, -, -, ⟨-, same⟩ | ⟨fs, removed, -, same⟩⟩ := xmpRmdir_eq_ok (ofHandled_eq_ok ran).1
    · exact same ▸ allocated
    · exact same ▸ allocated.rmdir removed
  | rename source target =>
    obtain ⟨version, synced, rel, -, syncing, -, outcome⟩ := xmpRename_eq_ok (ofHandled_eq_ok ran).1
    have ready := temporary.renameSync syncing tidy allocated
    rcases outcome with ⟨-, same⟩ | ⟨fs, moved, -, same⟩
    · exact same ▸ ready
    · exact same ▸ ready.rename moved
  | link source target =>
    obtain ⟨version, synced, queue, -, syncing, -, outcome⟩ := xmpLink_eq_ok (ofHandled_eq_ok ran).1
    have ready := temporary.linkSync syncing tidy allocated
    rcases outcome with ⟨-, same⟩ | ⟨fs, linked, -, same⟩
    · exact same ▸ ready
    · exact same ▸ ready.link linked
  | chmod path mode => exact setattr (ofHandled_eq_ok ran).1
  | chown path uid gid => exact setattr (ofHandled_eq_ok ran).1
  | utimens path accessed modified => exact setattr (ofHandled_eq_ok ran).1
  | truncate path size =>
    obtain ⟨synced, syncing, outcome⟩ := xmpTruncate_eq_ok (ofHandled_eq_ok ran).1
    have ready : synced.fs.Allocated := (truncateSync_fs syncing).symm ▸ allocated
    rcases outcome with ⟨-, same⟩ | ⟨fs, truncated, -, same⟩
    · exact same ▸ ready
    · exact same ▸ ready.truncate truncated
  | write path offset data =>
    obtain ⟨synced, syncing, outcome⟩ := xmpWrite_eq_ok (ofHandled_eq_ok ran).1
    have ready : synced.fs.Allocated := (writeSync_fs syncing).symm ▸ allocated
    rcases outcome with ⟨-, same⟩ | ⟨fs, -, written, -, same⟩
    · exact same ▸ ready
    · exact same ▸ ready.pwriteAt written
  | syncExecute => exact temporary.syncExecute (step_syncExecute ran).1 formed.queue allocated
  | relDequeue =>
    obtain rfl := Except.ok.inj ran
    exact allocated

theorem FileSystem.Allocated.of_run {memory : Memory} {dirSize : Path → ℕ} {Allowed : Event → Client → Prop}
    (run : Transition.Run Client.next Allowed (Client.initial memory dirSize) client) : client.fs.Allocated := by
  have both : client.fs.Allocated ∧ client.WellFormed :=
    run.invariant (fun state => state.fs.Allocated ∧ state.WellFormed)
      (fun good _ stepped => ⟨good.1.step good.2 stepped, good.2.step stepped⟩)
      ⟨fun _ inside => absurd inside List.not_mem_nil, .initial memory dirSize⟩
  exact both.1

/-! ## Contents -/

namespace FileSystem

/-- Opening for writing changes nothing about who shares an inode. -/
theorem same_store {name : Path} (allocated : fs.Allocated) (stored : fs.store path content = some fs') :
    fs'.Same name other ↔ fs.Same name other := by
  simp only [store] at stored
  split at stored
  · exact absurd stored (by simp)
  · exact Option.some.inj stored ▸ Iff.rfl
  · next absent =>
    obtain rfl := Option.some.inj stored
    have older {name : Path} : fs.entry name ≠ some (.file fs.nextIno) := fun found =>
      lt_irrefl _ (allocated.ino_lt found)
    simp only [Same, entry_create]
    refine or_congr_right' fun different => ?_
    by_cases here : name = path
    · have there : ¬ other = path := fun same => different (here.trans same.symm)
      simp [here, there, absent, Ne.symm older]
    · by_cases there : other = path
      · simp [here, there, absent, older]
      · simp [here, there]

theorem same_remove {name : Path} (apart : name ≠ path) (apart' : other ≠ path) :
    (fs.remove path).Same name other ↔ fs.Same name other := by
  simp only [Same, entry_remove fs path name apart, entry_remove fs path other apart']

/-- Every name of the file has the content that was written through one of them. -/
theorem read_store (allocated : fs.Allocated) (stored : fs.store path content = some fs') (other : Path) :
    fs'.read other = if fs.Same path other then some content else fs.read other := by
  simp only [store] at stored
  split at stored
  · exact absurd stored (by simp)
  · next ino found =>
    obtain rfl := Option.some.inj stored
    by_cases shared : fs.Same path other
    · have named : fs.entry other = some (.file ino) := by
        rcases shared with rfl | ⟨-, same⟩
        · exact found
        · exact same.symm.trans found
      rw [if_pos shared, read, entry_setData, named]
      exact congrArg some (Function.update_self ..)
    · rw [if_neg shared, read, read, entry_setData]
      split
      · next inode named =>
        have apart : inode ≠ ino := fun same => shared (.inr ⟨by simp [found], by rw [found, named, same]⟩)
        exact congrArg some (Function.update_of_ne apart ..)
      · rfl
  · next absent =>
    obtain rfl := Option.some.inj stored
    have same_iff : fs.Same path other ↔ other = path := by simp [Same, absent, eq_comm]
    simp only [same_iff, read, entry_create]
    by_cases here : other = path
    · rw [if_pos here, if_pos here]
      exact congrArg some (Function.update_self ..)
    · rw [if_neg here, if_neg here]
      split
      · next ino found => exact congrArg some (Function.update_of_ne (allocated.ino_lt found).ne ..)
      · rfl

theorem same_remove_iff {name : Path} (regular : fs.Regular path) :
    (fs.remove path).Same name other ↔ name = other ∨ name ≠ path ∧ other ≠ path ∧ fs.Same name other := by
  obtain ⟨ino, found⟩ := regular
  have gone : (fs.remove path).entry path = none := by
    simp only [FileSystem.remove, found, entry_erase, ↓reduceIte]
  by_cases here : name = path
  · subst here
    simp only [Same, gone, ne_eq, not_true_eq_false, false_and, or_false]
  · by_cases there : other = path
    · subst there
      simp [Same, gone, here]
    · rw [same_remove here there]
      exact ⟨fun same => .inr ⟨here, there, same⟩, fun same => same.elim .inl fun rest => rest.2.2⟩

/-- A file that is created exclusively is created. -/
theorem openExcl_store (opened : fs.openExcl path = .ok fs') : fs.store path [] = some fs' := by
  simp only [openExcl] at opened
  split at opened
  · exact absurd opened (by simp)
  · next absent =>
    rw [Bool.not_eq_true, Option.isSome_eq_false_iff, Option.isNone_iff_eq_none] at absent
    simp only [store, absent, Except.ok.inj opened]

/-- Packing leaves directories where they are. -/
theorem TemporaryInvariant.dir (path : Path) : TemporaryInvariant fun fs => fs.entry path = some .dir := by
  refine ⟨fun {fs fs' name content} _ stored found => ?_, fun {fs name} _ found => ?_⟩
  · have apart : path ≠ name := by
      rintro rfl
      simp [store, found] at stored
    exact ((entry_store stored).2 path apart).trans found
  · by_cases here : path = name
    · subst here
      simp only [FileSystem.remove, found]
    · exact (entry_remove fs name path here).trans found

/-! ## Files that are left alone -/

/-- The name stands for what it did, with the same content. -/
structure Keeps (fs : FileSystem) (name : Path) (fs' : FileSystem) : Prop where
  entry : fs'.entry name = fs.entry name
  read : fs'.read name = fs.read name

theorem mem_of_entry {kind : Entry} (found : fs.entry path = some kind) : (path, kind) ∈ fs.tree := by
  obtain ⟨before, after, split, -⟩ := List.lookup_eq_some_iff.mp found
  simp [split]

namespace Keeps

variable {name : Path}

theorem refl (fs : FileSystem) (name : Path) : fs.Keeps name fs := ⟨rfl, rfl⟩

theorem trans {fs'' : FileSystem} (first : fs.Keeps name fs') (second : fs'.Keeps name fs'') : fs.Keeps name fs'' :=
  ⟨second.entry.trans first.entry, second.read.trans first.read⟩

theorem regular (keeps : fs.Keeps name fs') (regular : fs.Regular name) : fs'.Regular name :=
  ⟨regular.choose, keeps.entry.trans regular.choose_spec⟩

theorem size (keeps : fs.Keeps name fs') (dirs : fs'.dirSize = fs.dirSize) :
    fs'.getFileSize name = fs.getFileSize name := by
  have read := keeps.read
  simp only [FileSystem.read, keeps.entry] at read
  simp only [getFileSize, keeps.entry]
  split
  · next ino found =>
    simp only [found] at read
    rw [Option.some.inj read]
  · rw [dirs]
  · rfl

/-- Other names come and go. -/
theorem of_entry (entry : fs'.entry name = fs.entry name) (data : fs'.data = fs.data) : fs.Keeps name fs' :=
  ⟨entry, by simp only [FileSystem.read, entry, data]⟩

theorem erase (apart : name ≠ path) : fs.Keeps name (fs.erase path) := of_entry (by rw [entry_erase, if_neg apart]) rfl

theorem insert {kind : Entry} (apart : name ≠ path) : fs.Keeps name (fs.insert path kind) :=
  of_entry (by rw [entry_insert, if_neg apart]) rfl

theorem remove (apart : name ≠ path) : fs.Keeps name (fs.remove path) := by
  simp only [FileSystem.remove]
  split
  · exact erase apart
  · exact refl fs name

/-- What is written to another file. -/
theorem setData (other : fs.entry name ≠ some (.file ino)) (content : Bytes) : fs.Keeps name (fs.setData ino content) := by
  refine ⟨rfl, ?_⟩
  simp only [FileSystem.read, entry_setData]
  split
  · next inode found =>
    have apart : inode ≠ ino := fun same => other (same ▸ found)
    exact congrArg some (Function.update_of_ne apart ..)
  · rfl

theorem write (apart : ¬ fs.Same path name) (found : fs.entry path = some (.file ino)) (content : Bytes) :
    fs.Keeps name (fs.setData ino content) :=
  setData (fun here => apart (.inr ⟨by simp [found], found.trans here.symm⟩)) content

theorem create (allocated : fs.Allocated) (apart : name ≠ path) (content : Bytes) :
    fs.Keeps name (fs.create path content) := by
  have inserted : fs.Keeps name (fs.insert path (.file fs.nextIno)) := insert apart
  have other : (fs.insert path (.file fs.nextIno)).entry name ≠ some (.file fs.nextIno) := fun here =>
    lt_irrefl _ (allocated.ino_lt (inserted.entry ▸ here))
  have written := setData other content
  exact inserted.trans ⟨written.entry, written.read⟩

theorem store (allocated : fs.Allocated) (apart : ¬ fs.Same path name) (stored : fs.store path content = some fs') :
    fs.Keeps name fs' := by
  simp only [FileSystem.store] at stored
  split at stored
  · exact absurd stored (by simp)
  · next ino found => exact Option.some.inj stored ▸ write apart found content
  · exact Option.some.inj stored ▸ create allocated (fun same => apart (.inl same.symm)) content

/-- Files that share no inode with the one that is written keep their sizes. -/
theorem size_store (allocated : fs.Allocated) (apart : ¬ fs.Same path name) (stored : fs.store path content = some fs') :
    fs'.getFileSize name = fs.getFileSize name := by
  refine (store allocated apart stored).size ?_
  simp only [FileSystem.store] at stored
  split at stored
  · exact absurd stored (by simp)
  · exact Option.some.inj stored ▸ rfl
  · exact Option.some.inj stored ▸ rfl

theorem size_remove (apart : name ≠ path) : (fs.remove path).getFileSize name = fs.getFileSize name := by
  refine (remove apart).size ?_
  simp only [FileSystem.remove]
  split
  · rfl
  · rfl

/-! ### Calls of the user -/

theorem openExcl (allocated : fs.Allocated) (there : fs.Regular name) (opened : fs.openExcl path = .ok fs') :
    fs.Keeps name fs' := by
  obtain ⟨ino, found⟩ := there
  simp only [FileSystem.openExcl] at opened
  split at opened
  · exact absurd opened (by simp)
  · next absent =>
    have apart : name ≠ path := fun same => absent (by simp [← same, found])
    exact Except.ok.inj opened ▸ create allocated apart []

theorem mkdir (there : fs.Regular name) (made : fs.mkdir path = .ok fs') : fs.Keeps name fs' := by
  obtain ⟨ino, found⟩ := there
  simp only [FileSystem.mkdir] at made
  split at made
  · exact absurd made (by simp)
  · next absent =>
    have apart : name ≠ path := fun same => absent (by simp [← same, found])
    exact Except.ok.inj made ▸ insert apart

theorem rmdir (there : fs.Regular name) (removed : fs.rmdir path = .ok fs') : fs.Keeps name fs' := by
  obtain ⟨ino, found⟩ := there
  simp only [FileSystem.rmdir] at removed
  split at removed
  · exact absurd removed (by simp)
  · exact absurd removed (by simp)
  · next dir =>
    have apart : name ≠ path := fun same => by simp [← same, found] at dir
    split at removed
    · exact absurd removed (by simp)
    · exact Except.ok.inj removed ▸ erase apart

theorem move (apart : name ≠ source) (apart' : name ≠ target) : fs.Keeps name (fs.move source target ino) :=
  (erase apart).trans (insert apart')

/-- A directory that moves takes what is below it along, and nothing else. -/
theorem moveDir (apart : name ≠ source) (outside : isBelow source name = false) (apart' : name ≠ target)
    (beneath : isBelow target name = false) : fs.Keeps name (fs.moveDir source target) := by
  have erased : fs.Keeps name (fs.erase target) := erase apart'
  have stays (item : Path × Entry) (here : item.1 = name) : ¬ (item.1 = source ∨ isBelow source item.1) := by
    rw [here, outside]
    simpa using apart
  have arrives (item : Path × Entry) (moves : item.1 = source ∨ isBelow source item.1) :
      target ++ item.1.drop source.length ≠ name := by
    rintro rfl
    rcases moves with same | below
    · rw [same, List.drop_length, List.append_nil] at apart'
      exact apart' rfl
    · obtain ⟨rest, split⟩ := List.isPrefixOf_iff_prefix.mp below
      have shape : item.1.drop source.length = 47 :: rest := by
        rw [← split, List.append_assoc, List.drop_left]
        rfl
      rw [shape, isBelow, Bool.eq_false_iff, ne_eq, List.isPrefixOf_iff_prefix] at beneath
      exact beneath ⟨rest, by simp⟩
  refine erased.trans (of_entry ?_ rfl)
  simp only [FileSystem.entry, FileSystem.moveDir]
  induction (fs.erase target).tree with
  | nil => rfl
  | cons item rest ih =>
    rw [List.map_cons, List.lookup_cons, List.lookup_cons, ih]
    by_cases moves : item.1 = source ∨ isBelow source item.1
    · have gone : item.1 ≠ name := fun here => stays item here moves
      rw [if_pos moves, beq_eq_false_iff_ne.mpr (Ne.symm (arrives item moves)), beq_eq_false_iff_ne.mpr gone.symm]
    · rw [if_neg moves]

/-- A name that is neither moved nor replaced, and whose directories are none of the call's business. -/
theorem rename (there : fs.Regular name) (apart : name ≠ source) (outside : isBelow source name = false)
    (apart' : name ≠ target) (above : isBelow target name = true → fs.entry target = some .dir)
    (renamed : fs.rename source target = .ok fs') : fs.Keeps name fs' := by
  obtain ⟨inode, present⟩ := there
  simp only [FileSystem.rename] at renamed
  split at renamed
  · exact absurd renamed (by simp)
  · exact absurd renamed (by simp)
  · obtain rfl := Except.ok.inj renamed
    split
    · exact refl fs name
    · exact move apart apart'
  · exact Except.ok.inj renamed ▸ move apart apart'
  · exact absurd renamed (by simp)
  · split at renamed
    · exact Except.ok.inj renamed ▸ refl fs name
    · split at renamed
      · exact absurd renamed (by simp)
      · split at renamed
        · exact absurd renamed (by simp)
        · next childless =>
          have beneath : isBelow target name = false := by
            simp only [hasChildren, List.any_eq_true, not_exists, not_and, Bool.not_eq_true] at childless
            exact childless _ (mem_of_entry present)
          exact Except.ok.inj renamed ▸ moveDir apart outside apart' beneath
  · next absent =>
    have beneath : isBelow target name = false := by
      rw [Bool.eq_false_iff]
      exact fun below => by simp [above below] at absent
    split at renamed
    · exact absurd renamed (by simp)
    · exact Except.ok.inj renamed ▸ moveDir apart outside apart' beneath

theorem link (there : fs.Regular name) (linked : fs.link source target = .ok fs') : fs.Keeps name fs' := by
  obtain ⟨inode, present⟩ := there
  simp only [FileSystem.link] at linked
  split at linked
  · exact absurd linked (by simp)
  · exact absurd linked (by simp)
  · exact absurd linked (by simp)
  · next absent =>
    have apart : name ≠ target := fun same => by simp [← same, present] at absent
    exact Except.ok.inj linked ▸ insert apart

theorem truncate {size : ℕ} (apart : ¬ fs.Same path name) (truncated : fs.truncate path size = .ok fs') :
    fs.Keeps name fs' := by
  simp only [FileSystem.truncate] at truncated
  split at truncated
  · exact absurd truncated (by simp)
  · exact absurd truncated (by simp)
  · next ino found => exact Except.ok.inj truncated ▸ write apart found _

theorem pwriteAt {offset : ℕ} {data : Bytes} (apart : ¬ fs.Same path name)
    (written : fs.pwriteAt path offset data = .ok fs') : fs.Keeps name fs' := by
  simp only [FileSystem.pwriteAt] at written
  split at written
  · next ino found => exact Except.ok.inj written ▸ write apart found _
  · exact absurd written (by simp)

theorem setattr (changed : fs.setattr path = .ok fs') : fs.Keeps name fs' := by
  simp only [FileSystem.setattr] at changed
  split at changed
  · exact Except.ok.inj changed ▸ refl fs name
  · exact absurd changed (by simp)

end Keeps

end FileSystem

end DeltaCFS
