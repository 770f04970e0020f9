import DeltaCFS.Proofs.Client.Steps

/-! # Writes that wait in one node

A sequence of writes and truncates of a file that the client buffers in the WRITE node of the first
write: the records of the node, from the contents the file had before each change, and the temporary
file `sync_pack_write` rebuilds from them.
-/

namespace DeltaCFS

open Bytes

variable {env : Env} {client after : Client} {path : Path} {slot : ℕ} {content original : Bytes}

/-! ## Changes and their records -/

/-- The change of the path a call makes. A truncate to nothing drops the node and is none of them. -/
def Change.ofCall (path : Path) : Call → Option Change
  | .write name offset data => if name = path then some (.write offset data) else none
  | .truncate name size => if name = path ∧ size ≠ 0 then some (.truncate size) else none
  | _ => none

/-- The record of a change of a file with this content. -/
def Change.record (env : Env) (content : Bytes) : Change → BufInfo
  | .write offset data =>
    let saved := pread content offset data.length
    { offset := offset
      size := data.length
      buf := some (saved ++ (List.range (data.length - saved.length)).map fun i => env.heap (saved.length + i))
      newbuf := some data
      isAppend := decide (content.length ≤ offset) }
  | .truncate size => truncateRecord size

/-- The content after changes, each made in its own environment. -/
def applyAll (original : Bytes) (changes : List (Env × Change)) : Bytes :=
  changes.foldl (fun content change => change.2.apply content) original

/-- The records of changes. -/
def recordsOf : Bytes → List (Env × Change) → List BufInfo
  | _, [] => []
  | content, (env, change) :: rest => change.record env content :: recordsOf (change.apply content) rest

theorem applyAll_append (original : Bytes) (first second : List (Env × Change)) :
    applyAll original (first ++ second) = applyAll (applyAll original first) second := List.foldl_append ..

theorem recordsOf_append (original : Bytes) (first second : List (Env × Change)) :
    recordsOf original (first ++ second) = recordsOf original first ++ recordsOf (applyAll original first) second := by
  induction first generalizing original with
  | nil => rfl
  | cons change rest ih =>
    rw [List.cons_append, recordsOf, recordsOf, ih]
    rfl

/-! ## The node -/

/-- The node of the slot waits for the path and has the records. -/
structure Buffers (slot : ℕ) (path : Path) (content : Bytes) (records : List BufInfo) (client : Client) : Prop where
  file : client.fs.read path = some content
  found : (syncFind path client.queue).1 = some ⟨path, slot⟩
  src : (client.node slot).src = path
  op : (client.node slot).op = .write
  isNewfile : (client.node slot).isNewfile = false
  bn : (client.node slot).bn = some records

/-- The record `xmp_write` makes. -/
theorem writeRecord_eq {offset : ℕ} {data : Bytes} (opens : env.openFails = false)
    (file : client.fs.read path = some content) :
    writeRecord env path offset data client = (Change.write offset data).record env content := by
  have size : client.fs.getFileSize path = content.length := by
    simp only [FileSystem.read] at file
    split at file
    · next ino found =>
      simp only [FileSystem.getFileSize, found]
      rw [← Option.some.inj file]
    · exact absurd file (by simp)
  have append : decide ((offset : ℤ) ≥ client.fs.getFileSize path) = decide (content.length ≤ offset) := by
    rw [size, decide_eq_decide]
    omega
  simp [writeRecord, Change.record, Client.opened, opens, file, append]

/-- A change of a regular file. -/
theorem read_setData {fs : FileSystem} {ino : ℕ} (found : fs.entry path = some (.file ino)) (content : Bytes) :
    (fs.setData ino content).read path = some content := by
  simp only [FileSystem.read, FileSystem.entry_setData, found]
  simp [FileSystem.setData]

theorem read_entry {fs : FileSystem} (file : fs.read path = some content) :
    ∃ ino, fs.entry path = some (.file ino) ∧ fs.data ino = content := by
  simp only [FileSystem.read] at file
  split at file
  · next ino found => exact ⟨ino, found, Option.some.inj file⟩
  · exact absurd file (by simp)

theorem pwriteAt_read {fs fs' : FileSystem} {offset : ℕ} {data : Bytes} (file : fs.read path = some content)
    (written : fs.pwriteAt path offset data = .ok fs') : fs'.read path = some (pwrite content offset data) := by
  obtain ⟨ino, found, rfl⟩ := read_entry file
  simp only [FileSystem.pwriteAt, found] at written
  rw [← Except.ok.inj written]
  exact read_setData found _

theorem truncate_read {fs fs' : FileSystem} {size : ℕ} (file : fs.read path = some content)
    (truncated : fs.truncate path size = .ok fs') : fs'.read path = some (resize size content) := by
  obtain ⟨ino, found, rfl⟩ := read_entry file
  simp only [FileSystem.truncate, found] at truncated
  rw [← Except.ok.inj truncated]
  exact read_setData found _

variable {records : List BufInfo} {res : ℤ}

/-- Appending a record to the node leaves it where it is found. -/
theorem Buffers.append {content' : Bytes} {fs : FileSystem} (buffers : Buffers slot path content records client)
    (record : BufInfo) (file : fs.read path = some content') :
    Buffers slot path content' (records ++ [record]) { client with
      fs := fs, queue := (syncFind path client.queue).2.modifyNode slot (SyncNode.appended record) } := by
  obtain ⟨cached, named⟩ := syncFind_cached buffers.found
  have node : ((syncFind path client.queue).2.modifyNode slot (SyncNode.appended record)).sq.node slot =
      { client.node slot with bn := some (records ++ [record]) } := by
    simp [SyncQueue.modifyNode, RingBuffer.modify_node, syncFind_sq, SyncNode.appended, ← Client.node.eq_1,
      buffers.isNewfile, buffers.bn]
  refine ⟨file, syncFind_of_cached cached named, ?_, ?_, ?_, ?_⟩
  · simp only [Client.node, node]
    exact buffers.src
  · simp only [Client.node, node]
    exact buffers.op
  · simp only [Client.node, node]
    exact buffers.isNewfile
  · simp only [Client.node, node]

theorem Buffers.write {offset : ℕ} {data : Bytes} (buffers : Buffers slot path content records client)
    (handled : xmpWrite env path offset data client = .ok (res, after)) (succeeded : 0 ≤ res) :
    Buffers slot path (pwrite content offset data) (records ++ [(Change.write offset data).record env content])
      after := by
  obtain ⟨synced, syncing, ⟨failed, -⟩ | ⟨fs, opens, written, -, rfl⟩⟩ := xmpWrite_eq_ok handled
  · omega
  · rcases writeSync_eq_ok syncing with ⟨sh, hit, rfl⟩ | ⟨miss, -⟩
    · obtain rfl := Option.some.inj (buffers.found.symm.trans hit)
      rw [writeRecord_eq opens buffers.file]
      exact buffers.append _ (pwriteAt_read buffers.file written)
    · exact absurd (miss.symm.trans buffers.found) (by simp)

theorem Buffers.truncate {size : ℕ} (buffers : Buffers slot path content records client) (positive : size ≠ 0)
    (handled : xmpTruncate env path size client = .ok (res, after)) (succeeded : 0 ≤ res) :
    Buffers slot path (resize size content) (records ++ [truncateRecord size]) after := by
  obtain ⟨synced, syncing, ⟨failed, -⟩ | ⟨fs, truncated, -, rfl⟩⟩ := xmpTruncate_eq_ok handled
  · omega
  · rcases truncateSync_eq_ok syncing with ⟨zero, -⟩ | ⟨-, sh, hit, rfl⟩ | ⟨-, miss, -⟩
    · exact absurd zero positive
    · obtain rfl := Option.some.inj (buffers.found.symm.trans hit)
      exact buffers.append _ (truncate_read buffers.file truncated)
    · exact absurd (miss.symm.trans buffers.found) (by simp)

/-- The first write makes the node, at the tail of the queue. -/
theorem Buffers.first {offset : ℕ} {data : Bytes} (absent : (syncFind path client.queue).1 = none)
    (file : client.fs.read path = some content)
    (handled : xmpWrite env path offset data client = .ok (res, after)) (succeeded : 0 ≤ res) :
    Buffers client.queue.sq.tail path (pwrite content offset data) [(Change.write offset data).record env content]
      after := by
  obtain ⟨synced, syncing, ⟨failed, -⟩ | ⟨fs, opens, written, -, rfl⟩⟩ := xmpWrite_eq_ok handled
  · omega
  · rcases writeSync_eq_ok syncing with ⟨sh, hit, -⟩ | ⟨-, version, queue, -, queued, rfl⟩
    · exact absurd (absent.symm.trans hit) (by simp)
    · rw [syncFind_eq_self absent, syncEnqueue] at queued
      split at queued
      · obtain rfl := Except.ok.inj queued
        have miss : ¬ (client.queue.hashCacheResult.isSome && decide (client.queue.hashCachePath = path)) = true := by
          intro cached
          simp only [syncFind, if_pos cached] at absent
          simp [absent] at cached
        refine ⟨pwriteAt_read file written, ?_, ?_, ?_, ?_, ?_⟩
        · simp only [syncFind]
          rw [if_neg miss]
          simp [Op.isBuffered]
        all_goals simp [Client.node, RingBuffer.push, SyncNode.enqueued, writeRecord_eq opens file]
      · exact absurd queued (by simp)

/-! ## The temporary file -/

/-- What `create_tmp` leaves in its file: nothing is created under the name of a directory, and a copy
of the file onto itself is empty. -/
def createTmp (fs : FileSystem) (path : Path) : Option Bytes :=
  if fs.entry (tmpPath path) = some .dir then none
  else if fs.entry (tmpPath path) = fs.entry path then some []
  else fs.read path

/-- The files when `sync_pack_write` calls `compute_delta` for the writes of a node. -/
def rebuildTmp (slot : ℕ) (client : Client) : Option FileSystem := do
  let sn := client.node slot
  let fs ← copyfile sn.src (tmpPath sn.src) client.fs
  fs.store (tmpPath sn.src) (undoWrites (sn.bn.getD []) ((fs.read (tmpPath sn.src)).getD []))

/-- The temporary file of these. -/
def rebuiltTmp (slot : ℕ) (client : Client) : Option Bytes := do
  let fs ← rebuildTmp slot client
  fs.read (tmpPath (client.node slot).src)

/-- The delta branch of `sync_pack_write` computes its delta from the rebuilt file. -/
theorem packWrite_of_delta (env : Env) {slot : ℕ} {client : Client}
    (delta : sendsWrite ((client.node slot).bn.getD []) (client.fs.getFileSize (client.node slot).src) = false) :
    packWrite env slot client = do
      let fs ← require .delta (rebuildTmp slot client)
      let src := (client.node slot).src
      let (deltaFile, client) ← computeDelta env (tmpPath src) src src { client with fs := fs }
      let client := client.modifyNode slot fun sn => sn.packedDelta deltaFile sn.baseVer sn.baseVer
      return { client with fs := client.fs.remove (tmpPath src) } := by
  simp only [packWrite, delta, rebuildTmp, Bool.false_eq_true, if_false]
  cases copyfile (client.node slot).src (tmpPath (client.node slot).src) client.fs with
  | none => rfl
  | some copied => rfl

/-- What a file holds after a file has been opened for writing: nothing, if they are the same. -/
theorem store_nil_read {fs opened : FileSystem} {target : Path} {ino : ℕ} (found : fs.entry path = some (.file ino))
    (allocated : ino < fs.nextIno) (stored : fs.store target [] = some opened) :
    opened.read path = if fs.entry target = fs.entry path then some [] else fs.read path := by
  simp only [FileSystem.store] at stored
  split at stored
  · exact absurd stored (by simp)
  · next other named =>
    obtain rfl := Option.some.inj stored
    rw [named, found]
    split
    · next same =>
      obtain rfl : other = ino := by simpa using same
      exact read_setData found []
    · next different =>
      have apart : ino ≠ other := fun same => different (by rw [same])
      simp only [FileSystem.read, FileSystem.entry_setData, found]
      simp [FileSystem.setData, Function.update_of_ne apart]
  · next absent =>
    obtain rfl := Option.some.inj stored
    have different : path ≠ target := fun same => by simp [← same, found] at absent
    rw [absent, found, if_neg (by simp)]
    simp only [FileSystem.read, FileSystem.entry_create, if_neg different, found]
    simp [FileSystem.create, FileSystem.setData, FileSystem.insert, Function.update_of_ne allocated.ne]

/-- A regular file can be opened for writing. -/
theorem store_of_stored {fs opened : FileSystem} {target : Path} {first : Bytes}
    (stored : fs.store target first = some opened) (second : Bytes) :
    ∃ again, opened.store target second = some again ∧ again.read target = some second := by
  obtain ⟨⟨ino, found, -⟩, -⟩ := FileSystem.entry_store stored
  refine ⟨opened.setData ino second, ?_, read_setData found second⟩
  simp only [FileSystem.store, found]

/-- Undoing the records in the copy gives the rebuilt file. -/
theorem rebuiltTmp_eq {ino : ℕ} (found : client.fs.entry (client.node slot).src = some (.file ino))
    (allocated : ino < client.fs.nextIno) :
    rebuiltTmp slot client =
      (createTmp client.fs (client.node slot).src).map (undoWrites ((client.node slot).bn.getD [])) := by
  generalize source : (client.node slot).src = src at found ⊢
  by_cases dir : client.fs.entry (tmpPath src) = some .dir
  · simp [rebuiltTmp, rebuildTmp, copyfile, FileSystem.store, createTmp, source, dir]
  · obtain ⟨opened, opens⟩ : ∃ opened, client.fs.store (tmpPath src) [] = some opened := by
      simp only [FileSystem.store]
      split
      · next isDir => exact absurd isDir dir
      · exact ⟨_, rfl⟩
      · exact ⟨_, rfl⟩
    have copied := store_nil_read found allocated opens
    obtain ⟨copy, copies, holds⟩ := store_of_stored opens ((opened.read src).getD [])
    obtain ⟨undone, undoes, rebuilt⟩ := store_of_stored copies
      (undoWrites ((client.node slot).bn.getD []) ((opened.read src).getD []))
    have file : client.fs.read src = some (client.fs.data ino) := by simp only [FileSystem.read, found]
    have whole : createTmp client.fs src = some ((opened.read src).getD []) := by
      rw [createTmp, if_neg dir, copied]
      split
      · rfl
      · rw [file, Option.getD_some]
    simp [rebuiltTmp, rebuildTmp, copyfile, source, opens, copies, holds, undoes, rebuilt, whole]

/-! ## Runs -/

/-- The call touches neither the file nor its node. -/
def Leaves (slot : ℕ) (path : Path) (event : Event) (client : Client) : Prop :=
  ∀ next, client.next event = .ok next → next.fs.read path = client.fs.read path ∧
    (syncFind path next.queue).1 = (syncFind path client.queue).1 ∧ next.node slot = client.node slot

/-- The call changes the file and returns no error, or it is about something else. -/
def BuffersCall (slot : ℕ) (path : Path) (event : Event) (client : Client) : Prop :=
  match Change.ofCall path event.call with
  | some _ => client.Succeeds event
  | none => Leaves slot path event client

/-- A successful change of the file. -/
def ChangesFile (path : Path) (event : Event) (client : Client) : Prop :=
  (Change.ofCall path event.call).isSome = true ∧ client.Succeeds event

instance (path : Path) (event : Event) (client : Client) : Decidable (ChangesFile path event client) :=
  have : Decidable (client.Succeeds event) :=
    inferInstanceAs (Decidable (∀ outcome, client.step event.env event.call = .ok outcome → 0 ≤ outcome.res))
  inferInstanceAs (Decidable (_ ∧ _))

theorem ChangesFile.buffers (slot : ℕ) (path : Path) (event : Event) (client : Client)
    (changes : ChangesFile path event client) : BuffersCall slot path event client := by
  obtain ⟨isChange, succeeds⟩ := changes
  obtain ⟨change, same⟩ := Option.isSome_iff_exists.mp isChange
  simpa only [BuffersCall, same] using succeeds

/-- The changes of the path among events. -/
def changesOf (path : Path) (events : List Event) : List (Env × Change) :=
  events.filterMap fun event => (Change.ofCall path event.call).map fun change => (event.env, change)

/-- One call. -/
theorem Buffers.step {event : Event} (buffers : Buffers slot path content records client)
    (allowed : BuffersCall slot path event client) (stepped : client.next event = .ok after) :
    Buffers slot path (applyAll content (changesOf path [event]))
      (records ++ recordsOf content (changesOf path [event])) after := by
  obtain ⟨env, call⟩ := event
  cases change : Change.ofCall path call with
  | none =>
    simp only [BuffersCall, change] at allowed
    obtain ⟨file, found, node⟩ := allowed after stepped
    simp only [changesOf, List.filterMap_cons, change, Option.map_none, List.filterMap_nil, recordsOf, applyAll,
      List.foldl_nil, List.append_nil]
    exact ⟨file.trans buffers.file, found.trans buffers.found, node ▸ buffers.src, node ▸ buffers.op,
      node ▸ buffers.isNewfile, node ▸ buffers.bn⟩
  | some made =>
    simp only [BuffersCall, change] at allowed
    obtain ⟨outcome, ran, rfl⟩ := next_eq_ok stepped
    have succeeded := allowed outcome ran
    simp only [changesOf, List.filterMap_cons, change, Option.map_some, List.filterMap_nil, recordsOf, applyAll,
      List.foldl_cons, List.foldl_nil]
    cases call with
    | write name offset data =>
      simp only [Change.ofCall, Option.ite_none_right_eq_some, Option.some.injEq] at change
      obtain ⟨rfl, rfl⟩ := change
      exact buffers.write (ofHandled_eq_ok ran).1 succeeded
    | truncate name size =>
      simp only [Change.ofCall, Option.ite_none_right_eq_some, Option.some.injEq] at change
      obtain ⟨⟨rfl, positive⟩, rfl⟩ := change
      exact buffers.truncate positive (ofHandled_eq_ok ran).1 succeeded
    | _ => simp [Change.ofCall] at change

/-- A run of calls. -/
theorem Buffers.replay (events : List Event) (buffers : Buffers slot path content records client)
    (allowed : Transition.AllAllowed Client.next (BuffersCall slot path) events client)
    (replayed : Transition.replay Client.next events client = .ok after) :
    Buffers slot path (applyAll content (changesOf path events))
      (records ++ recordsOf content (changesOf path events)) after := by
  induction events generalizing client content records with
  | nil =>
    obtain rfl := Except.ok.inj replayed
    simpa [changesOf, applyAll, recordsOf] using buffers
  | cons event rest ih =>
    obtain ⟨next, stepped, replayed⟩ := Except.bind_eq_ok.mp replayed
    have split : changesOf path (event :: rest) = changesOf path [event] ++ changesOf path rest :=
      List.filterMap_append (l := [event])
    rw [split, applyAll_append, recordsOf_append, ← List.append_assoc]
    exact ih (buffers.step allowed.1 stepped) (allowed.2 next stepped) replayed

end DeltaCFS
