import DeltaCFS.Model.System
import DeltaCFS.Proofs.Wire

/-! # What the delivery of a node does to the server's directory

The versions of a message stand at fixed places in front of its names, so a handler that returns has
worked on the files of the node's versions, whatever the names are.
-/

namespace DeltaCFS

open Bytes

/-! ## Version names -/

private theorem hexDigit_injective {first second : ℕ} (small : first < 16) (small' : second < 16)
    (same : hexDigit first = hexDigit second) : first = second := by
  have table : ∀ a b : Fin 16, hexDigit a.val = hexDigit b.val → a = b := by decide
  exact congrArg Fin.val (table ⟨first, small⟩ ⟨second, small'⟩ same)

/-- A number below `16 ^ n` is given by its hexadecimal digits. -/
private theorem mod_pow_eq_of_digits {first second n : ℕ}
    (digits : ∀ k < n, first / 16 ^ k % 16 = second / 16 ^ k % 16) : first % 16 ^ n = second % 16 ^ n := by
  induction n with
  | zero => simp [Nat.mod_one]
  | succ n ih =>
    rw [Nat.pow_succ, Nat.mod_mul, Nat.mod_mul, ih fun k less => digits k (by omega), digits n (by omega)]

theorem verToName_injective {first second : UInt64} (same : verToName first = verToName second) :
    first = second := by
  refine UInt64.toNat_inj.mp ?_
  have digits : ∀ k < 16, first.toNat / 16 ^ k % 16 = second.toNat / 16 ^ k % 16 := by
    intro k less
    have place : ∀ i < 16, hexDigit (first.toNat / 16 ^ (15 - i) % 16) =
        hexDigit (second.toNat / 16 ^ (15 - i) % 16) := by
      intro i bound
      have entry := congrArg (·[i]?) same
      simpa [verToName, bound] using entry
    have digit := place (15 - k) (by omega)
    rw [show 15 - (15 - k) = k by omega] at digit
    exact hexDigit_injective (Nat.mod_lt _ (by decide)) (Nat.mod_lt _ (by decide)) digit
  have value := mod_pow_eq_of_digits digits
  rwa [Nat.mod_eq_of_lt (show first.toNat < 16 ^ 16 from first.toNat_lt),
    Nat.mod_eq_of_lt (show second.toNat < 16 ^ 16 from second.toNat_lt)] at value

/-! ## The fields in front of the names -/

theorem readVersion_sendRename (sn : SyncNode) : readVersion (sendRename sn) 0 = .ok (verToName sn.baseVer) ∧
    readVersion (sendRename sn) 8 = .ok (verToName sn.time) :=
  ⟨readVersion_append 0 [] _ _ rfl, readVersion_append 8 (word64 sn.baseVer) _ _ (by simp)⟩

theorem readVersion_sendTruncate (sn : SyncNode) : readVersion (sendTruncate sn) 0 = .ok (verToName sn.baseVer) ∧
    readVersion (sendTruncate sn) 8 = .ok (verToName sn.time) :=
  ⟨readVersion_append 0 [] _ _ rfl, readVersion_append 8 (word64 sn.baseVer) _ _ (by simp)⟩

theorem readVersion_sendWrite (sn : SyncNode) (records : List BufInfo) :
    readVersion (sendWrite sn records) 0 = .ok (verToName sn.baseVer) ∧
      readVersion (sendWrite sn records) 8 = .ok (verToName sn.time) :=
  ⟨readVersion_append 0 [] _ _ rfl, readVersion_append 8 (word64 sn.baseVer) _ _ (by simp)⟩

theorem readVersion_sendNewfile (sn : SyncNode) (payload : Bytes) :
    readVersion (sendNewfile sn payload) 0 = .ok (verToName sn.time) :=
  readVersion_append 0 [] _ _ rfl

theorem readVersion_sendDelta (sn : SyncNode) (content : Bytes) :
    readVersion (sendDelta sn content) 0 = .ok (verToName sn.baseVer) ∧
      readVersion (sendDelta sn content) 16 = .ok (verToName sn.time) := by
  refine ⟨readVersion_append 0 [] _ _ rfl, ?_⟩
  have third := readVersion_append 16 (word64 sn.baseVer ++ word64 (sn.para 0))
    (nameField sn.dst ++ (word32 content.length ++ content)) sn.time (by simp)
  simpa only [sendDelta, List.append_assoc] using third

theorem readRename_versions {workload : Bytes} {request : RenameRequest} (read : readRename workload = .ok request) :
    readVersion workload 0 = .ok request.oldver ∧ readVersion workload 8 = .ok request.newver := by
  simp only [readRename, Except.bind_eq_ok] at read
  obtain ⟨old, oldRead, new, newRead, _, _, _, _, same⟩ := read
  obtain rfl := Except.ok.inj same
  exact ⟨oldRead, newRead⟩

theorem readTruncate_versions {workload : Bytes} {request : TruncateRequest}
    (read : readTruncate workload = .ok request) :
    readVersion workload 0 = .ok request.oldver ∧ readVersion workload 8 = .ok request.newver := by
  simp only [readTruncate, Except.bind_eq_ok] at read
  obtain ⟨old, oldRead, new, newRead, _, _, _, _, same⟩ := read
  obtain rfl := Except.ok.inj same
  exact ⟨oldRead, newRead⟩

theorem readNewfile_version {workload : Bytes} {request : NewfileRequest}
    (read : readNewfile workload = .ok request) : readVersion workload 0 = .ok request.newver := by
  simp only [readNewfile, Except.bind_eq_ok] at read
  obtain ⟨new, newRead, _, _, _, _, _, _, same⟩ := read
  obtain rfl := Except.ok.inj same
  exact newRead

theorem readDelta_versions {workload : Bytes} {request : DeltaRequest} (read : readDelta workload = .ok request) :
    readVersion workload 0 = .ok request.basefile ∧ readVersion workload 16 = .ok request.newver := by
  simp only [readDelta, Except.bind_eq_ok] at read
  obtain ⟨base, baseRead, _, _, new, newRead, _, _, _, _, _, _, same⟩ := read
  obtain rfl := Except.ok.inj same
  exact ⟨baseRead, newRead⟩

theorem readWrite_versions {workload : Bytes} {request : WriteRequest} (read : readWrite workload = .ok request) :
    readVersion workload 0 = .ok request.oldver ∧ readVersion workload 8 = .ok request.newver := by
  simp only [readWrite, Except.bind_eq_ok] at read
  obtain ⟨old, oldRead, new, newRead, _, _, read⟩ := read
  split at read
  · exact absurd read (by simp [throw, throwThe, MonadExceptOf.throw, bind, Except.bind])
  · obtain ⟨_, _, read⟩ := Except.bind_eq_ok.mp read
    obtain ⟨_, _, same⟩ := Except.bind_eq_ok.mp read
    obtain rfl := Except.ok.inj same
    exact ⟨oldRead, newRead⟩

/-! ## The directory -/

/-- The operations whose messages carry a new version. -/
def SyncNode.newVersion? (sn : SyncNode) : Option UInt64 :=
  match sn.op with
  | .newfile | .write | .truncate | .rename | .delta => some sn.time
  | _ => none

/-- A message makes the file of its new version, and takes away at most the file of its base, and
that only if it is a rename or a write. -/
structure Delivers (sn : SyncNode) (dir dir' : Dir) : Prop where
  made : (dir' (verToName sn.time)).isSome
  kept : ∀ name, (dir name).isSome →
    (dir' name).isSome ∨ name = verToName sn.baseVer ∧ (sn.op = .rename ∨ sn.op = .write)
  only : ∀ name, (dir' name).isSome → (dir name).isSome ∨ name = verToName sn.time

theorem Dir.set_isSome (dir : Dir) (name content other : Bytes) :
    (dir.set name content other).isSome ↔ other = name ∨ (dir other).isSome := by
  simp only [Dir.set]
  split
  · next same => simp [same]
  · next different => simp [different]

theorem Delivers.of_set_once {sn : SyncNode} {dir : Dir} {name : Bytes} (named : name = verToName sn.time)
    (content : Bytes) : Delivers sn dir (dir.set name content) := by
  subst named
  refine ⟨by simp [Dir.set_isSome], fun other held => .inl ?_, fun other held => ?_⟩
  · simp [Dir.set_isSome, held]
  · simp only [Dir.set_isSome] at held
    tauto

theorem Dir.move_isSome {dir : Dir} {source target content : Bytes} (found : dir source = some content)
    (other : Bytes) :
    (dir.move source target content other).isSome ↔ other = target ∨ (other ≠ source ∧ (dir other).isSome) := by
  simp only [Dir.move]
  split
  · next same =>
    subst same
    by_cases here : other = source
    · simp [here, found]
    · simp [here]
  · dsimp only
    split
    · next same => simp [same]
    · next different =>
      split
      · next same => simp [same, show source ≠ target from fun equal => different (same.trans equal)]
      · next apart => simp [different, apart]

theorem Delivers.of_move {sn : SyncNode} {dir : Dir} {content : Bytes} (moves : sn.op = .rename ∨ sn.op = .write)
    (found : dir (verToName sn.baseVer) = some content) :
    Delivers sn dir (dir.move (verToName sn.baseVer) (verToName sn.time) content) := by
  refine ⟨by simp [Dir.move_isSome found], fun other held => ?_, fun other held => ?_⟩
  · by_cases base : other = verToName sn.baseVer
    · exact .inr ⟨base, moves⟩
    · exact .inl ((Dir.move_isSome found other).mpr (.inr ⟨base, held⟩))
  · rcases (Dir.move_isSome found other).mp held with new | old
    · exact .inr new
    · exact .inl old.2

/-- The new version may be written again. -/
theorem Delivers.set {sn : SyncNode} {dir dir' : Dir} (delivers : Delivers sn dir dir') (content : Bytes) :
    Delivers sn dir (dir'.set (verToName sn.time) content) := by
  refine ⟨by simp [Dir.set_isSome], fun other held => ?_, fun other held => ?_⟩
  · rcases delivers.kept other held with kept | gone
    · exact .inl ((Dir.set_isSome ..).mpr (.inr kept))
    · exact .inr gone
  · rcases (Dir.set_isSome ..).mp held with new | old
    · exact .inr new
    · exact delivers.only other old

/-- Creating the new version and writing it, as most handlers do. -/
theorem Delivers.of_set {sn : SyncNode} {dir : Dir} {name : Bytes} (named : name = verToName sn.time)
    (first second : Bytes) : Delivers sn dir ((dir.set name first).set name second) := by
  subst named
  exact (Delivers.of_set_once rfl first).set second

/-- The messages of the operations that are transmitted. -/
inductive Transmits (readFile : Path → Option Bytes) (sn : SyncNode) : Message → Prop where
  | rename : sn.op = .rename → Transmits readFile sn ⟨.rename, sendRename sn⟩
  | unlink : sn.op = .unlink → Transmits readFile sn ⟨.unlink, sendUnlink sn⟩
  | truncate : sn.op = .truncate → Transmits readFile sn ⟨.truncate, sendTruncate sn⟩
  | newfile : sn.op = .newfile → (sn.para 0).toNat ≤ (sn.fileBuf.getD []).length →
    newfileSize sn = (sendNewfile sn ((sn.fileBuf.getD []).take (sn.para 0).toNat)).length →
    Transmits readFile sn ⟨.newfile, sendNewfile sn ((sn.fileBuf.getD []).take (sn.para 0).toNat)⟩
  | write {records : List BufInfo} : sn.op = .write → sn.bn = some records →
    writeSize sn records = (sendWrite sn records).length → Transmits readFile sn ⟨.write, sendWrite sn records⟩
  | delta {content : Bytes} : sn.op = .delta → readFile sn.src = some content →
    deltaSize sn content = (sendDelta sn content).length → Transmits readFile sn ⟨.delta, sendDelta sn content⟩

private theorem sendBlob_eq {fn : Handler} {blob : Bytes} {message : Message}
    (sent : sendBlob fn blob = .ok (some message)) : message = ⟨fn, blob⟩ := by
  simp only [sendBlob] at sent
  split at sent
  · exact (Option.some.inj (Except.ok.inj sent)).symm
  · exact absurd sent (by simp)

private theorem sendSized_eq {fn : Handler} {memSize : ℕ} {written : Bytes} {message : Message}
    (sent : sendSized fn memSize written = .ok (some message)) : memSize = written.length ∧ message = ⟨fn, written⟩ := by
  simp only [sendSized] at sent
  split at sent
  · next size => exact ⟨size, (Option.some.inj (Except.ok.inj sent)).symm⟩
  · exact absurd sent (by simp)

theorem syncSend_transmits {readFile : Path → Option Bytes} {sn : SyncNode} {message : Message}
    (sent : syncSend readFile sn = .ok (some message)) : Transmits readFile sn message := by
  cases op : sn.op <;> simp only [syncSend, op] at sent
  case rename => exact sendBlob_eq sent ▸ .rename op
  case unlink => exact sendBlob_eq sent ▸ .unlink op
  case truncate => exact sendBlob_eq sent ▸ .truncate op
  case newfile =>
    split at sent
    · exact absurd sent (by simp)
    · next enough =>
      obtain ⟨size, rfl⟩ := sendSized_eq sent
      exact .newfile op (by omega) size
  case write =>
    split at sent
    · exact absurd sent (by simp)
    · next records buffered =>
      obtain ⟨size, rfl⟩ := sendSized_eq sent
      exact .write op buffered size
  case delta =>
    split at sent
    · exact absurd sent (by simp)
    · next content file =>
      obtain ⟨size, rfl⟩ := sendSized_eq sent
      exact .delta op file size
  all_goals exact absurd sent (by simp)

/-- The handlers, by what they do to the set of version files. -/
theorem serve_delivers {server : ServerEnv} {readFile : Path → Option Bytes} {sn : SyncNode} {dir : Dir}
    {message : Message} {reply : Reply} (transmits : Transmits readFile sn message)
    (served : serve server dir message = .ok reply) :
    (sn.op = .unlink ∧ reply.dir = dir) ∨ sn.newVersion? = some sn.time ∧ Delivers sn dir reply.dir := by
  cases transmits with
  | rename op =>
    simp only [serve, funcRename, Except.bind_eq_ok] at served
    obtain ⟨request, read, served⟩ := served
    obtain ⟨old, new⟩ := readRename_versions read
    rw [← Except.ok.inj ((readVersion_sendRename sn).1.symm.trans old),
      ← Except.ok.inj ((readVersion_sendRename sn).2.symm.trans new)] at served
    refine .inr ⟨by simp [SyncNode.newVersion?, op], ?_⟩
    split at served
    · exact absurd served (by simp [throw, throwThe, MonadExceptOf.throw])
    · next content found =>
      obtain rfl := Except.ok.inj served
      exact .of_move (.inl op) found
  | unlink op =>
    simp only [serve, funcUnlink, Except.bind_eq_ok] at served
    obtain ⟨-, -, same⟩ := served
    exact .inl ⟨op, congrArg Reply.dir (Except.ok.inj same).symm⟩
  | truncate op =>
    simp only [serve, funcTruncate, Except.bind_eq_ok] at served
    obtain ⟨request, read, served⟩ := served
    have new := Except.ok.inj ((readVersion_sendTruncate sn).2.symm.trans (readTruncate_versions read).2)
    have written : ∃ content, reply.dir = (dir.set request.newver []).set request.newver content := by
      repeat' split at served
      all_goals first
        | exact ⟨_, congrArg Reply.dir (Except.ok.inj served).symm⟩
        | exact absurd served (by simp [throw, throwThe, MonadExceptOf.throw, bind, Except.bind])
    obtain ⟨content, same⟩ := written
    rw [same]
    exact .inr ⟨by simp [SyncNode.newVersion?, op], .of_set new.symm _ _⟩
  | newfile op =>
    simp only [serve, funcNewfile, Except.bind_eq_ok] at served
    obtain ⟨request, read, written, -, served⟩ := served
    have new := Except.ok.inj ((readVersion_sendNewfile sn _).symm.trans (readNewfile_version read))
    obtain rfl := Except.ok.inj served
    exact .inr ⟨by simp [SyncNode.newVersion?, op], .of_set_once new.symm _⟩
  | @write records op =>
    simp only [serve, funcWrite, Except.bind_eq_ok] at served
    obtain ⟨request, read, served⟩ := served
    obtain ⟨old, new⟩ := readWrite_versions read
    rw [← Except.ok.inj ((readVersion_sendWrite sn records).1.symm.trans old),
      ← Except.ok.inj ((readVersion_sendWrite sn records).2.symm.trans new)] at served
    obtain rfl := Except.ok.inj served
    refine .inr ⟨by simp [SyncNode.newVersion?, op], ?_⟩
    dsimp only
    split
    · next content found => exact (Delivers.of_move (.inr op) found).set _
    · exact .of_set_once rfl _
  | @delta content op =>
    simp only [serve, funcDelta, Except.bind_eq_ok] at served
    obtain ⟨request, read, served⟩ := served
    have new := Except.ok.inj ((readVersion_sendDelta sn content).2.symm.trans (readDelta_versions read).2)
    refine .inr ⟨by simp [SyncNode.newVersion?, op], ?_⟩
    split at served
    · obtain rfl := Except.ok.inj served
      exact .of_set_once new.symm _
    · obtain ⟨_, -, served⟩ := Except.bind_eq_ok.mp served
      obtain rfl := Except.ok.inj served
      exact .of_set new.symm _ _

end DeltaCFS
