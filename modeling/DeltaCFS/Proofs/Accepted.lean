import DeltaCFS.Proofs.Client.Named
import DeltaCFS.Proofs.Convergence
import DeltaCFS.Proofs.ServerFiles

/-! # The server accepts what it is sent

When the names of the calls fit the buffers of the server and a message fits the `uint32_t` of its size,
no assertion of `sync_send` fails, and the handler of the message finds what it needs and reports success.
-/

namespace DeltaCFS

open Bytes

variable {sn : SyncNode} {dir : Dir} {readFile : Path → Option Bytes} {server : ServerEnv} {old new : Bytes}
  {message : Message} {reply : Reply} {traced next : Traced}

/-! ## Handlers -/

/-- Only `func_delta` can return without success. -/
theorem serve_success (kind : message.fn ≠ .delta) (served : serve server dir message = .ok reply) :
    reply.success = some true := by
  simp only [serve] at served
  split at served
  · simp only [funcRename, Except.bind_eq_ok] at served
    obtain ⟨request, -, served⟩ := served
    split at served
    · exact absurd served (by simp [throw, throwThe, MonadExceptOf.throw])
    · exact congrArg Reply.success (Except.ok.inj served).symm
  · simp only [funcUnlink, Except.bind_eq_ok] at served
    obtain ⟨request, -, served⟩ := served
    exact congrArg Reply.success (Except.ok.inj served).symm
  · simp only [funcTruncate, Except.bind_eq_ok] at served
    obtain ⟨request, -, served⟩ := served
    repeat' split at served
    all_goals first
      | exact congrArg Reply.success (Except.ok.inj served).symm
      | exact absurd served (by simp [throw, throwThe, MonadExceptOf.throw, bind, Except.bind])
  · simp only [funcNewfile, Except.bind_eq_ok] at served
    obtain ⟨request, -, written, -, served⟩ := served
    exact congrArg Reply.success (Except.ok.inj served).symm
  · simp only [funcWrite, Except.bind_eq_ok] at served
    obtain ⟨request, -, served⟩ := served
    exact congrArg Reply.success (Except.ok.inj served).symm
  · next delta => exact absurd delta kind

/-- `sync_send` gets as far as sending, and the server answers with success. -/
def Accepted (readFile : Path → Option Bytes) (server : ServerEnv) (dir : Dir) (sn : SyncNode) : Prop :=
  ∃ message reply, syncSend readFile sn = .ok (some message) ∧ serve server dir message = .ok reply ∧
    reply.success = some true

theorem Accepted.of_served (sent : syncSend readFile sn = .ok (some message)) (kind : message.fn ≠ .delta)
    (returns : ∃ reply, serve server dir message = .ok reply) : Accepted readFile server dir sn := by
  obtain ⟨reply, served⟩ := returns
  exact ⟨message, reply, sent, served, serve_success kind served⟩

/-- What the message carries, with its other fields, fits the `uint32_t` that its size is computed in. -/
structure SyncNode.Small (readFile : Path → Option Bytes) (sn : SyncNode) : Prop where
  newfile : sn.op = .newfile → 8 + 2 + (sn.src.length + 1) + 4 + (sn.fileBuf.getD []).length < 2 ^ 32
  write : sn.op = .write → 16 + 2 + (sn.src.length + 1) + ((sn.bn.getD []).map recordSize).sum < 2 ^ 32
  delta : sn.op = .delta → ∀ content ∈ readFile sn.src, 24 + 2 + (sn.dst.length + 1) + 4 + content.length < 2 ^ 32

namespace SyncNode

theorem accepted_rename (op : sn.op = .rename) (named : sn.Named) (held : dir (verToName sn.baseVer) = some old) :
    Accepted readFile server dir sn := by
  have source := named.source (by simp [op])
  have target := named.target (.inl op)
  refine .of_served (syncSend_rename readFile op source target) (by simp) ⟨_, by
    simp only [serve, funcRename, readRename_sendRename source target, bind, Except.bind, held]
    rfl⟩

theorem accepted_unlink (op : sn.op = .unlink) (named : sn.Named) : Accepted readFile server dir sn := by
  have source := named.source (by simp [op])
  refine .of_served (syncSend_unlink readFile op source) (by simp) ⟨_, by
    simp only [serve, funcUnlink, readUnlink_sendUnlink source, bind, Except.bind]
    rfl⟩

theorem accepted_truncate (op : sn.op = .truncate) (named : sn.Named) (held : dir (verToName sn.baseVer) = some old)
    (apart : verToName sn.baseVer ≠ verToName sn.time) : Accepted readFile server dir sn := by
  have source := named.source (by simp [op])
  obtain ⟨reply, served, -⟩ := @funcTruncate_dir server.schedule old server.statSize dir _ _
    (readTruncate_sendTruncate source) held apart
  exact .of_served (syncSend_truncate readFile op source) (by simp) ⟨reply, served⟩

theorem accepted_newfile (op : sn.op = .newfile) (named : sn.Named) (small : sn.Small readFile)
    (buffer : sn.fileBuf = some new) (length : (sn.para 0).toNat = new.length)
    (steps : ∀ k, InStep server.schedule new k) : Accepted readFile server dir sn := by
  have source := named.source (by simp [op])
  have small := small.newfile op
  rw [buffer, Option.getD_some] at small
  have sent := syncSend_newfile readFile op source buffer length (by rw [sendNewfile_length new source]; omega)
  have loop := (@writeLoop_eq_iff server.schedule new [] new.length 0 (Nat.sub_le _ _)).mpr fun k _ => steps k
  simp only [writeBytes, List.drop_zero, List.nil_append] at loop
  have short : new.length < 2 ^ 32 := by omega
  refine .of_served sent (by simp) ⟨_, by
    simp only [serve, funcNewfile, readNewfile_sendNewfile source length short, loop, bind, Except.bind]
    rfl⟩

theorem accepted_write (op : sn.op = .write) (named : sn.Named) (small : sn.Small readFile) {records : List BufInfo}
    (buffered : sn.bn = some records) (arrives : ∀ bi ∈ records, bi.Appended ∧ bi.Arrives)
    (held : dir (verToName sn.baseVer) = some old) (based : sn.baseVer ≠ 0) : Accepted readFile server dir sn := by
  have source := named.source (by simp [op])
  have small := small.write op
  rw [buffered, Option.getD_some] at small
  have sizes (bi : BufInfo) (member : bi ∈ records) (data : Bytes) (written : bi.newbuf = some data) :
      data.length < 2 ^ 32 := by
    obtain ⟨appended, -, size⟩ := arrives bi member
    cases appended with
    | write offset saved payload isAppend same => exact Option.some.inj written ▸ size
    | truncate => exact absurd written (by simp)
  have appended (bi : BufInfo) (member : bi ∈ records) : bi.Appended := (arrives bi member).1
  have size := (writeSize_eq_length_iff source (sum_recordSize records appended sizes)).mpr small
  have sent : syncSend readFile sn = .ok (some ⟨.write, sendWrite sn records⟩) := by
    simp only [syncSend, op, buffered, sendSized, size, ↓reduceIte]
  obtain ⟨parsed, parsing, -⟩ := readRecords_flatMap records appended (fun bi member => by
    obtain ⟨data, written, offset, plain⟩ := (arrives bi member).2.1
    exact ⟨data, written, offset, plain, sizes bi member data written⟩) _ le_rfl
  have read := readWrite_sendWrite records source
  rw [if_neg based, parsing] at read
  obtain ⟨reply, served, -⟩ := funcWrite_dir read held
  exact .of_served sent (by simp) ⟨reply, served⟩

theorem accepted_delta (op : sn.op = .delta) (named : sn.Named) (small : sn.Small readFile) {delta : Bytes}
    (file : readFile sn.src = some delta) (patched : serverPatch old delta = .ok (true, new))
    (held : dir (verToName sn.baseVer) = some old) (apart : verToName sn.baseVer ≠ verToName sn.time) :
    Accepted readFile server dir sn := by
  have target := named.target (.inr op)
  have small := small.delta op delta file
  have sent := syncSend_delta op target file (by rw [sendDelta_length delta target]; omega)
  have found : dir.set (verToName sn.time) [] (verToName sn.baseVer) = some old := by rw [Dir.set, if_neg apart, held]
  have short : delta.length < 2 ^ 32 := by omega
  refine ⟨_, ⟨(dir.set (verToName sn.time) []).set (verToName sn.time) new, some true⟩, sent, ?_, rfl⟩
  simp only [serve, funcDelta, readDelta_sendDelta target short, bind, Except.bind, found, patched]
  rfl

/-- A node that finds its base is accepted, unless it is not transmitted. -/
theorem accepted (named : sn.Named) (small : sn.Small readFile) (makes : sn.Makes readFile server.schedule old new)
    (based : sn.op = .rename ∨ sn.op = .write ∨ sn.op = .truncate ∨ sn.op = .delta →
      dir (verToName sn.baseVer) = some old ∧ verToName sn.baseVer ≠ verToName sn.time ∧ sn.baseVer ≠ 0) :
    syncSend readFile sn = .ok none ∨ Accepted readFile server dir sn := by
  cases op : sn.op with
  | rename =>
    obtain ⟨held, -⟩ := based (by simp [op])
    exact .inr (accepted_rename op named held)
  | unlink => exact .inr (accepted_unlink op named)
  | truncate =>
    obtain ⟨held, apart, -⟩ := based (by simp [op])
    exact .inr (accepted_truncate op named held apart)
  | newfile =>
    obtain ⟨buffer, length, steps⟩ := makes.newfile op
    exact .inr (accepted_newfile op named small buffer length steps)
  | write =>
    obtain ⟨held, -, positive⟩ := based (by simp [op])
    obtain ⟨records, buffered, arrives, -⟩ := makes.write op
    exact .inr (accepted_write op named small buffered arrives held positive)
  | delta =>
    obtain ⟨held, apart, -⟩ := based (by simp [op])
    obtain ⟨delta, file, patched⟩ := makes.delta op
    exact .inr (accepted_delta op named small file patched held apart)
  | mknod | mkdir | symlink | rmdir | link | chmod | chown | utimens => exact .inl (by simp only [syncSend, op])

end SyncNode

/-! ## Runs -/

/-- The names of the call fit, and so does the message that it sends. -/
def SystemEvent.Fits (event : SystemEvent) (client : Client) : Prop :=
  match event with
  | .call event _ => event.call.Fits ∧ (event.call = .syncExecute →
      ∀ result, syncExecute event.env client = .ok result → ∀ sn ∈ result.1, sn.Small result.2.fs.read)
  | .restart _ => True

/-- A call that is faithful and fits. -/
def Fitting (event : SystemEvent) (traced : Traced) : Prop := Faithful event traced ∧ event.Fits traced.system.client

/-- The node that a round sends is in front of the nodes that are left. -/
theorem ChainState.sends {system : System} {env : Env} {after : Client} (chain : ChainState system)
    (executed : syncExecute env system.client = .ok (some sn, after)) :
    sn.isDelete = false ∧ after.queue.Holds fun rest =>
      Chain (heldBy system.dir) after.rel after.db after.recfsCnt.toNat (sn :: rest) := by
  refine ⟨(chain.needs_subset executed).1, ?_⟩
  rcases chain.linked.round executed with ⟨none, -⟩ | ⟨head, sends, holds, -, -⟩
  · exact absurd none (by simp)
  · split at sends
    · exact absurd sends (by simp)
    · obtain rfl := Option.some.inj sends
      exact holds

/-- No file has the version 0, which `func_write` takes for a missing base. -/
theorem ChainState.unversioned {system later : System} {event : SystemEvent} (chain : ChainState system)
    (none : system.dir (verToName 0) = none) (stepped : system.next event = .ok later) :
    later.dir (verToName 0) = .none := by
  rcases System.next_sends stepped with ⟨dir, -⟩ | ⟨env, sn, after, message, executed, -, -, frames, -⟩
  · rw [dir, none]
  obtain ⟨-, -, nodes, -, sends⟩ := chain.sends executed
  rw [frames]
  · split
    · rfl
    · exact none
  · intro version versioned same
    obtain rfl := verToName_injective same
    have above := (sends.ranked.bounds 0 (List.mem_filterMap.mpr ⟨sn, by simp, by simp [versioned]⟩)).1
    omega

/-- What every state of such a run has. -/
structure Acceptable (traced : Traced) : Prop where
  faithfully : Faithfully traced
  named : traced.system.client.queue.Holds Named
  unversioned : traced.system.dir (verToName 0) = none

namespace Acceptable

theorem initial (memory : Memory) (dirSize : Path → ℕ) : Acceptable (Traced.initial memory dirSize) :=
  ⟨.initial memory dirSize, .initial _ _ (by simp [Named]), rfl⟩

theorem step {event : SystemEvent} (acceptable : Acceptable traced) (fitting : Fitting event traced)
    (stepped : traced.next event = .ok next) : Acceptable next := by
  obtain ⟨faithful, fits⟩ := fitting
  have faithfully := acceptable.faithfully.step faithful stepped
  obtain ⟨system, ran, same⟩ := Except.bind_eq_ok.mp stepped
  obtain rfl := Except.ok.inj same
  refine ⟨faithfully, ?_, acceptable.faithfully.chain.unversioned acceptable.unversioned ran⟩
  cases event with
  | restart memory => exact absurd faithful.1.1 id
  | call event server => exact Named.step acceptable.named fits.1 (ChainState.client_next ran)

/-- The node that a round sends. -/
theorem sends {env : Env} {after : Client} (acceptable : Acceptable traced)
    (sound : Call.syncExecute.Sound env server traced.system.client traced.origin)
    (executed : syncExecute env traced.system.client = .ok (some sn, after)) (small : sn.Small after.fs.read) :
    syncSend after.fs.read sn = .ok none ∨ Accepted after.fs.read server traced.system.dir sn := by
  obtain ⟨faithfully, named, unversioned⟩ := acceptable
  obtain ⟨each, steps⟩ := sound
  obtain ⟨what, contents⟩ := faithfully.contents
  obtain ⟨carries, settled, fresh⟩ := (contents.round faithfully.chain.linked each executed).2 sn rfl
  obtain ⟨alive, -, nodes, -, chain⟩ := faithfully.chain.sends executed
  have fits : sn.Named := by
    rcases SyncQueue.Holds.syncExecute executed named (Named.packKeeps env _) with
      ⟨none, -⟩ | ⟨-, head, sends, -, rest, -, good⟩
    · exact absurd none (by simp)
    · split at sends
      · exact absurd sends (by simp)
      · exact Option.some.inj sends ▸ good head (by simp)
  refine SyncNode.accepted fits small (carries.makes alive settled (steps sn after executed)) fun based => ?_
  obtain ⟨content, held⟩ := Option.isSome_iff_exists.mp (chain.supplied.1 ⟨alive, based, rfl⟩)
  have stored := contents.stored _ _ held
  have versioned : sn.newVersion? = some sn.time := by
    rcases based with op | op | op | op
    all_goals simp [SyncNode.newVersion?, op]
  refine ⟨stored ▸ held, fun same => ?_, fun zero => ?_⟩
  · -- the server has no file of the new version yet
    exact absurd ((same ▸ held).symm.trans (fresh _ versioned)) (by simp)
  · rw [zero, unversioned] at held
    exact absurd held (by simp)

end Acceptable

instance (readFile : Path → Option Bytes) (sn : SyncNode) : Decidable (sn.Small readFile) :=
  decidable_of_iff (_ ∧ _ ∧ _) ⟨fun ⟨newfile, write, delta⟩ => ⟨newfile, write, delta⟩,
    fun small => ⟨small.newfile, small.write, small.delta⟩⟩

instance (event : SystemEvent) (client : Client) : Decidable (event.Fits client) :=
  match event with
  | .call .. => inferInstanceAs (Decidable (_ ∧ (_ → _)))
  | .restart _ => isTrue trivial

end DeltaCFS
