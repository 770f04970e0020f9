import DeltaCFS.Proofs.Librsync.RoundTrip
import DeltaCFS.Proofs.NewfileMessage
import DeltaCFS.Proofs.WriteReplay

/-! # What the delivery of a node stores

A node says how the content of its version comes from the content of its base. A handler that returns
has stored that content, whatever the names in the message are, and has changed no other file except
that it may have taken the base away.
-/

namespace DeltaCFS

open Bytes Command

variable {sn : SyncNode} {dir : Dir} {readFile : Path → Option Bytes} {server : ServerEnv} {old new content : Bytes}
  {records : List BufInfo}

/-! ## Names of any kind -/

theorem nameField_length (name : Path) : (nameField name).length = 2 + nameLen name := by
  have short : nameLen name ≤ name.length + 1 := by
    have := (name.takeWhile_prefix (p := (· ≠ 0))).length_le
    have := Nat.mod_le (strlen name + 1) (2 ^ 16)
    rw [nameLen, strlen] at *
    omega
  rw [nameField, List.length_append, ofNatLE_length, List.length_take, List.length_append, List.length_singleton]
  omega

/-- A name that can be read is read up to the end of its field. -/
theorem readName_next (offset : ℕ) (before after : Bytes) (name : Path) (start : offset = before.length)
    {result : Bytes × ℕ} (read : readName (before ++ (nameField name ++ after)) offset = .ok result) :
    result.2 = offset + (nameField name).length := by
  have small : nameLen name < 256 ^ 2 := Nat.mod_lt _ (by decide)
  have length : readLE? 2 (before ++ (nameField name ++ after)) offset = some (nameLen name) := by
    rw [nameField, List.append_assoc, readLE?_append offset before _ 2 _ start, Nat.mod_eq_of_lt small]
  simp only [readName, length, inside, Except.bind_eq_ok, Except.ok.injEq, exists_eq_left'] at read
  obtain ⟨field, -, read⟩ := read
  split at read
  · exact absurd read (by simp [throw, throwThe, MonadExceptOf.throw, bind, Except.bind])
  · rw [← Except.ok.inj read, nameField_length]
    exact Nat.add_assoc ..

theorem inside_eq_ok {α : Type} {result : Option α} {value : α} : inside result = .ok value ↔ result = some value := by
  cases result with
  | none => simp [inside]
  | some found => simp [inside]

/-! ## Fields behind the names -/

theorem readTruncate_len {request : TruncateRequest} (read : readTruncate (sendTruncate sn) = .ok request) :
    request.truncateLen = (sn.para 0).toNat % 2 ^ 32 := by
  simp only [readTruncate, Except.bind_eq_ok] at read
  obtain ⟨_, -, _, -, ⟨name, next⟩, named, length, sized, same⟩ := read
  obtain rfl := Except.ok.inj same
  have behind := readName_next 16 (word64 sn.baseVer ++ word64 sn.time) (word32 (sn.para 0).toNat) sn.src (by simp)
    (by simpa only [sendTruncate, List.append_assoc] using named)
  have field := readLE?_word32 next (word64 sn.baseVer ++ word64 sn.time ++ nameField sn.src) [] (sn.para 0).toNat
    (by simp only [List.length_append, word64_length]; omega)
  simp only [List.append_assoc, List.append_nil] at field
  rw [inside_eq_ok, sendTruncate, field] at sized
  exact (Option.some.inj sized).symm

theorem readNewfile_payload {payload : Bytes} {request : NewfileRequest}
    (read : readNewfile (sendNewfile sn payload) = .ok request) (length : (sn.para 0).toNat = payload.length)
    (small : payload.length < 2 ^ 32) : request.payload = payload := by
  simp only [readNewfile, Except.bind_eq_ok] at read
  obtain ⟨_, -, ⟨name, next⟩, named, fileLen, sized, octets, copied, same⟩ := read
  obtain rfl := Except.ok.inj same
  have behind := readName_next 8 (word64 sn.time) (word32 (sn.para 0).toNat ++ payload) sn.src (by simp)
    (by simpa only [sendNewfile, List.append_assoc] using named)
  have field := readLE?_word32 next (word64 sn.time ++ nameField sn.src) payload (sn.para 0).toNat
    (by simp only [List.length_append, word64_length]; omega)
  have whole := slice?_append (next + 4) payload.length (word64 sn.time ++ nameField sn.src ++
    word32 (sn.para 0).toNat) payload [] (by simp only [List.length_append, word64_length, word32_length]; omega) rfl
  simp only [List.append_assoc, List.append_nil] at field whole
  rw [inside_eq_ok, sendNewfile, field, length, Nat.mod_eq_of_lt small] at sized
  obtain rfl := Option.some.inj sized
  rw [inside_eq_ok, sendNewfile, whole] at copied
  exact (Option.some.inj copied).symm

theorem readDelta_delta {request : DeltaRequest} (read : readDelta (sendDelta sn content) = .ok request)
    (small : content.length < 2 ^ 32) : request.delta = content := by
  simp only [readDelta, Except.bind_eq_ok] at read
  obtain ⟨_, -, _, -, _, -, ⟨name, next⟩, named, deltaLen, sized, octets, copied, same⟩ := read
  obtain rfl := Except.ok.inj same
  have behind := readName_next 24 (word64 sn.baseVer ++ word64 (sn.para 0) ++ word64 sn.time)
    (word32 content.length ++ content) sn.dst (by simp) (by simpa only [sendDelta, List.append_assoc] using named)
  have field := readLE?_word32 next (word64 sn.baseVer ++ word64 (sn.para 0) ++ word64 sn.time ++ nameField sn.dst)
    content content.length (by simp only [List.length_append, word64_length]; omega)
  have whole := slice?_append (next + 4) content.length (word64 sn.baseVer ++ word64 (sn.para 0) ++ word64 sn.time ++
    nameField sn.dst ++ word32 content.length) content []
    (by simp only [List.length_append, word64_length, word32_length]; omega) rfl
  simp only [List.append_assoc, List.append_nil] at field whole
  rw [inside_eq_ok, sendDelta, field, Nat.mod_eq_of_lt small] at sized
  obtain rfl := Option.some.inj sized
  rw [inside_eq_ok, sendDelta, whole] at copied
  exact (Option.some.inj copied).symm

/-- The loop over the records starts behind the name. -/
theorem readWrite_records {request : WriteRequest} (read : readWrite (sendWrite sn records) = .ok request) :
    readRecords (records.flatMap sendRecord).length (records.flatMap sendRecord) = .ok request.records := by
  simp only [readWrite, Except.bind_eq_ok] at read
  obtain ⟨_, -, _, -, version, -, read⟩ := read
  split at read
  · exact absurd read (by simp [throw, throwThe, MonadExceptOf.throw, bind, Except.bind])
  · simp only [Except.bind_eq_ok] at read
    obtain ⟨⟨name, next⟩, named, parsed, parsing, same⟩ := read
    obtain rfl := Except.ok.inj same
    have behind := readName_next 16 (word64 sn.baseVer ++ word64 sn.time) (records.flatMap sendRecord) sn.src (by simp)
      (by simpa only [sendWrite, List.append_assoc] using named)
    have start : next = (word64 sn.baseVer ++ (word64 sn.time ++ nameField sn.src)).length := by
      simp only [List.length_append, word64_length]
      omega
    have left : (sendWrite sn records).drop next = records.flatMap sendRecord := by
      have split : sendWrite sn records =
          word64 sn.baseVer ++ (word64 sn.time ++ nameField sn.src) ++ records.flatMap sendRecord := by
        simp only [sendWrite, List.append_assoc]
      rw [start, split, List.drop_left]
    have count : (sendWrite sn records).length - next = (records.flatMap sendRecord).length := by
      rw [← left, List.length_drop]
    rwa [left, count] at parsing

/-! ## Records -/

/-- A record whose encoding the server reads back, and whose size is not cut. -/
def BufInfo.Arrives (bi : BufInfo) : Prop := bi.Carried ∧ bi.size < 2 ^ 32

/-- What the records of a node make of a file. -/
def applyRecords (records : List BufInfo) (file : Bytes) : Bytes := (records.map BufInfo.edit).foldl Edit.apply file

theorem applyRecords_concat (records : List BufInfo) (record : BufInfo) (file : Bytes) :
    applyRecords (records ++ [record]) file = record.edit.apply (applyRecords records file) := by
  simp [applyRecords]

/-! ## Deltas -/

/-- The server turns a delta without false hits into the new file. -/
theorem serverPatch_of_pipeline {qsort : Qsort} {sigStack searchStack : Stack} {delta : Bytes}
    (right : NoFalseHits qsort sigStack searchStack old new)
    (computed : deltaPipeline qsort sigStack searchStack (pipelineFuel old new) old new = .ok (some delta)) :
    serverPatch old delta = .ok (true, new) := by
  rcases deltaPipeline_ends qsort sigStack searchStack old new le_rfl with ⟨few, value⟩ | ⟨-, value⟩
  · obtain rfl := Option.some.inj (Except.ok.inj (computed.symm.trans value))
    exact serverPatch_of_interprets ((interpretDelta_deltaOctets few).mpr right)
  · cases computed.symm.trans value

/-! ## Contents -/

/-- How the content of the version of a node comes from the content of its base. -/
structure SyncNode.Makes (readFile : Path → Option Bytes) (schedule : Schedule) (sn : SyncNode) (old new : Bytes) :
    Prop where
  rename : sn.op = .rename → new = old
  truncate : sn.op = .truncate → new = resize ((sn.para 0).toNat % 2 ^ 32) old
  newfile : sn.op = .newfile →
    sn.fileBuf = some new ∧ (sn.para 0).toNat = new.length ∧ ∀ k, InStep schedule new k
  write : sn.op = .write → ∃ records, sn.bn = some records ∧ (∀ bi ∈ records, bi.Appended ∧ bi.Arrives) ∧
    new = applyRecords records old
  delta : sn.op = .delta → ∃ delta, readFile sn.src = some delta ∧ serverPatch old delta = .ok (true, new)

/-- The file of the version has the content, and no other file has got one. -/
def Stores (sn : SyncNode) (new : Bytes) (dir dir' : Dir) : Prop :=
  dir' (verToName sn.time) = some new ∧
    ∀ name, name ≠ verToName sn.time → ∀ content, dir' name = some content → dir name = some content

theorem Stores.of_set {name : Bytes} (named : name = verToName sn.time) (first content : Bytes) :
    Stores sn content dir ((dir.set name first).set name content) := by
  subst named
  refine ⟨by simp [Dir.set], fun name apart other held => ?_⟩
  simpa [Dir.set, apart] using held

theorem Stores.of_set_once {name : Bytes} (named : name = verToName sn.time) (content : Bytes) :
    Stores sn content dir (dir.set name content) := by
  subst named
  refine ⟨by simp [Dir.set], fun name apart other held => ?_⟩
  simpa [Dir.set, apart] using held

theorem Stores.of_move (apart : sn.baseVer ≠ sn.time) (content : Bytes) :
    Stores sn content dir (dir.move (verToName sn.baseVer) (verToName sn.time) content) := by
  have different : verToName sn.baseVer ≠ verToName sn.time := fun same => apart (verToName_injective same)
  refine ⟨by simp [Dir.move, different], fun name other content held => ?_⟩
  simp only [Dir.move, if_neg different, if_neg other] at held
  split at held
  · exact absurd held (by simp)
  · exact held

/-- The new version is written again. -/
theorem Stores.set {dir' : Dir} (stores : Stores sn old dir dir') (new : Bytes) :
    Stores sn new dir (dir'.set (verToName sn.time) new) := by
  refine ⟨by simp [Dir.set], fun name apart content held => ?_⟩
  rw [Dir.set, if_neg apart] at held
  exact stores.2 name apart content held

theorem funcNewfile_stores {payload : Bytes} {reply : Reply} {schedule : Schedule}
    (length : (sn.para 0).toNat = payload.length) (small : payload.length < 2 ^ 32)
    (steps : ∀ k, InStep schedule payload k)
    (served : funcNewfile schedule dir (sendNewfile sn payload) = .ok reply) : Stores sn payload dir reply.dir := by
  simp only [funcNewfile, Except.bind_eq_ok] at served
  obtain ⟨request, read, written, wrote, served⟩ := served
  obtain rfl := Except.ok.inj served
  have new := Except.ok.inj ((readVersion_sendNewfile sn _).symm.trans (readNewfile_version read))
  have loop := (@writeLoop_eq_iff schedule payload [] payload.length 0 (Nat.sub_le _ _)).mpr fun k _ => steps k
  simp only [writeBytes, List.drop_zero, List.nil_append] at loop
  rw [readNewfile_payload read length small, loop] at wrote
  obtain rfl := Except.ok.inj wrote
  exact .of_set_once new.symm _

theorem funcTruncate_stores {reply : Reply} (apart : sn.baseVer ≠ sn.time)
    (held : dir (verToName sn.baseVer) = some old)
    (served : funcTruncate server.schedule server.statSize dir (sendTruncate sn) = .ok reply) :
    Stores sn (resize ((sn.para 0).toNat % 2 ^ 32) old) dir reply.dir := by
  have different : verToName sn.baseVer ≠ verToName sn.time := fun same => apart (verToName_injective same)
  obtain ⟨request, read, -⟩ := Except.bind_eq_ok.mp served
  obtain ⟨oldver, newver⟩ := readTruncate_versions read
  have oldIs := Except.ok.inj ((readVersion_sendTruncate sn).1.symm.trans oldver)
  have newIs := Except.ok.inj ((readVersion_sendTruncate sn).2.symm.trans newver)
  obtain ⟨reply', served', stored, others⟩ := @funcTruncate_dir server.schedule old server.statSize dir _ _ read
    (oldIs ▸ held) (oldIs ▸ newIs ▸ different)
  obtain rfl := Except.ok.inj (served.symm.trans served')
  rw [← newIs, readTruncate_len read] at stored
  exact ⟨stored, fun name other content kept => others name (newIs ▸ other) ▸ kept⟩

theorem funcWrite_stores {reply : Reply} (apart : sn.baseVer ≠ sn.time) (held : dir (verToName sn.baseVer) = some old)
    (arrives : ∀ bi ∈ records, bi.Appended ∧ bi.Arrives)
    (served : funcWrite dir (sendWrite sn records) = .ok reply) : Stores sn (applyRecords records old) dir reply.dir := by
  simp only [funcWrite, Except.bind_eq_ok] at served
  obtain ⟨request, read, served⟩ := served
  obtain ⟨oldver, newver⟩ := readWrite_versions read
  rw [← Except.ok.inj ((readVersion_sendWrite sn _).1.symm.trans oldver),
    ← Except.ok.inj ((readVersion_sendWrite sn _).2.symm.trans newver)] at served
  simp only [held] at served
  obtain rfl := Except.ok.inj served
  obtain ⟨parsed, parse, same⟩ := readRecords_flatMap records (fun bi member => (arrives bi member).1)
    (fun bi member => by
      obtain ⟨appended, ⟨data, written, offsetFits, plain⟩, sized⟩ := arrives bi member
      refine ⟨data, written, offsetFits, plain, ?_⟩
      cases appended with
      | write offset saved payload isAppend same =>
        obtain rfl := Option.some.inj written
        exact sized
      | truncate => exact absurd written (by simp)) _ le_rfl
  obtain rfl := Except.ok.inj (parse.symm.trans (readWrite_records read))
  have moved : Stores sn old dir (dir.move (verToName sn.baseVer) (verToName sn.time) old) := .of_move apart old
  rw [moved.1, Option.getD_some, pwriteAll_eq_foldl, same]
  exact moved.set _

theorem funcDelta_stores {delta : Bytes} {reply : Reply} (apart : sn.baseVer ≠ sn.time)
    (held : dir (verToName sn.baseVer) = some old) (small : delta.length < 2 ^ 32)
    (patched : serverPatch old delta = .ok (true, new))
    (served : funcDelta serverPatch dir (sendDelta sn delta) = .ok reply) : Stores sn new dir reply.dir := by
  have different : verToName sn.baseVer ≠ verToName sn.time := fun same => apart (verToName_injective same)
  simp only [funcDelta, Except.bind_eq_ok] at served
  obtain ⟨request, read, served⟩ := served
  have base := Except.ok.inj ((readVersion_sendDelta sn _).1.symm.trans (readDelta_versions read).1)
  have version := Except.ok.inj ((readVersion_sendDelta sn _).2.symm.trans (readDelta_versions read).2)
  have found : dir.set request.newver [] request.basefile = some old := by
    rw [Dir.set, if_neg (base ▸ version ▸ different), ← base, held]
  simp only [found, readDelta_delta read small, patched, bind, Except.bind] at served
  obtain rfl := Except.ok.inj served
  exact .of_set version.symm _ _

theorem funcRename_stores {reply : Reply} (apart : sn.baseVer ≠ sn.time)
    (held : dir (verToName sn.baseVer) = some old) (served : funcRename dir (sendRename sn) = .ok reply) :
    Stores sn old dir reply.dir := by
  simp only [funcRename, Except.bind_eq_ok] at served
  obtain ⟨request, read, served⟩ := served
  obtain ⟨oldver, newver⟩ := readRename_versions read
  rw [← Except.ok.inj ((readVersion_sendRename sn).1.symm.trans oldver),
    ← Except.ok.inj ((readVersion_sendRename sn).2.symm.trans newver)] at served
  simp only [held] at served
  obtain rfl := Except.ok.inj served
  exact .of_move apart old

/-- A handler that returns has stored what the node makes of its base. -/
theorem serve_stores {message : Message} {reply : Reply} (transmits : Transmits readFile sn message)
    (served : serve server dir message = .ok reply) (versioned : sn.newVersion? = some sn.time)
    (apart : sn.op ≠ .newfile → sn.baseVer ≠ sn.time)
    (held : sn.op ≠ .newfile → dir (verToName sn.baseVer) = some old)
    (makes : sn.Makes readFile server.schedule old new) : Stores sn new dir reply.dir := by
  cases transmits with
  | rename op => exact makes.rename op ▸ funcRename_stores (apart (by simp [op])) (held (by simp [op])) served
  | unlink op => exact absurd versioned (by simp [SyncNode.newVersion?, op])
  | truncate op => exact makes.truncate op ▸ funcTruncate_stores (apart (by simp [op])) (held (by simp [op])) served
  | newfile op room size =>
    obtain ⟨buffer, length, steps⟩ := makes.newfile op
    have whole : (sn.fileBuf.getD []).take (sn.para 0).toNat = new := by
      rw [buffer, Option.getD_some, length, List.take_length]
    rw [whole] at size served
    refine funcNewfile_stores length ?_ steps served
    simp only [newfileSize, sendNewfile, List.length_append, word64_length, nameField_length, word32_length,
      length] at size
    omega
  | @write records op buffered =>
    obtain ⟨_, records', arrives, rfl⟩ := makes.write op
    obtain rfl := Option.some.inj (buffered.symm.trans records')
    exact funcWrite_stores (apart (by simp [op])) (held (by simp [op])) arrives served
  | @delta content op file size =>
    obtain ⟨delta, file', patched⟩ := makes.delta op
    obtain rfl := Option.some.inj (file.symm.trans file')
    have small : content.length < 2 ^ 32 := by
      simp only [deltaSize, sendDelta, List.length_append, word64_length, nameField_length, word32_length] at size
      omega
    exact funcDelta_stores (apart (by simp [op])) (held (by simp [op])) small patched served

end DeltaCFS
