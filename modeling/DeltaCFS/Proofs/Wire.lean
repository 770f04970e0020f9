import DeltaCFS.Model.Server

/-! # The server reads what the client writes

Each field reader of the server inverts the corresponding field of `sync_send` at any position of a
workload; the five fixed layouts are then read by following the concatenation. Names are limited by
the server's buffers, the sized messages by the `uint32_t` size computation.
-/

namespace DeltaCFS

open Bytes

/-- A NUL-free name whose terminated form fits `MAXNAMELEN`. -/
def FitsName (name : Path) : Prop := 0 ∉ name ∧ name.length ≤ 255

instance : DecidablePred FitsName := fun name => inferInstanceAs (Decidable (0 ∉ name ∧ name.length ≤ 255))

/-! ## Field readers -/

theorem FitsName.strlen {name : Path} (fits : FitsName name) : strlen name = name.length := by
  have all : name.takeWhile (· ≠ 0) = name := by
    apply List.takeWhile_eq_self_iff.mpr
    intro byte member
    simpa using fun zero : byte = 0 => fits.1 (zero ▸ member)
  rw [DeltaCFS.strlen, all]

theorem FitsName.nameLen {name : Path} (fits : FitsName name) : nameLen name = name.length + 1 := by
  have short := fits.2
  rw [DeltaCFS.nameLen, fits.strlen]
  omega

theorem FitsName.nameField {name : Path} (fits : FitsName name) :
    nameField name = ofNatLE 2 (name.length + 1) ++ (name ++ [0]) := by
  rw [DeltaCFS.nameField, fits.nameLen, List.take_of_length_le (by simp)]

theorem FitsName.nameField_length {name : Path} (fits : FitsName name) :
    (DeltaCFS.nameField name).length = name.length + 3 := by
  rw [fits.nameField]
  simp only [List.length_append, ofNatLE_length, List.length_cons, List.length_nil]
  omega

@[simp] theorem word64_length (value : UInt64) : (word64 value).length = 8 := ofNatLE_length _ _

@[simp] theorem word32_length (value : ℕ) : (word32 value).length = 4 := ofNatLE_length _ _

theorem readLE?_word64 (offset : ℕ) (before after : Bytes) (version : UInt64)
    (start : offset = before.length) :
    readLE? 8 (before ++ (word64 version ++ after)) offset = some version.toNat := by
  rw [word64, readLE?_append offset before after 8 version.toNat start, Nat.mod_eq_of_lt]
  exact version.toNat_lt

theorem readVersion_append (offset : ℕ) (before after : Bytes) (version : UInt64)
    (start : offset = before.length) :
    readVersion (before ++ (word64 version ++ after)) offset = .ok (verToName version) := by
  rw [readVersion, readLE?_word64 offset before after version start]
  exact congrArg (fun value => Except.ok (verToName value)) UInt64.ofNat_toNat

theorem readLE?_word32 (offset : ℕ) (before after : Bytes) (value : ℕ) (start : offset = before.length) :
    readLE? 4 (before ++ (word32 value ++ after)) offset = some (value % 2 ^ 32) :=
  readLE?_append offset before after 4 value start

theorem readName_append (offset : ℕ) (before after : Bytes) {name : Path} (fits : FitsName name)
    (start : offset = before.length) :
    readName (before ++ (nameField name ++ after)) offset = .ok (name, offset + name.length + 3) := by
  have short := fits.2
  have length : readLE? 2 (before ++ (nameField name ++ after)) offset = some (name.length + 1) := by
    rw [fits.nameField, List.append_assoc, readLE?_append offset before _ 2 _ start, Nat.mod_eq_of_lt (by omega)]
  have field : slice? (before ++ (nameField name ++ after)) (offset + 2) (name.length + 1) =
      some (name ++ [0]) := by
    have shifted := slice?_append (offset + 2) (name.length + 1) (before ++ ofNatLE 2 (name.length + 1))
      (name ++ [0]) after (by simp [start]) (by simp)
    simpa only [fits.nameField, List.append_assoc] using shifted
  have text : (name ++ [0]).takeWhile (· ≠ 0) = name := by
    have all := fits.strlen
    rw [strlen] at all
    rw [List.takeWhile_append, if_pos all, List.takeWhile_cons_of_neg (by decide), List.append_nil]
  simp only [readName, length, inside, field, bind, Except.bind, text, maxNameLen,
    if_neg (show ¬ 256 < name.length + 1 by omega), pure, Except.pure, Except.ok.injEq, Prod.mk.injEq,
    true_and]
  omega

/-! ## The fixed layouts -/

theorem sendRename_length {sn : SyncNode} (source : FitsName sn.src) (target : FitsName sn.dst) :
    (sendRename sn).length = 16 + sn.src.length + 3 + sn.dst.length + 3 := by
  simp only [sendRename, List.length_append, word64_length, source.nameField_length,
    target.nameField_length]
  omega

theorem sendUnlink_length {sn : SyncNode} (source : FitsName sn.src) :
    (sendUnlink sn).length = 8 + sn.src.length + 3 := by
  simp only [sendUnlink, List.length_append, word64_length, source.nameField_length]
  omega

theorem sendTruncate_length {sn : SyncNode} (source : FitsName sn.src) :
    (sendTruncate sn).length = 16 + sn.src.length + 3 + 4 := by
  simp only [sendTruncate, List.length_append, word64_length, word32_length, source.nameField_length]
  omega

theorem sendNewfile_length {sn : SyncNode} (payload : Bytes) (source : FitsName sn.src) :
    (sendNewfile sn payload).length = 8 + sn.src.length + 3 + 4 + payload.length := by
  simp only [sendNewfile, List.length_append, word64_length, word32_length, source.nameField_length]
  omega

theorem sendDelta_length {sn : SyncNode} (content : Bytes) (target : FitsName sn.dst) :
    (sendDelta sn content).length = 24 + sn.dst.length + 3 + 4 + content.length := by
  simp only [sendDelta, List.length_append, word64_length, word32_length, target.nameField_length]
  omega

theorem readRename_sendRename {sn : SyncNode} (source : FitsName sn.src) (target : FitsName sn.dst) :
    readRename (sendRename sn) =
      .ok ⟨verToName sn.baseVer, verToName sn.time, sn.src, sn.dst, (sendRename sn).length⟩ := by
  have old := readVersion_append 0 [] (word64 sn.time ++ (nameField sn.src ++ nameField sn.dst)) sn.baseVer rfl
  have new := readVersion_append 8 (word64 sn.baseVer) (nameField sn.src ++ nameField sn.dst) sn.time (by simp)
  have fromName := readName_append 16 (word64 sn.baseVer ++ word64 sn.time) (nameField sn.dst) source (by simp)
  have toName := readName_append (16 + sn.src.length + 3)
    (word64 sn.baseVer ++ word64 sn.time ++ nameField sn.src) [] target
    (by simp [source.nameField_length]; omega)
  have narrow : (16 + sn.src.length + 3) % 2 ^ 16 = 16 + sn.src.length + 3 := by
    have := source.2; omega
  have size : (sendRename sn).length = (16 + sn.src.length + 3 + sn.dst.length + 3) % 2 ^ 16 := by
    have := source.2
    have := target.2
    rw [sendRename_length source target]
    omega
  simp only [List.nil_append, List.append_assoc, List.append_nil] at old new fromName toName
  rw [size]
  simp only [readRename, sendRename, old, new, fromName, narrow, toName, bind, Except.bind, pure, Except.pure]

theorem readUnlink_sendUnlink {sn : SyncNode} (source : FitsName sn.src) :
    readUnlink (sendUnlink sn) = .ok ⟨verToName sn.time, sn.src, (sendUnlink sn).length⟩ := by
  have old := readVersion_append 0 [] (nameField sn.src) sn.time rfl
  have name := readName_append 8 (word64 sn.time) [] source (by simp)
  have size : (sendUnlink sn).length = (8 + sn.src.length + 3) % 2 ^ 16 := by
    have := source.2
    rw [sendUnlink_length source]
    omega
  simp only [List.nil_append, List.append_nil] at old name
  rw [size]
  simp only [readUnlink, sendUnlink, old, name, bind, Except.bind, pure, Except.pure]

theorem readTruncate_sendTruncate {sn : SyncNode} (source : FitsName sn.src) :
    readTruncate (sendTruncate sn) =
      .ok ⟨verToName sn.baseVer, verToName sn.time, sn.src, (sn.para 0).toNat % 2 ^ 32,
        (sendTruncate sn).length⟩ := by
  have old := readVersion_append 0 []
    (word64 sn.time ++ (nameField sn.src ++ word32 (sn.para 0).toNat)) sn.baseVer rfl
  have new := readVersion_append 8 (word64 sn.baseVer) (nameField sn.src ++ word32 (sn.para 0).toNat)
    sn.time (by simp)
  have name := readName_append 16 (word64 sn.baseVer ++ word64 sn.time) (word32 (sn.para 0).toNat) source
    (by simp)
  have length := readLE?_word32 (16 + sn.src.length + 3)
    (word64 sn.baseVer ++ word64 sn.time ++ nameField sn.src) []
    (sn.para 0).toNat (by simp [source.nameField_length]; omega)
  simp only [List.nil_append, List.append_assoc, List.append_nil] at old new name length
  rw [sendTruncate_length source]
  simp only [readTruncate, sendTruncate, old, new, name, length, inside, bind, Except.bind, pure, Except.pure]

theorem readNewfile_sendNewfile {sn : SyncNode} {payload : Bytes} (source : FitsName sn.src)
    (para : (sn.para 0).toNat = payload.length) (small : payload.length < 2 ^ 32) :
    readNewfile (sendNewfile sn payload) =
      .ok ⟨verToName sn.time, sn.src, payload, (sendNewfile sn payload).length⟩ := by
  have new := readVersion_append 0 [] (nameField sn.src ++ (word32 (sn.para 0).toNat ++ payload)) sn.time rfl
  have name := readName_append 8 (word64 sn.time) (word32 (sn.para 0).toNat ++ payload) source (by simp)
  have length := readLE?_word32 (8 + sn.src.length + 3) (word64 sn.time ++ nameField sn.src) payload
    (sn.para 0).toNat (by simp [source.nameField_length]; omega)
  have content := slice?_append (8 + sn.src.length + 3 + 4) payload.length
    (word64 sn.time ++ nameField sn.src ++ word32 (sn.para 0).toNat) payload []
    (by simp [source.nameField_length]; omega) rfl
  simp only [List.nil_append, List.append_assoc, List.append_nil] at new name length content
  rw [para] at new name length content
  rw [Nat.mod_eq_of_lt small] at length
  rw [sendNewfile_length payload source]
  simp only [readNewfile, sendNewfile, para, new, name, length, content, inside, bind, Except.bind, pure,
    Except.pure]

theorem readDelta_sendDelta {sn : SyncNode} {content : Bytes} (target : FitsName sn.dst)
    (small : content.length < 2 ^ 32) :
    readDelta (sendDelta sn content) =
      .ok ⟨verToName sn.baseVer, verToName (sn.para 0), verToName sn.time, sn.dst, content,
        (sendDelta sn content).length⟩ := by
  have base := readVersion_append 0 [] (word64 (sn.para 0) ++ (word64 sn.time ++
    (nameField sn.dst ++ (word32 content.length ++ content)))) sn.baseVer rfl
  have old := readVersion_append 8 (word64 sn.baseVer) (word64 sn.time ++
    (nameField sn.dst ++ (word32 content.length ++ content))) (sn.para 0) (by simp)
  have new := readVersion_append 16 (word64 sn.baseVer ++ word64 (sn.para 0))
    (nameField sn.dst ++ (word32 content.length ++ content)) sn.time (by simp)
  have name := readName_append 24 (word64 sn.baseVer ++ word64 (sn.para 0) ++ word64 sn.time)
    (word32 content.length ++ content) target (by simp)
  have length := readLE?_word32 (24 + sn.dst.length + 3)
    (word64 sn.baseVer ++ word64 (sn.para 0) ++ word64 sn.time ++ nameField sn.dst) content content.length
    (by simp [target.nameField_length]; omega)
  have payload := slice?_append (24 + sn.dst.length + 3 + 4) content.length
    (word64 sn.baseVer ++ word64 (sn.para 0) ++ word64 sn.time ++
    nameField sn.dst ++ word32 content.length) content []
    (by simp [target.nameField_length]; omega) rfl
  simp only [List.nil_append, List.append_assoc, List.append_nil] at base old new name length payload
  rw [Nat.mod_eq_of_lt small] at length
  rw [sendDelta_length content target]
  simp only [readDelta, sendDelta, base, old, new, name, length, payload, inside, bind, Except.bind, pure,
    Except.pure]

/-! ## Sending -/

theorem syncSend_rename (readFile : Path → Option Bytes) {sn : SyncNode} (op : sn.op = .rename)
    (source : FitsName sn.src) (target : FitsName sn.dst) :
    syncSend readFile sn = .ok (some ⟨.rename, sendRename sn⟩) := by
  have small : (sendRename sn).length < blobSize := by
    have := source.2
    have := target.2
    rw [sendRename_length source target, blobSize]
    omega
  simp only [syncSend, op, sendBlob, if_pos small]

theorem syncSend_unlink (readFile : Path → Option Bytes) {sn : SyncNode} (op : sn.op = .unlink)
    (source : FitsName sn.src) : syncSend readFile sn = .ok (some ⟨.unlink, sendUnlink sn⟩) := by
  have small : (sendUnlink sn).length < blobSize := by
    have := source.2
    rw [sendUnlink_length source, blobSize]
    omega
  simp only [syncSend, op, sendBlob, if_pos small]

theorem syncSend_truncate (readFile : Path → Option Bytes) {sn : SyncNode} (op : sn.op = .truncate)
    (source : FitsName sn.src) : syncSend readFile sn = .ok (some ⟨.truncate, sendTruncate sn⟩) := by
  have small : (sendTruncate sn).length < blobSize := by
    have := source.2
    rw [sendTruncate_length source, blobSize]
    omega
  simp only [syncSend, op, sendBlob, if_pos small]

theorem newfileSize_eq {sn : SyncNode} {payload : Bytes} (source : FitsName sn.src)
    (para : (sn.para 0).toNat = payload.length) (small : (sendNewfile sn payload).length < 2 ^ 32) :
    newfileSize sn = (sendNewfile sn payload).length := by
  rw [sendNewfile_length payload source] at small ⊢
  rw [newfileSize, source.nameLen, para, Nat.mod_eq_of_lt (by omega)]
  omega

theorem syncSend_newfile (readFile : Path → Option Bytes) {sn : SyncNode} {payload : Bytes}
    (op : sn.op = .newfile) (source : FitsName sn.src) (buffer : sn.fileBuf = some payload)
    (para : (sn.para 0).toNat = payload.length) (small : (sendNewfile sn payload).length < 2 ^ 32) :
    syncSend readFile sn = .ok (some ⟨.newfile, sendNewfile sn payload⟩) := by
  simp only [syncSend, op, buffer, Option.getD_some, para, lt_self_iff_false, ↓reduceIte, List.take_length,
    sendSized, newfileSize_eq source para small]

theorem deltaSize_eq {sn : SyncNode} {content : Bytes} (target : FitsName sn.dst)
    (small : (sendDelta sn content).length < 2 ^ 32) :
    deltaSize sn content = (sendDelta sn content).length := by
  rw [sendDelta_length content target] at small ⊢
  rw [deltaSize, target.nameLen, Nat.mod_eq_of_lt (by omega)]
  omega

theorem syncSend_delta {readFile : Path → Option Bytes} {sn : SyncNode} {content : Bytes}
    (op : sn.op = .delta) (target : FitsName sn.dst) (file : readFile sn.src = some content)
    (small : (sendDelta sn content).length < 2 ^ 32) :
    syncSend readFile sn = .ok (some ⟨.delta, sendDelta sn content⟩) := by
  simp only [syncSend, op, file, sendSized, deltaSize_eq target small, ↓reduceIte]

theorem intPara_toNat_mod (size : ℕ) : (intPara size).toNat % 2 ^ 32 = size % 2 ^ 32 := by
  have low : ((BitVec.ofNat 32 size).signExtend 64).setWidth 32 = BitVec.ofNat 32 size := by
    apply BitVec.eq_of_getLsbD_eq
    intro i bound
    simp only [BitVec.getLsbD_setWidth, BitVec.getLsbD_signExtend, bound, decide_true, Bool.true_and,
      ↓reduceIte, show i < 64 by omega]
  have value := congrArg BitVec.toNat low
  rw [BitVec.toNat_setWidth, BitVec.toNat_ofNat] at value
  exact value

/-- The server decodes the five fixed layouts: the client's size computation equals what it writes,
and the handler finds the node's versions, names, length and payload, the last field ending exactly
at the end of the workload. A truncate length is stored in `para[0]` as it is or through `(int)`. -/
theorem fixed_layouts_round_trip (readFile : Path → Option Bytes) (sn : SyncNode) :
    (sn.op = .rename → FitsName sn.src → FitsName sn.dst →
      ∃ workload, syncSend readFile sn = .ok (some ⟨.rename, workload⟩) ∧
        readRename workload = .ok ⟨verToName sn.baseVer, verToName sn.time, sn.src, sn.dst, workload.length⟩) ∧
    (sn.op = .unlink → FitsName sn.src →
      ∃ workload, syncSend readFile sn = .ok (some ⟨.unlink, workload⟩) ∧
        readUnlink workload = .ok ⟨verToName sn.time, sn.src, workload.length⟩) ∧
    (∀ len < 2 ^ 32, sn.op = .truncate → FitsName sn.src →
      sn.para 0 = UInt64.ofNat len ∨ sn.para 0 = intPara len →
      ∃ workload, syncSend readFile sn = .ok (some ⟨.truncate, workload⟩) ∧
        readTruncate workload =
          .ok ⟨verToName sn.baseVer, verToName sn.time, sn.src, len, workload.length⟩) ∧
    (∀ payload, sn.op = .newfile → FitsName sn.src → sn.fileBuf = some payload →
      sn.para 0 = UInt64.ofNat payload.length → (sendNewfile sn payload).length < 2 ^ 32 →
      ∃ workload, syncSend readFile sn = .ok (some ⟨.newfile, workload⟩) ∧
        newfileSize sn = workload.length ∧
        readNewfile workload = .ok ⟨verToName sn.time, sn.src, payload, workload.length⟩) ∧
    (∀ content, sn.op = .delta → FitsName sn.dst → readFile sn.src = some content →
      (sendDelta sn content).length < 2 ^ 32 →
      ∃ workload, syncSend readFile sn = .ok (some ⟨.delta, workload⟩) ∧
        deltaSize sn content = workload.length ∧
        readDelta workload =
          .ok ⟨verToName sn.baseVer, verToName (sn.para 0), verToName sn.time, sn.dst, content,
            workload.length⟩) := by
  refine ⟨?_, ?_, ?_, ?_, ?_⟩
  · intro op source target
    exact ⟨_, syncSend_rename readFile op source target, readRename_sendRename source target⟩
  · intro op source
    exact ⟨_, syncSend_unlink readFile op source, readUnlink_sendUnlink source⟩
  · intro len bound op source para
    have low : (sn.para 0).toNat % 2 ^ 32 = len := by
      rcases para with same | same
      · rw [same, UInt64.toNat_ofNat_of_lt' (by change len < 2 ^ 64; omega), Nat.mod_eq_of_lt bound]
      · rw [same, intPara_toNat_mod, Nat.mod_eq_of_lt bound]
    have read := readTruncate_sendTruncate source
    rw [low] at read
    exact ⟨_, syncSend_truncate readFile op source, read⟩
  · intro payload op source buffer para small
    have short : payload.length < 2 ^ 32 := by
      rw [sendNewfile_length payload source] at small
      omega
    have count : (sn.para 0).toNat = payload.length := by
      rw [para, UInt64.toNat_ofNat_of_lt' (by change payload.length < 2 ^ 64; omega)]
    exact ⟨_, syncSend_newfile readFile op source buffer count small, newfileSize_eq source count small,
      readNewfile_sendNewfile source count short⟩
  · intro content op target file small
    have short : content.length < 2 ^ 32 := by
      rw [sendDelta_length content target] at small
      omega
    exact ⟨_, syncSend_delta op target file small, deltaSize_eq target small,
      readDelta_sendDelta target short⟩

/-- A packed node from `/a` to `/b`, of version 9 over version 5, with three octets of payload. -/
def packedNode (op : Op) : SyncNode where
  op := op
  src := [47, 97]
  dst := [47, 98]
  para := fun _ => 3
  bn := none
  fileBuf := some [1, 2, 3]
  isPacked := true
  isNewfile := false
  isDelete := false
  isEmpty := false
  time := 9
  baseVer := 5

theorem fixed_layouts_round_trip_packedNode :
    (∃ workload, syncSend (fun _ => none) (packedNode .rename) = .ok (some ⟨.rename, workload⟩) ∧
      readRename workload = .ok ⟨verToName 5, verToName 9, [47, 97], [47, 98], workload.length⟩) ∧
    (∃ workload, syncSend (fun _ => none) (packedNode .unlink) = .ok (some ⟨.unlink, workload⟩) ∧
      readUnlink workload = .ok ⟨verToName 9, [47, 97], workload.length⟩) ∧
    (∃ workload, syncSend (fun _ => none) (packedNode .truncate) = .ok (some ⟨.truncate, workload⟩) ∧
      readTruncate workload = .ok ⟨verToName 5, verToName 9, [47, 97], 3, workload.length⟩) ∧
    (∃ workload, syncSend (fun _ => none) (packedNode .newfile) = .ok (some ⟨.newfile, workload⟩) ∧
      newfileSize (packedNode .newfile) = workload.length ∧
      readNewfile workload = .ok ⟨verToName 9, [47, 97], [1, 2, 3], workload.length⟩) ∧
    (∃ workload, syncSend (fun _ => some [4]) (packedNode .delta) = .ok (some ⟨.delta, workload⟩) ∧
      deltaSize (packedNode .delta) [4] = workload.length ∧
      readDelta workload = .ok ⟨verToName 5, verToName 3, verToName 9, [47, 98], [4], workload.length⟩) :=
  ⟨(fixed_layouts_round_trip (fun _ => none) (packedNode .rename)).1 rfl (by decide) (by decide),
    (fixed_layouts_round_trip (fun _ => none) (packedNode .unlink)).2.1 rfl (by decide),
    (fixed_layouts_round_trip (fun _ => none) (packedNode .truncate)).2.2.1 3 (by decide) rfl (by decide)
      (.inl rfl),
    (fixed_layouts_round_trip (fun _ => none) (packedNode .newfile)).2.2.2.1 [1, 2, 3] rfl (by decide) rfl
      rfl (by decide),
    (fixed_layouts_round_trip (fun _ => some [4]) (packedNode .delta)).2.2.2.2 [4] rfl (by decide) rfl
      (by decide)⟩

end DeltaCFS
