import DeltaCFS.Proofs.Wire
import Mathlib.Algebra.Order.BigOperators.Group.List

/-! # Replaying a WRITE message

`func_write` knows one kind of record only. A node is replayed exactly when each of its records is
a data write whose offset fits 32 bits and is not the truncate flag (or carries no data), the base
version is not zero, and the message is shorter than `2 ^ 32` octets.
-/

namespace DeltaCFS

open Bytes

/-- What a buffered record did to the local file. -/
inductive Edit where
  | write (offset : ℕ) (data : Bytes)
  | truncate (size : ℕ)
deriving DecidableEq, Repr

def Edit.apply (file : Bytes) : Edit → Bytes
  | .write offset data => pwrite file offset data
  | .truncate size => resize size file

def BufInfo.edit (bi : BufInfo) : Edit :=
  match bi.newbuf with
  | some data => .write bi.offset data
  | none => .truncate bi.size

/-- The records `xmp_write` and `xmp_truncate` append to a WRITE node. -/
inductive BufInfo.Appended : BufInfo → Prop
  | write (offset : ℕ) (saved data : Bytes) (isAppend : Bool) (same : saved.length = data.length) :
      Appended ⟨offset, data.length, some saved, some data, isAppend⟩
  | truncate (size : ℕ) (isAppend : Bool) (positive : 0 < size) :
      Appended ⟨flagTruncate, size, none, none, isAppend⟩

/-- A record whose encoding the server's loop reads back. -/
def BufInfo.Carried (bi : BufInfo) : Prop :=
  ∃ data, bi.newbuf = some data ∧ bi.offset < 2 ^ 32 ∧ (bi.offset = flagTruncate → data = [])

/-- The exact condition for a replay. -/
def Transmissible (sn : SyncNode) (records : List BufInfo) : Prop :=
  sn.baseVer ≠ 0 ∧ (∀ bi ∈ records, bi.Carried) ∧
    16 + 2 + (sn.src.length + 1) + (records.map recordSize).sum < 2 ^ 32

/-- The message of a WRITE node is accepted, read as the node's own records without leaving the
workload, and turns the old content into the edited one under the new version. -/
def WriteReplays (readFile : Path → Option Bytes) (dir : Dir) (sn : SyncNode) (records : List BufInfo)
    (old : Bytes) : Prop :=
  ∃ workload request reply, syncSend readFile sn = .ok (some ⟨.write, workload⟩) ∧
    readWrite workload = .ok request ∧
    request.records.map (fun record => Edit.write record.1 record.2) = records.map BufInfo.edit ∧
    funcWrite dir workload = .ok reply ∧
    reply.dir (verToName sn.time) = some ((records.map BufInfo.edit).foldl Edit.apply old)

/-! ## The record loop -/

theorem readRecords_nil (fuel : ℕ) : readRecords fuel [] = .ok [] := by
  cases fuel <;> simp [readRecords]

/-- One round reads one encoded data write and goes on behind it. -/
theorem readRecords_cons (fuel offset : ℕ) (data rest : Bytes) (offsetFits : offset < 2 ^ 32)
    (sizeFits : data.length < 2 ^ 32) :
    readRecords (fuel + 1) (word32 offset ++ (word32 data.length ++ (data ++ rest))) =
      (readRecords fuel rest).map ((offset, data) :: ·) := by
  have first := readLE?_word32 0 [] (word32 data.length ++ (data ++ rest)) offset rfl
  have second := readLE?_word32 4 (word32 offset) (data ++ rest) data.length (by simp)
  have third := slice?_append 8 data.length (word32 offset ++ word32 data.length) data rest (by simp) rfl
  have behind : (word32 offset ++ (word32 data.length ++ (data ++ rest))).drop (8 + data.length) = rest := by
    rw [← List.append_assoc, ← List.append_assoc, List.drop_left' (by simp; omega)]
  simp only [List.nil_append, List.append_assoc] at first third
  rw [Nat.mod_eq_of_lt offsetFits] at first
  rw [Nat.mod_eq_of_lt sizeFits] at second
  have nonempty : ¬ word32 offset ++ (word32 data.length ++ (data ++ rest)) = [] := by
    intro empty
    have := congrArg List.length empty
    simp at this
  rw [readRecords, if_neg nonempty]
  simp only [first, second, third, behind, inside, bind, Except.bind, pure, Except.pure]
  cases readRecords fuel rest <;> rfl

theorem sendRecord_of_carried {bi : BufInfo} {data : Bytes} (appended : bi.Appended)
    (written : bi.newbuf = some data) (plain : bi.offset = flagTruncate → data = [])
    (sizeFits : data.length < 2 ^ 32) :
    sendRecord bi = word32 bi.offset ++ (word32 data.length ++ data) := by
  cases appended with
  | write offset saved data' isAppend same =>
    obtain rfl : data' = data := Option.some.inj written
    simp only [sendRecord, Option.getD_some, ne_eq, ite_not, List.append_cancel_left_eq]
    rw [Nat.mod_eq_of_lt sizeFits, List.take_length]
    split
    · next flagged => exact (plain flagged).symm
    · rfl
  | truncate size isAppend positive => simp at written

/-- The loop reads back a list of carried records. -/
theorem readRecords_flatMap (records : List BufInfo) (appended : ∀ bi ∈ records, bi.Appended)
    (carried : ∀ bi ∈ records, ∃ data, bi.newbuf = some data ∧ bi.offset < 2 ^ 32 ∧
      (bi.offset = flagTruncate → data = []) ∧ data.length < 2 ^ 32)
    (fuel : ℕ) (enough : (records.flatMap sendRecord).length ≤ fuel) :
    ∃ parsed, readRecords fuel (records.flatMap sendRecord) = .ok parsed ∧
      parsed.map (fun record => Edit.write record.1 record.2) = records.map BufInfo.edit := by
  induction records generalizing fuel with
  | nil => exact ⟨[], readRecords_nil fuel, rfl⟩
  | cons bi rest ih =>
    obtain ⟨data, written, offsetFits, plain, sizeFits⟩ := carried bi List.mem_cons_self
    have encoded := sendRecord_of_carried (appended bi List.mem_cons_self) written plain sizeFits
    rw [List.flatMap_cons, encoded] at enough ⊢
    cases fuel with
    | zero => simp at enough
    | succ fuel =>
      obtain ⟨parsed, read, same⟩ := ih (fun other member => appended other (List.mem_cons_of_mem _ member))
        (fun other member => carried other (List.mem_cons_of_mem _ member)) fuel
        (by simp only [List.length_append, word32_length] at enough; omega)
      refine ⟨(bi.offset, data) :: parsed, ?_, ?_⟩
      · simp only [List.append_assoc]
        rw [readRecords_cons fuel bi.offset data _ offsetFits sizeFits, read]
        rfl
      · simp only [List.map_cons, same, BufInfo.edit, written]

/-- Whatever the loop reads covers the whole rest of the workload, with 32-bit fields. -/
theorem readRecords_covers {fuel : ℕ} {rest : Bytes} {parsed : List (ℕ × Bytes)}
    (enough : rest.length ≤ fuel) (read : readRecords fuel rest = .ok parsed) :
    rest.length = (parsed.map fun record => 8 + record.2.length).sum ∧
      ∀ record ∈ parsed, record.1 < 2 ^ 32 ∧ record.2.length < 2 ^ 32 := by
  induction fuel generalizing rest parsed with
  | zero =>
    obtain rfl : parsed = [] := by simpa [readRecords] using read.symm
    simp only [List.map_nil, List.sum_nil, List.not_mem_nil, false_imp_iff, implies_true, and_true]
    omega
  | succ fuel ih =>
    rw [readRecords] at read
    split at read
    · next empty =>
      obtain rfl : parsed = [] := by simpa using read.symm
      simp [empty]
    · simp only [bind, Except.bind] at read
      cases offsetRead : readLE? 4 rest 0 with
      | none => simp [offsetRead, inside] at read
      | some offset =>
        cases sizeRead : readLE? 4 rest 4 with
        | none => simp [offsetRead, sizeRead, inside] at read
        | some size =>
          cases dataRead : slice? rest 8 size with
          | none => simp [offsetRead, sizeRead, dataRead, inside] at read
          | some data =>
            simp only [offsetRead, sizeRead, dataRead, inside] at read
            cases othersRead : readRecords fuel (rest.drop (8 + size)) with
            | error fault => simp [othersRead] at read
            | ok others =>
              simp only [othersRead, pure, Except.pure, Except.ok.injEq] at read
              subst read
              obtain ⟨inBounds, window⟩ := slice?_eq_some_iff.mp dataRead
              have length : data.length = size := by
                rw [← window, List.length_take, List.length_drop]
                omega
              obtain ⟨total, fields⟩ := ih (by rw [List.length_drop]; omega) othersRead
              rw [List.length_drop] at total
              refine ⟨?_, ?_⟩
              · simp only [List.map_cons, List.sum_cons, length]
                omega
              · intro record member
                rcases List.mem_cons.mp member with rfl | tail
                · exact ⟨readLE?_lt offsetRead, length ▸ readLE?_lt sizeRead⟩
                · exact fields record tail

/-! ## The whole message -/

theorem sendWrite_length {sn : SyncNode} (records : List BufInfo) (source : FitsName sn.src) :
    (sendWrite sn records).length = 16 + sn.src.length + 3 + (records.flatMap sendRecord).length := by
  simp only [sendWrite, List.length_append, word64_length, source.nameField_length]
  omega

/-- The header fields are found, and the loop runs on what follows the name. -/
theorem readWrite_sendWrite {sn : SyncNode} (records : List BufInfo) (source : FitsName sn.src) :
    readWrite (sendWrite sn records) =
      if sn.baseVer = 0 then .error .assertion
      else (readRecords (records.flatMap sendRecord).length (records.flatMap sendRecord)).map
        (⟨verToName sn.baseVer, verToName sn.time, sn.src, ·⟩) := by
  have old := readVersion_append 0 []
    (word64 sn.time ++ (nameField sn.src ++ records.flatMap sendRecord)) sn.baseVer rfl
  have version := readLE?_word64 0 []
    (word64 sn.time ++ (nameField sn.src ++ records.flatMap sendRecord)) sn.baseVer rfl
  have new := readVersion_append 8 (word64 sn.baseVer)
    (nameField sn.src ++ records.flatMap sendRecord) sn.time (by simp)
  have name := readName_append 16 (word64 sn.baseVer ++ word64 sn.time) (records.flatMap sendRecord) source
    (by simp)
  have behind : (sendWrite sn records).drop (16 + sn.src.length + 3) = records.flatMap sendRecord := by
    simp only [sendWrite, ← List.append_assoc]
    exact List.drop_left' (by simp [source.nameField_length]; omega)
  have left : (sendWrite sn records).length - (16 + sn.src.length + 3) =
      (records.flatMap sendRecord).length := by
    rw [sendWrite_length records source]
    omega
  have zero : sn.baseVer.toNat = 0 ↔ sn.baseVer = 0 := by
    rw [← UInt64.toNat_inj]
    rfl
  simp only [List.nil_append, List.append_assoc] at old version new name
  simp only [sendWrite] at behind left
  simp only [readWrite, sendWrite, old, new, version, name, behind, left, inside, bind, Except.bind, zero]
  split
  · rfl
  · cases readRecords (records.flatMap sendRecord).length (records.flatMap sendRecord) <;> rfl

theorem sendRecord_length {bi : BufInfo} (appended : bi.Appended) :
    (sendRecord bi).length = 8 + if bi.offset ≠ flagTruncate then bi.size % 2 ^ 32 else 0 := by
  have room : bi.offset ≠ flagTruncate → bi.size ≤ (bi.newbuf.getD []).length := by
    intro plain
    cases appended with
    | write => simp
    | truncate => exact absurd rfl plain
  simp only [sendRecord, List.length_append, word32_length]
  split
  · next plain =>
    have := room plain
    have := Nat.mod_le bi.size (2 ^ 32)
    rw [List.length_take]
    omega
  · rfl

theorem recordSize_of_sizeFits {bi : BufInfo} (appended : bi.Appended)
    (sizeFits : ∀ data, bi.newbuf = some data → data.length < 2 ^ 32) :
    recordSize bi = (sendRecord bi).length := by
  rw [sendRecord_length appended, recordSize]
  split
  · next plain =>
    cases appended with
    | write offset saved data isAppend same =>
      have small := sizeFits data rfl
      simp only
      omega
    | truncate => exact absurd rfl plain
  · rfl

theorem sum_recordSize (records : List BufInfo) (appended : ∀ bi ∈ records, bi.Appended)
    (sizeFits : ∀ bi ∈ records, ∀ data, bi.newbuf = some data → data.length < 2 ^ 32) :
    (records.map recordSize).sum = (records.flatMap sendRecord).length := by
  rw [List.length_flatMap]
  congr 1
  apply List.map_congr_left
  intro bi member
  exact recordSize_of_sizeFits (appended bi member) (sizeFits bi member)

theorem writeSize_eq_length_iff {sn : SyncNode} {records : List BufInfo} (source : FitsName sn.src)
    (sum : (records.map recordSize).sum = (records.flatMap sendRecord).length) :
    writeSize sn records = (sendWrite sn records).length ↔
      16 + 2 + (sn.src.length + 1) + (records.map recordSize).sum < 2 ^ 32 := by
  rw [writeSize, source.nameLen, sendWrite_length records source, sum]
  omega

/-- The new content is the old one with the parsed records written over it. -/
theorem funcWrite_dir {dir : Dir} {workload old : Bytes} {request : WriteRequest}
    (read : readWrite workload = .ok request) (held : dir request.oldver = some old) :
    ∃ reply, funcWrite dir workload = .ok reply ∧
      reply.dir request.newver = some (pwriteAll old request.records) := by
  refine ⟨_, by simp only [funcWrite, read, bind, Except.bind, held]; rfl, ?_⟩
  have moved : dir.move request.oldver request.newver old request.newver = some old := by
    rw [Dir.move]
    split
    · next same => rw [← same, held]
    · simp
  simp [Dir.set, moved]

theorem pwriteAll_eq_foldl (records : List (ℕ × Bytes)) (content : Bytes) :
    pwriteAll content records =
      (records.map fun record => Edit.write record.1 record.2).foldl Edit.apply content := by
  rw [pwriteAll, List.foldl_map]
  rfl

/-- Equal edits mean that every record is a data write with the parsed offset and data. -/
theorem exists_parsed_of_edits_eq {parsed : List (ℕ × Bytes)} {records : List BufInfo}
    (same : parsed.map (fun record => Edit.write record.1 record.2) = records.map BufInfo.edit)
    {bi : BufInfo} (member : bi ∈ records) :
    ∃ record ∈ parsed, bi.newbuf = some record.2 ∧ bi.offset = record.1 := by
  have edit : bi.edit ∈ parsed.map (fun record => Edit.write record.1 record.2) :=
    same ▸ List.mem_map_of_mem member
  obtain ⟨record, inParsed, equal⟩ := List.mem_map.mp edit
  refine ⟨record, inParsed, ?_⟩
  rw [BufInfo.edit] at equal
  split at equal
  · next data written =>
    obtain ⟨offset, data⟩ := Edit.write.inj equal
    exact ⟨written.trans (congrArg some data.symm), offset.symm⟩
  · cases equal

/-- The octets an edit takes in a message that carries its data. -/
private def Edit.room : Edit → ℕ
  | .write _ data => 8 + data.length
  | .truncate _ => 8

private theorem sendRecord_length_le {bi : BufInfo} (appended : bi.Appended) :
    (sendRecord bi).length ≤ bi.edit.room := by
  rw [sendRecord_length appended]
  cases appended with
  | write offset saved data isAppend same =>
    have := Nat.mod_le data.length (2 ^ 32)
    simp only [BufInfo.edit, Edit.room]
    split <;> omega
  | truncate => simp [BufInfo.edit, Edit.room]

/-- A parse into the node's own edits leaves no room for a record whose data was not sent. -/
theorem carried_of_readRecords {records : List BufInfo} {parsed : List (ℕ × Bytes)}
    (appended : ∀ bi ∈ records, bi.Appended)
    (read : readRecords (records.flatMap sendRecord).length (records.flatMap sendRecord) = .ok parsed)
    (same : parsed.map (fun record => Edit.write record.1 record.2) = records.map BufInfo.edit) :
    ∀ bi ∈ records, bi.Carried ∧ ∀ data, bi.newbuf = some data → data.length < 2 ^ 32 := by
  obtain ⟨total, fields⟩ := readRecords_covers le_rfl read
  have rooms : (parsed.map fun record => 8 + record.2.length) = records.map (fun bi => bi.edit.room) := by
    have mapped := congrArg (List.map Edit.room) same
    simpa only [List.map_map, Function.comp_def, Edit.room] using mapped
  rw [List.length_flatMap, rooms] at total
  have exact_room : ∀ bi ∈ records, bi.edit.room ≤ (sendRecord bi).length := by
    intro bi member
    by_contra less
    have strict := List.sum_lt_sum (fun bi => (sendRecord bi).length) (fun bi => bi.edit.room)
      (fun other inside => sendRecord_length_le (appended other inside)) ⟨bi, member, not_le.mp less⟩
    omega
  intro bi member
  obtain ⟨record, inParsed, written, offset⟩ := exists_parsed_of_edits_eq same member
  obtain ⟨offsetFits, sizeFits⟩ := fields record inParsed
  refine ⟨⟨record.2, written, offset ▸ offsetFits, ?_⟩, ?_⟩
  · intro flagged
    have room := exact_room bi member
    rw [sendRecord_length (appended bi member), if_neg (not_not.mpr flagged), BufInfo.edit, written] at room
    simp only [Edit.room] at room
    exact List.length_eq_zero_iff.mp (by omega)
  · intro data data_eq
    obtain rfl : record.2 = data := Option.some.inj (written.symm.trans data_eq)
    exact sizeFits

/-- Data of a message below the size limit has a 32-bit length. -/
private theorem sizeFits_of_total {records : List BufInfo} (appended : ∀ bi ∈ records, bi.Appended)
    (carried : ∀ bi ∈ records, bi.Carried) (small : (records.map recordSize).sum < 2 ^ 32) :
    ∀ bi ∈ records, ∀ data, bi.newbuf = some data → data.length < 2 ^ 32 := by
  intro bi member data written
  have part : recordSize bi ≤ (records.map recordSize).sum :=
    List.single_le_sum (fun _ _ => Nat.zero_le _) _ (List.mem_map_of_mem member)
  obtain ⟨data', written', -, plain⟩ := carried bi member
  obtain rfl : data' = data := Option.some.inj (written'.symm.trans written)
  cases appended bi member with
  | write offset saved payload isAppend same =>
    obtain rfl : payload = data' := Option.some.inj written
    simp only [recordSize] at part
    split at part
    · omega
    · next flagged => simp [plain (not_not.mp flagged)]
  | truncate => cases written

/-- `func_write` replays the bytes of a WRITE node exactly when every record is carried, the base
version is set and the message size fits 32 bits. -/
theorem writeReplays_iff_transmissible (readFile : Path → Option Bytes) (dir : Dir) (sn : SyncNode)
    (records : List BufInfo) (old : Bytes) (op : sn.op = .write) (buffered : sn.bn = some records)
    (appended : ∀ bi ∈ records, bi.Appended) (source : FitsName sn.src)
    (held : dir (verToName sn.baseVer) = some old) :
    WriteReplays readFile dir sn records old ↔ Transmissible sn records := by
  have sent : syncSend readFile sn = sendSized .write (writeSize sn records) (sendWrite sn records) := by
    simp only [syncSend, op, buffered]
  constructor
  · rintro ⟨workload, request, reply, send, read, same, -, -⟩
    rw [sent, sendSized] at send
    split at send
    · next size =>
      obtain rfl : sendWrite sn records = workload := by simpa using send
      rw [readWrite_sendWrite records source] at read
      split at read
      · cases read
      · next base =>
        cases parse : readRecords (records.flatMap sendRecord).length (records.flatMap sendRecord) with
        | error fault =>
          rw [parse] at read
          cases read
        | ok parsed =>
          simp only [parse, Except.map, Except.ok.injEq] at read
          subst read
          have carried := carried_of_readRecords appended parse same
          have sum := sum_recordSize records appended (fun bi member => (carried bi member).2)
          exact ⟨base, fun bi member => (carried bi member).1, (writeSize_eq_length_iff source sum).mp size⟩
    · cases send
  · rintro ⟨base, carried, small⟩
    have sizeFits := sizeFits_of_total appended carried (by omega)
    have sum := sum_recordSize records appended sizeFits
    have size := (writeSize_eq_length_iff source sum).mpr small
    obtain ⟨parsed, parse, same⟩ := readRecords_flatMap records appended
      (fun bi member => by
        obtain ⟨data, written, offsetFits, plain⟩ := carried bi member
        exact ⟨data, written, offsetFits, plain, sizeFits bi member data written⟩)
      _ le_rfl
    have read := readWrite_sendWrite records source
    rw [if_neg base, parse] at read
    obtain ⟨reply, handled, content⟩ := funcWrite_dir read held
    refine ⟨sendWrite sn records, _, reply, ?_, read, same, handled, ?_⟩
    · rw [sent, sendSized, if_pos size]
    · rw [content, pwriteAll_eq_foldl, same]

/-- A WRITE node of `/a`, version 9 over version 5. -/
def writeNode (records : List BufInfo) : SyncNode where
  op := .write
  src := [47, 97]
  dst := []
  para := fun _ => 0
  bn := some records
  fileBuf := none
  isPacked := true
  isNewfile := false
  isDelete := false
  isEmpty := false
  time := 9
  baseVer := 5

/-- A store that holds one file. -/
def singleton (name content : Bytes) : Dir := fun other => if other = name then some content else none

theorem writeReplays_two_writes :
    WriteReplays (fun _ => none) (singleton (verToName 5) [7])
      (writeNode [⟨0, 2, some [7, 0], some [1, 2], false⟩, ⟨2, 1, some [0], some [3], true⟩])
      [⟨0, 2, some [7, 0], some [1, 2], false⟩, ⟨2, 1, some [0], some [3], true⟩] [7] := by
  refine (writeReplays_iff_transmissible (fun _ => none) (singleton (verToName 5) [7])
    (writeNode [⟨0, 2, some [7, 0], some [1, 2], false⟩, ⟨2, 1, some [0], some [3], true⟩]) _ [7] rfl rfl
    ?_ (by decide) (by simp [singleton, writeNode])).mpr ⟨by decide, ?_, by decide⟩
  · simp only [List.mem_cons, List.not_mem_nil, or_false, forall_eq_or_imp, forall_eq]
    exact ⟨.write 0 [7, 0] [1, 2] false rfl, .write 2 [0] [3] true rfl⟩
  · simp only [List.mem_cons, List.not_mem_nil, or_false, forall_eq_or_imp, forall_eq]
    exact ⟨⟨[1, 2], rfl, by decide, by decide⟩, ⟨[3], rfl, by decide, by decide⟩⟩

/-- Three octets are written at the start of a file, which is then cut to two. -/
def writeThenTruncate : List BufInfo :=
  [⟨0, 3, some [7, 7, 7], some [1, 2, 3], false⟩, ⟨flagTruncate, 2, none, none, false⟩]

/-- A truncate record is sent without a payload, and the server reads its size in octets past the
workload. -/
theorem truncate_record_overreads :
    ∃ workload, (∀ bi ∈ writeThenTruncate, BufInfo.Appended bi) ∧
      syncSend (fun _ => none) (writeNode writeThenTruncate) = .ok (some ⟨.write, workload⟩) ∧
      funcWrite (singleton (verToName 5) [7, 7, 7, 7]) workload = .error .overread ∧
      ¬ WriteReplays (fun _ => none) (singleton (verToName 5) [7, 7, 7, 7]) (writeNode writeThenTruncate)
        writeThenTruncate [7, 7, 7, 7] := by
  have sent : syncSend (fun _ => none) (writeNode writeThenTruncate) =
      .ok (some ⟨.write, sendWrite (writeNode writeThenTruncate) writeThenTruncate⟩) := rfl
  have read : readWrite (sendWrite (writeNode writeThenTruncate) writeThenTruncate) = .error .overread := by decide
  refine ⟨_, ?_, sent, ?_, ?_⟩
  · simp only [writeThenTruncate, List.mem_cons, List.not_mem_nil, or_false, forall_eq_or_imp, forall_eq]
    exact ⟨.write 0 [7, 7, 7] [1, 2, 3] false rfl, .truncate 2 false (by decide)⟩
  · simp only [funcWrite, read, bind, Except.bind]
  · rintro ⟨workload, request, -, send, other, -⟩
    simp only [sent, Except.ok.injEq, Option.some.injEq, Message.mk.injEq, true_and] at send
    rw [← send, read] at other
    cases other

end DeltaCFS
