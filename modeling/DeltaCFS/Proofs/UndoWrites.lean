import DeltaCFS.Proofs.Client.BufferedWrites

/-! # What undoing buffered writes gives back

`sync_pack_write` puts the saved buffers back in the order of the writes, and cuts the file at the
least offset of an append. Where writes overlap, the saved buffer of the last one wins, which is not
the one with the original content; and a write that extends the file without starting at or behind
its end is not cut off.
-/

namespace DeltaCFS

open Bytes

variable {env : Env} {original content copy : Bytes} {changes earlier : List (Env × Change)} {position n : ℕ}
  {records : List BufInfo} {path : Path} {client after : Client}

/-! ## Putting the saved buffers back -/

/-- The loop over the records. -/
def putBack (records : List BufInfo) (file : Bytes) : Bytes :=
  (writeRecords records).foldl (fun file bi => pwrite file bi.offset (bi.buf.getD [])) file

theorem putBack_cons (bi : BufInfo) (rest : List BufInfo) (file : Bytes) :
    putBack (bi :: rest) file =
      putBack rest (if bi.offset = flagTruncate then file else pwrite file bi.offset (bi.buf.getD [])) := by
  simp only [putBack, writeRecords]
  by_cases flag : bi.offset = flagTruncate
  · rw [List.filter_cons_of_neg (by simpa using flag), if_pos flag]
  · rw [List.filter_cons_of_pos (by simpa using flag), if_neg flag, List.foldl_cons]

theorem putBack_append (first second : List BufInfo) (file : Bytes) :
    putBack (first ++ second) file = putBack second (putBack first file) := by
  rw [putBack, writeRecords, List.filter_append, List.foldl_append]
  rfl

/-- The record is written back over the position. -/
def BufInfo.Covers (position : ℕ) (bi : BufInfo) : Prop :=
  bi.offset ≠ flagTruncate ∧ bi.offset ≤ position ∧ position < bi.offset + (bi.buf.getD []).length

theorem putBack_getD (records : List BufInfo) (file : Bytes) (untouched : ∀ bi ∈ records, ¬ bi.Covers position) :
    (putBack records file).getD position 0 = file.getD position 0 := by
  induction records generalizing file with
  | nil => rfl
  | cons bi rest ih =>
    obtain ⟨here, later⟩ := List.forall_mem_cons.mp untouched
    rw [putBack_cons, ih _ later]
    split
    · rfl
    · next plain => rw [getD_pwrite, if_neg fun covered => here ⟨plain, covered⟩]

/-- The records that may extend the file. -/
def BufInfo.Extends (bi : BufInfo) : Prop := bi.offset ≠ flagTruncate ∧ bi.buf.getD [] ≠ []

theorem putBack_length_le (records : List BufInfo) (file : Bytes) :
    (putBack records file).length ≤ n ↔
      file.length ≤ n ∧ ∀ bi ∈ records, bi.Extends → bi.offset + (bi.buf.getD []).length ≤ n := by
  induction records generalizing file with
  | nil => simp [putBack, writeRecords]
  | cons bi rest ih =>
    rw [putBack_cons, ih, List.forall_mem_cons, ← and_assoc]
    refine and_congr_left fun _ => ?_
    by_cases flag : bi.offset = flagTruncate
    · rw [if_pos flag]
      exact ⟨fun fits => ⟨fits, fun extending => absurd flag extending.1⟩, And.left⟩
    · by_cases empty : bi.buf.getD [] = []
      · rw [if_neg flag, empty, pwrite_nil]
        exact ⟨fun fits => ⟨fits, fun extending => absurd empty extending.2⟩, And.left⟩
      · rw [if_neg flag, pwrite_length _ _ empty, max_le_iff]
        exact and_congr_right fun _ => ⟨fun fits _ => fits, fun fits => fits ⟨flag, empty⟩⟩

theorem putBack_length_eq (records : List BufInfo) (file : Bytes) :
    (putBack records file).length = n ↔
      file.length ≤ n ∧ (∀ bi ∈ records, bi.Extends → bi.offset + (bi.buf.getD []).length ≤ n) ∧
        (file.length = n ∨ ∃ bi ∈ records, bi.Extends ∧ bi.offset + (bi.buf.getD []).length = n) := by
  have most := @putBack_length_le n records file
  have less := @putBack_length_le (n - 1) records file
  constructor
  · intro length
    obtain ⟨fits, all⟩ := most.mp length.le
    refine ⟨fits, all, ?_⟩
    by_contra! short
    obtain ⟨different, none⟩ := short
    by_cases zero : n = 0
    · omega
    · have smaller := less.mpr ⟨by omega, fun bi member extending => by
        have := all bi member extending
        have := none bi member extending
        omega⟩
      omega
  · rintro ⟨fits, all, reached⟩
    have bound := most.mpr ⟨fits, all⟩
    by_contra short
    obtain ⟨smaller, none⟩ := less.mp (by omega)
    rcases reached with whole | ⟨bi, member, extending, ends⟩
    · omega
    · have := none bi member extending
      have : (bi.buf.getD []).length ≠ 0 := fun zero => extending.2 (List.length_eq_zero_iff.mp zero)
      omega

/-- `origin_file_size` is the least offset of an append, if that is below `INF`. -/
theorem originFileSize_le (records : List BufInfo) :
    originFileSize records ≤ n ↔
      inf ≤ n ∨ ∃ bi ∈ records, bi.offset ≠ flagTruncate ∧ bi.isAppend = true ∧ bi.offset ≤ n := by
  have least (start : ℕ) (appends : List BufInfo) :
      appends.foldl (fun least bi => min least bi.offset) start ≤ n ↔ start ≤ n ∨ ∃ bi ∈ appends, bi.offset ≤ n := by
    induction appends generalizing start with
    | nil => simp
    | cons bi rest ih =>
      rw [List.foldl_cons, ih, min_le_iff, List.exists_mem_cons_iff, or_assoc]
  rw [originFileSize, least]
  simp only [writeRecords, List.mem_filter, decide_eq_true_eq, and_assoc]

theorem undoWrites_eq (records : List BufInfo) (file : Bytes) :
    undoWrites records file =
      if originFileSize records ≠ inf then resize (originFileSize records) (putBack records file)
      else putBack records file := rfl

/-! ## Records of changes -/

theorem mem_recordsOf {bi : BufInfo} : bi ∈ recordsOf original changes ↔
    ∃ earlier change later, changes = earlier ++ change :: later ∧
      bi = change.2.record change.1 (applyAll original earlier) := by
  induction changes generalizing original with
  | nil => simp [recordsOf]
  | cons change rest ih =>
    rw [recordsOf, List.mem_cons, ih]
    constructor
    · rintro (here | ⟨earlier, other, later, rfl, there⟩)
      · exact ⟨[], change, rest, rfl, here⟩
      · exact ⟨change :: earlier, other, later, rfl, there⟩
    · rintro ⟨earlier, other, later, split, there⟩
      cases earlier with
      | nil =>
        obtain ⟨rfl, rfl⟩ := List.cons.inj split
        exact .inl there
      | cons first earlier =>
        obtain ⟨rfl, rfl⟩ := List.cons.inj split
        exact .inr ⟨earlier, other, later, rfl, there⟩

theorem record_offset (env : Env) (content : Bytes) (offset : ℕ) (data : Bytes) :
    ((Change.write offset data).record env content).offset = offset := rfl

/-- The saved buffer is as long as the write. -/
theorem record_buf_length (env : Env) (content : Bytes) (offset : ℕ) (data : Bytes) :
    (((Change.write offset data).record env content).buf.getD []).length = data.length := by
  simp only [Change.record, Option.getD_some, List.length_append, List.length_map, List.length_range, pread_length]
  omega

/-- The write is put back over the position. A write at the offset `FLAG_TRUNCATE` is not put back. -/
def Change.PutBack (position : ℕ) : Change → Prop
  | .write offset data => offset ≠ flagTruncate ∧ offset ≤ position ∧ position < offset + data.length
  | .truncate _ => False

theorem record_covers (env : Env) (content : Bytes) (change : Change) :
    (change.record env content).Covers position ↔ change.PutBack position := by
  cases change with
  | write offset data =>
    rw [BufInfo.Covers, record_buf_length]
    rfl
  | truncate size => exact ⟨fun covers => covers.1 rfl, False.elim⟩

/-! ## A run of buffered changes -/

/-- Calls that begin with a write for which no node waits, and go on with changes of the file and
with calls that touch neither the file nor the node of that write. -/
structure BufferedRun (path : Path) (original : Bytes) (events : List Event) (client after : Client) : Prop where
  absent : (syncFind path client.queue).1 = none
  file : client.fs.read path = some original
  first : ∃ env offset data rest, events = ⟨env, .write path offset data⟩ :: rest
  allowed : Transition.AllAllowed Client.next (BuffersCall client.queue.sq.tail path) events client
  replayed : Transition.replay Client.next events client = .ok after

theorem BufferedRun.buffers {events : List Event} (run : BufferedRun path original events client after) :
    Buffers client.queue.sq.tail path (applyAll original (changesOf path events))
      (recordsOf original (changesOf path events)) after := by
  obtain ⟨absent, file, ⟨env, offset, data, rest, rfl⟩, ⟨succeeds, allowed⟩, replayed⟩ := run
  obtain ⟨next, stepped, replayed⟩ := Except.bind_eq_ok.mp replayed
  have change : Change.ofCall path (.write path offset data) = some (.write offset data) := if_pos rfl
  simp only [BuffersCall, change] at succeeds
  obtain ⟨outcome, ran, rfl⟩ := next_eq_ok stepped
  have first := Buffers.first absent file (ofHandled_eq_ok ran).1 (succeeds outcome ran)
  simp only [changesOf, List.filterMap_cons, change, Option.map_some]
  exact first.replay rest (allowed _ stepped) replayed

/-- Undoing the records in the copy `create_tmp` makes gives the rebuilt file. -/
theorem BufferedRun.rebuiltTmp {events : List Event} (run : BufferedRun path original events client after)
    (allocated : after.fs.Allocated) :
    rebuiltTmp client.queue.sq.tail after =
      (createTmp after.fs path).map (undoWrites (recordsOf original (changesOf path events))) := by
  have buffers := run.buffers
  obtain ⟨ino, found, -⟩ := read_entry buffers.file
  rw [rebuiltTmp_eq (buffers.src.symm ▸ found) (allocated.ino_lt found), buffers.src, buffers.bn, Option.getD_some]

/-! ## The length -/

/-- A write that starts at or behind the end of the file is put back at the offset. -/
def Appends (original : Bytes) (changes : List (Env × Change)) (offset : ℕ) : Prop :=
  offset ≠ flagTruncate ∧ ∃ earlier env data later, changes = earlier ++ (env, .write offset data) :: later ∧
    (applyAll original earlier).length ≤ offset

/-- A write of some octets that ends at the offset is put back. -/
def EndsAt (changes : List (Env × Change)) (last : ℕ) : Prop :=
  ∃ env offset data, (env, Change.write offset data) ∈ changes ∧ offset ≠ flagTruncate ∧ data ≠ [] ∧
    offset + data.length = last

/-- Either the first append starts at the original end, or there is no append and neither the copy
nor what is put back into it goes past the original end, while one of them reaches it. -/
def LengthKept (original copy : Bytes) (changes : List (Env × Change)) : Prop :=
  (original.length < inf ∧ Appends original changes original.length ∧
      ∀ offset, Appends original changes offset → original.length ≤ offset) ∨
    ((∀ offset, Appends original changes offset → inf ≤ offset) ∧ copy.length ≤ original.length ∧
      (∀ last, EndsAt changes last → last ≤ original.length) ∧
      (copy.length = original.length ∨ EndsAt changes original.length))

theorem appends_iff {offset : ℕ} : Appends original changes offset ↔
    ∃ bi ∈ recordsOf original changes, bi.offset ≠ flagTruncate ∧ bi.isAppend = true ∧ bi.offset = offset := by
  constructor
  · rintro ⟨plain, earlier, env, data, later, rfl, behind⟩
    exact ⟨_, mem_recordsOf.mpr ⟨earlier, _, later, rfl, rfl⟩, plain, decide_eq_true behind, rfl⟩
  · rintro ⟨bi, member, plain, append, rfl⟩
    obtain ⟨earlier, ⟨env, change⟩, later, rfl, rfl⟩ := mem_recordsOf.mp member
    cases change with
    | write offset data => exact ⟨plain, earlier, env, data, later, rfl, of_decide_eq_true append⟩
    | truncate size => exact absurd rfl plain

theorem endsAt_iff {last : ℕ} : EndsAt changes last ↔
    ∃ bi ∈ recordsOf original changes, bi.Extends ∧ bi.offset + (bi.buf.getD []).length = last := by
  constructor
  · rintro ⟨env, offset, data, member, plain, nonempty, rfl⟩
    obtain ⟨earlier, later, rfl⟩ := List.append_of_mem member
    have length := record_buf_length env (applyAll original earlier) offset data
    refine ⟨_, mem_recordsOf.mpr ⟨earlier, _, later, rfl, rfl⟩, ⟨plain, fun empty => nonempty ?_⟩, ?_⟩
    · rw [← List.length_eq_zero_iff, ← length, empty, List.length_nil]
    · rw [length, record_offset]
  · rintro ⟨bi, member, ⟨plain, nonempty⟩, rfl⟩
    obtain ⟨earlier, ⟨env, change⟩, later, rfl, rfl⟩ := mem_recordsOf.mp member
    cases change with
    | write offset data =>
      have length := record_buf_length env (applyAll original earlier) offset data
      refine ⟨env, offset, data, by simp, plain, fun empty => nonempty ?_, ?_⟩
      · rw [← List.length_eq_zero_iff, length, empty, List.length_nil]
      · rw [length, record_offset]
    | truncate size => exact absurd rfl plain

theorem undoWrites_length_eq (original copy : Bytes) (changes : List (Env × Change)) :
    (undoWrites (recordsOf original changes) copy).length = original.length ↔ LengthKept original copy changes := by
  have size_le (n : ℕ) : originFileSize (recordsOf original changes) ≤ n ↔
      inf ≤ n ∨ ∃ offset, Appends original changes offset ∧ offset ≤ n := by
    rw [originFileSize_le]
    refine or_congr_right ⟨?_, ?_⟩
    · rintro ⟨bi, member, plain, append, bound⟩
      exact ⟨bi.offset, appends_iff.mpr ⟨bi, member, plain, append, rfl⟩, bound⟩
    · rintro ⟨offset, appends, bound⟩
      obtain ⟨bi, member, plain, append, rfl⟩ := appends_iff.mp appends
      exact ⟨bi, member, plain, append, bound⟩
  have ends : (∀ bi ∈ recordsOf original changes, bi.Extends →
      bi.offset + (bi.buf.getD []).length ≤ original.length) ↔
        ∀ last, EndsAt changes last → last ≤ original.length := by
    constructor
    · intro all last ending
      obtain ⟨bi, member, extending, rfl⟩ := (@endsAt_iff original changes last).mp ending
      exact all bi member extending
    · intro all bi member extending
      exact all _ (endsAt_iff.mpr ⟨bi, member, extending, rfl⟩)
  have least {offset : ℕ} (appends : Appends original changes offset) :
      originFileSize (recordsOf original changes) ≤ offset := (size_le offset).mpr (.inr ⟨offset, appends, le_rfl⟩)
  have most := (size_le inf).mpr (.inl le_rfl)
  rw [undoWrites_eq]
  split
  · next cut =>
    -- an append below `INF` decides the length
    rcases (size_le _).mp le_rfl with above | ⟨offset, appends, bound⟩
    · omega
    · have first : originFileSize (recordsOf original changes) = offset := le_antisymm (least appends) bound
      rw [resize_length]
      constructor
      · intro length
        refine .inl ⟨by omega, ?_, fun other also => ?_⟩
        · rwa [← length, first]
        · exact length ▸ least also
      · rintro (⟨-, atEnd, all⟩ | ⟨none, -⟩)
        · exact le_antisymm (least atEnd) (first ▸ all offset appends)
        · have := none offset appends
          omega
  · next whole =>
    have noCut : originFileSize (recordsOf original changes) = inf := by simpa using whole
    rw [putBack_length_eq, ends, ← endsAt_iff]
    constructor
    · intro kept
      exact .inr ⟨fun offset appends => noCut ▸ least appends, kept⟩
    · rintro (⟨small, atEnd, -⟩ | ⟨-, kept⟩)
      · have := least atEnd
        omega
      · exact kept

/-- The rebuilt file has the original length exactly if the records show where the file ended. -/
theorem rebuilt_length_iff (path : Path) (original : Bytes) (events : List Event) (client after : Client)
    (run : BufferedRun path original events client after) (allocated : after.fs.Allocated) :
    (∃ tmp, rebuiltTmp client.queue.sq.tail after = some tmp ∧ tmp.length = original.length) ↔
      ∃ copy, createTmp after.fs path = some copy ∧ LengthKept original copy (changesOf path events) := by
  rw [run.rebuiltTmp allocated]
  constructor
  · rintro ⟨tmp, rebuilt, length⟩
    obtain ⟨copy, copied, rfl⟩ := Option.map_eq_some_iff.mp rebuilt
    exact ⟨copy, copied, (undoWrites_length_eq original copy _).mp length⟩
  · rintro ⟨copy, copied, kept⟩
    exact ⟨_, Option.map_eq_some_iff.mpr ⟨copy, copied, rfl⟩, (undoWrites_length_eq original copy _).mpr kept⟩

/-- A file of three octets that was created, written and sent. -/
def sentThree : List Event :=
  [⟨.plain, .mknod [47, 97] 33188 0⟩, ⟨.plain, .write [47, 97] 0 [1, 2, 3]⟩, ⟨.plain, .syncExecute⟩]

/-- A write of the whole file, and an append. -/
def writeAndAppend : List Event := [⟨.plain, .write [47, 97] 0 [7, 8, 9]⟩, ⟨.plain, .write [47, 97] 3 [4]⟩]

/-- A write that starts inside the file and ends behind it. -/
def writeAcross : List Event := [⟨.plain, .write [47, 97] 2 [4, 5, 6]⟩]

theorem rebuilt_length_append :
    ∃ client after, Transition.replay Client.next sentThree Client.empty = .ok client ∧
      BufferedRun [47, 97] [1, 2, 3] writeAndAppend client after ∧
      sendsWrite ((after.node 1).bn.getD []) (after.fs.getFileSize [47, 97]) = false ∧
      rebuiltTmp 1 after = some [1, 2, 3] ∧
      ∃ copy, createTmp after.fs [47, 97] = some copy ∧
        LengthKept [1, 2, 3] copy (changesOf [47, 97] writeAndAppend) := by
  have replayed : ∃ client, Transition.replay Client.next sentThree Client.empty = .ok client ∧
      ((syncFind [47, 97] client.queue).1 = none ∧ client.fs.read [47, 97] = some [1, 2, 3] ∧
        client.queue.sq.tail = 1 ∧ Transition.AllAllowed Client.next (ChangesFile [47, 97]) writeAndAppend client ∧
        (Transition.replay Client.next writeAndAppend client).passes (fun after => after.fs.Allocated ∧
          sendsWrite ((after.node 1).bn.getD []) (after.fs.getFileSize [47, 97]) = false ∧
          rebuiltTmp 1 after = some [1, 2, 3]) = true) := Except.exists_ok (by decide +kernel)
  obtain ⟨client, replayed, absent, file, tail, allowed, passes⟩ := replayed
  obtain ⟨after, ran, allocated, delta, rebuilt⟩ := Except.exists_ok passes
  have run : BufferedRun [47, 97] [1, 2, 3] writeAndAppend client after :=
    ⟨absent, file, ⟨_, _, _, _, rfl⟩, allowed.imp (ChangesFile.buffers _ _), ran⟩
  refine ⟨client, after, replayed, run, delta, rebuilt, ?_⟩
  exact (rebuilt_length_iff [47, 97] [1, 2, 3] writeAndAppend client after run allocated).mp
    ⟨_, tail ▸ rebuilt, rfl⟩

/-- The write is no append, so the file is not cut, and two octets of the heap stay behind its old
end. -/
theorem rebuilt_longer_than_original :
    ∃ client after, Transition.replay Client.next sentThree Client.empty = .ok client ∧
      BufferedRun [47, 97] [1, 2, 3] writeAcross client after ∧
      sendsWrite ((after.node 1).bn.getD []) (after.fs.getFileSize [47, 97]) = false ∧
      client.queue.sq.tail = 1 ∧ rebuiltTmp 1 after = some [1, 2, 3, 0, 0] := by
  have replayed : ∃ client, Transition.replay Client.next sentThree Client.empty = .ok client ∧
      ((syncFind [47, 97] client.queue).1 = none ∧ client.fs.read [47, 97] = some [1, 2, 3] ∧
        client.queue.sq.tail = 1 ∧ Transition.AllAllowed Client.next (ChangesFile [47, 97]) writeAcross client ∧
        (Transition.replay Client.next writeAcross client).passes (fun after =>
          sendsWrite ((after.node 1).bn.getD []) (after.fs.getFileSize [47, 97]) = false ∧
          rebuiltTmp 1 after = some [1, 2, 3, 0, 0]) = true) := Except.exists_ok (by decide +kernel)
  obtain ⟨client, replayed, absent, file, tail, allowed, passes⟩ := replayed
  obtain ⟨after, ran, delta, rebuilt⟩ := Except.exists_ok passes
  refine ⟨client, after, replayed, ?_, delta, tail, rebuilt⟩
  exact ⟨absent, file, ⟨_, _, _, _, rfl⟩, allowed.imp (ChangesFile.buffers _ _), ran⟩

/-! ## The content -/

/-- The octet a write puts at the position. -/
def Change.byteAt (position : ℕ) : Change → Option UInt8
  | .write offset data => if offset ≤ position then data[position - offset]? else none
  | .truncate _ => none

/-- The octet that the last of the writes to the position puts there. -/
def lastByte (position : ℕ) (changes : List (Env × Change)) : Option UInt8 :=
  (changes.filterMap fun change => change.2.byteAt position).getLast?

/-- Every change is a write that lies wholly inside the file. -/
def Inside (original : Bytes) (changes : List (Env × Change)) : Prop :=
  ∀ change ∈ changes, ∃ offset data, change.2 = .write offset data ∧ offset + data.length ≤ original.length

/-- What decides whether the copy becomes the original: octets that are not put back have to be right
in the copy; of the writes that are put back over an octet, the last one must have found the original
there, so that no earlier write to it, or the last of these, put another one; and a short copy has to
be filled up to the end. -/
structure Restorable (original copy : Bytes) (changes : List (Env × Change)) : Prop where
  kept : ∀ position < original.length, (∀ change ∈ changes, ¬ change.2.PutBack position) →
    copy.getD position 0 = original.getD position 0
  found : ∀ position earlier change later, changes = earlier ++ change :: later → change.2.PutBack position →
    (∀ other ∈ later, ¬ other.2.PutBack position) →
    ∀ byte, lastByte position earlier = some byte → original[position]? = some byte
  filled : copy.length < original.length → ∃ env offset data, (env, Change.write offset data) ∈ changes ∧
    offset ≠ flagTruncate ∧ offset + data.length = original.length ∧ (data ≠ [] ∨ original.length < inf)

theorem Inside.of_append {first second : List (Env × Change)} (inside : Inside original (first ++ second)) :
    Inside original first := fun change member => inside change (List.mem_append_left _ member)

theorem Inside.applyAll_length (inside : Inside original changes) :
    (applyAll original changes).length = original.length := by
  induction changes using List.reverseRecOn with
  | nil => rfl
  | append_singleton earlier change ih =>
    have before := ih inside.of_append
    obtain ⟨offset, data, write, within⟩ := inside change (by simp)
    rw [applyAll_append, ← before]
    simp only [applyAll, List.foldl_cons, List.foldl_nil, write, Change.apply] at before ⊢
    exact pwrite_length_inside (by omega)

/-- The content of the file at a position. -/
theorem Inside.applyAll_getD (inside : Inside original changes) (position : ℕ) :
    (applyAll original changes).getD position 0 = (lastByte position changes).getD (original.getD position 0) := by
  induction changes using List.reverseRecOn with
  | nil => rfl
  | append_singleton earlier change ih =>
    obtain ⟨offset, data, write, -⟩ := inside change (by simp)
    have before := ih inside.of_append
    rw [applyAll_append]
    simp only [applyAll, List.foldl_cons, List.foldl_nil, write, Change.apply] at before ⊢
    rw [getD_pwrite]
    simp only [lastByte, List.filterMap_append, List.filterMap_cons, List.filterMap_nil, write, Change.byteAt]
      at before ⊢
    split
    · next covered =>
      rw [if_pos covered.1, List.getElem?_eq_getElem (by omega)]
      simp [List.getD_eq_getElem?_getD, List.getElem?_eq_getElem (show position - offset < data.length by omega)]
    · next clear =>
      have nothing : (if offset ≤ position then data[position - offset]? else none) = none := by
        split
        · exact List.getElem?_eq_none (by omega)
        · rfl
      rw [nothing, before]
      simp

theorem exists_last {α : Type*} {P : α → Prop} {items : List α} (some : ∃ item ∈ items, P item) :
    ∃ earlier item later, items = earlier ++ item :: later ∧ P item ∧ ∀ other ∈ later, ¬ P other := by
  induction items with
  | nil => simp at some
  | cons first rest ih =>
    by_cases more : ∃ item ∈ rest, P item
    · obtain ⟨earlier, item, later, rfl, holds, none⟩ := ih more
      exact ⟨first :: earlier, item, later, rfl, holds, none⟩
    · obtain ⟨item, member, holds⟩ := some
      rcases List.mem_cons.mp member with rfl | later
      · exact ⟨[], item, rest, rfl, holds, fun other member holds => more ⟨other, member, holds⟩⟩
      · exact absurd ⟨item, later, holds⟩ more

/-- What the last write that is put back over a position leaves there. -/
theorem putBack_last {change : Env × Change} {later : List (Env × Change)}
    (inside : Inside original (earlier ++ change :: later)) (covers : change.2.PutBack position)
    (last : ∀ other ∈ later, ¬ other.2.PutBack position) (copy : Bytes) :
    (putBack (recordsOf original (earlier ++ change :: later)) copy).getD position 0 =
      (lastByte position earlier).getD (original.getD position 0) := by
  obtain ⟨env, made⟩ := change
  obtain ⟨offset, data, rfl, within⟩ := inside (env, made) (by simp)
  obtain ⟨plain, behind, before⟩ := covers
  have length := inside.of_append.applyAll_length
  rw [recordsOf_append, putBack_append, recordsOf, putBack_cons, record_offset, if_neg plain, putBack_getD]
  · have saved : ((Change.write offset data).record env (applyAll original earlier)).buf.getD [] =
        pread (applyAll original earlier) offset data.length := by
      have full : (pread (applyAll original earlier) offset data.length).length = data.length := by
        rw [pread_length]
        omega
      simp [Change.record, full]
    rw [saved, getD_pwrite, if_pos ⟨behind, by rw [pread_length]; omega⟩, getD_pread _ _ _ _ (by omega),
      Nat.add_sub_cancel' behind, inside.of_append.applyAll_getD]
  · intro bi member
    obtain ⟨first, other, rest, rfl, rfl⟩ := mem_recordsOf.mp member
    rw [record_covers]
    exact last other (by simp)

theorem Inside.appends {offset : ℕ} (inside : Inside original changes) (appends : Appends original changes offset) :
    offset = original.length := by
  obtain ⟨-, earlier, env, data, later, rfl, behind⟩ := appends
  obtain ⟨_, _, write, within⟩ := inside (env, .write offset data) (by simp)
  obtain ⟨rfl, rfl⟩ := Change.write.inj write
  rw [inside.of_append.applyAll_length] at behind
  omega

/-- Cutting off does not concern writes inside the file. -/
theorem Inside.undoWrites_getD (inside : Inside original changes) (copy : Bytes) (bound : position < original.length) :
    (undoWrites (recordsOf original changes) copy).getD position 0 =
      (putBack (recordsOf original changes) copy).getD position 0 := by
  rw [undoWrites_eq]
  split
  · next cut =>
    have most := (@originFileSize_le inf (recordsOf original changes)).mpr (.inl le_rfl)
    rcases (originFileSize_le (recordsOf original changes)).mp le_rfl with above | ⟨bi, member, plain, append, least⟩
    · omega
    · have atEnd := inside.appends (appends_iff.mpr ⟨bi, member, plain, append, rfl⟩)
      rw [getD_resize]
      split
      · rfl
      · omega
  · rfl

theorem Inside.lengthKept_iff (inside : Inside original changes) (short : copy.length ≤ original.length) :
    LengthKept original copy changes ↔
      (copy.length < original.length → ∃ env offset data, (env, Change.write offset data) ∈ changes ∧
        offset ≠ flagTruncate ∧ offset + data.length = original.length ∧ (data ≠ [] ∨ original.length < inf)) := by
  constructor
  · rintro (⟨small, ⟨plain, earlier, env, data, later, rfl, behind⟩, -⟩ | ⟨-, -, -, reaches⟩) shorter
    · obtain ⟨_, _, write, within⟩ := inside (env, .write original.length data) (by simp)
      obtain ⟨rfl, rfl⟩ := Change.write.inj write
      exact ⟨env, _, data, by simp, plain, by omega, .inr small⟩
    · rcases reaches with whole | ⟨env, offset, data, member, plain, nonempty, ends⟩
      · omega
      · exact ⟨env, offset, data, member, plain, ends, .inl nonempty⟩
  · intro filled
    by_cases appended : original.length < inf ∧ Appends original changes original.length
    · exact .inl ⟨appended.1, appended.2, fun offset appends => (inside.appends appends).ge⟩
    · refine .inr ⟨fun offset appends => ?_, short, ?_, ?_⟩
      · obtain rfl := inside.appends appends
        exact le_of_not_gt fun small => appended ⟨small, appends⟩
      · rintro last ⟨env, offset, data, member, -, -, rfl⟩
        obtain ⟨_, _, write, within⟩ := inside (env, .write offset data) member
        obtain ⟨rfl, rfl⟩ := Change.write.inj write
        exact within
      · by_cases shorter : copy.length < original.length
        · obtain ⟨env, offset, data, member, plain, ends, nonempty⟩ := filled shorter
          by_cases empty : data = []
          · -- a write of nothing at the end is an append
            have small := nonempty.resolve_left (by simpa using empty)
            obtain ⟨earlier, later, rfl⟩ := List.append_of_mem member
            obtain rfl : offset = original.length := by simpa [empty] using ends
            exact absurd ⟨small, plain, earlier, env, data, later, rfl, inside.of_append.applyAll_length.le⟩ appended
          · exact .inr ⟨env, offset, data, member, plain, empty, ends⟩
        · exact .inl (by omega)

theorem Inside.undoWrites_eq_iff (inside : Inside original changes) (short : copy.length ≤ original.length) :
    undoWrites (recordsOf original changes) copy = original ↔ Restorable original copy changes := by
  have length := (undoWrites_length_eq original copy changes).trans (inside.lengthKept_iff short)
  -- the octet that is put back last is the original one if the last write before it left it so
  have found {earlier later : List (Env × Change)} {change : Env × Change} {position : ℕ}
      (split : changes = earlier ++ change :: later) (covers : change.2.PutBack position)
      (last : ∀ other ∈ later, ¬ other.2.PutBack position) (bound : position < original.length) :
      (undoWrites (recordsOf original changes) copy).getD position 0 = original.getD position 0 ↔
        ∀ byte, lastByte position earlier = some byte → original[position]? = some byte := by
    subst split
    rw [inside.undoWrites_getD copy bound, putBack_last inside covers last,
      List.getD_eq_getElem _ _ bound, List.getElem?_eq_getElem bound]
    cases lastByte position earlier with
    | none => simp
    | some byte => simp [eq_comm]
  have untouched {position : ℕ} (none : ∀ change ∈ changes, ¬ change.2.PutBack position)
      (bound : position < original.length) :
      (undoWrites (recordsOf original changes) copy).getD position 0 = copy.getD position 0 := by
    rw [inside.undoWrites_getD copy bound, putBack_getD]
    intro bi member
    obtain ⟨earlier, change, later, rfl, rfl⟩ := mem_recordsOf.mp member
    rw [record_covers]
    exact none change (by simp)
  constructor
  · intro restored
    refine ⟨fun position bound none => ?_, fun position earlier change later split covers last => ?_,
      length.mp (by rw [restored])⟩
    · rw [← untouched none bound, restored]
    · have bound : position < original.length := by
        obtain ⟨offset, data, write, within⟩ := inside change (split ▸ by simp)
        rw [write] at covers
        exact covers.2.2.trans_le within
      exact (found split covers last bound).mp (by rw [restored])
  · intro restorable
    refine ext_getD (length.mpr restorable.filled) fun position bound => ?_
    by_cases some : ∃ change ∈ changes, change.2.PutBack position
    · obtain ⟨earlier, change, later, split, covers, last⟩ := exists_last some
      exact (found split covers last bound).mpr (restorable.found position earlier change later split covers last)
    · push Not at some
      rw [untouched some bound]
      exact restorable.kept position bound some

/-- The rebuilt file is the original exactly if no octet was put back from a write that had found
another one there. -/
theorem rebuilt_eq_original_iff (path : Path) (original : Bytes) (events : List Event) (client after : Client)
    (run : BufferedRun path original events client after) (allocated : after.fs.Allocated)
    (inside : Inside original (changesOf path events)) :
    rebuiltTmp client.queue.sq.tail after = some original ↔
      ∃ copy, createTmp after.fs path = some copy ∧ Restorable original copy (changesOf path events) := by
  have short {copy : Bytes} (copied : createTmp after.fs path = some copy) : copy.length ≤ original.length := by
    simp only [createTmp] at copied
    split at copied
    · exact absurd copied (by simp)
    · split at copied
      · simp [← Option.some.inj copied]
      · rw [run.buffers.file] at copied
        rw [← Option.some.inj copied, inside.applyAll_length]
  rw [run.rebuiltTmp allocated, Option.map_eq_some_iff]
  refine exists_congr fun copy => and_congr_right fun copied => ?_
  exact inside.undoWrites_eq_iff (short copied)

/-- A file of two octets that was created, written and sent. -/
def sentTwo : List Event :=
  [⟨.plain, .mknod [47, 97] 33188 0⟩, ⟨.plain, .write [47, 97] 0 [1, 2]⟩, ⟨.plain, .syncExecute⟩]

/-- Two writes of one octet each. -/
def writeBoth : List Event := [⟨.plain, .write [47, 97] 0 [3]⟩, ⟨.plain, .write [47, 97] 1 [4]⟩]

/-- Two writes of the first octet. -/
def writeTwice : List Event := [⟨.plain, .write [47, 97] 0 [3]⟩, ⟨.plain, .write [47, 97] 0 [4]⟩]

theorem rebuilt_eq_original_disjoint :
    ∃ client after, Transition.replay Client.next sentTwo Client.empty = .ok client ∧
      BufferedRun [47, 97] [1, 2] writeBoth client after ∧
      sendsWrite ((after.node 1).bn.getD []) (after.fs.getFileSize [47, 97]) = false ∧
      rebuiltTmp 1 after = some [1, 2] ∧
      ∃ copy, createTmp after.fs [47, 97] = some copy ∧ Restorable [1, 2] copy (changesOf [47, 97] writeBoth) := by
  have replayed : ∃ client, Transition.replay Client.next sentTwo Client.empty = .ok client ∧
      ((syncFind [47, 97] client.queue).1 = none ∧ client.fs.read [47, 97] = some [1, 2] ∧
        client.queue.sq.tail = 1 ∧ Transition.AllAllowed Client.next (ChangesFile [47, 97]) writeBoth client ∧
        (Transition.replay Client.next writeBoth client).passes (fun after => after.fs.Allocated ∧
          sendsWrite ((after.node 1).bn.getD []) (after.fs.getFileSize [47, 97]) = false ∧
          rebuiltTmp 1 after = some [1, 2]) = true) := Except.exists_ok (by decide +kernel)
  obtain ⟨client, replayed, absent, file, tail, allowed, passes⟩ := replayed
  obtain ⟨after, ran, allocated, delta, rebuilt⟩ := Except.exists_ok passes
  have run : BufferedRun [47, 97] [1, 2] writeBoth client after :=
    ⟨absent, file, ⟨_, _, _, _, rfl⟩, allowed.imp (ChangesFile.buffers _ _), ran⟩
  refine ⟨client, after, replayed, run, delta, rebuilt, ?_⟩
  exact (rebuilt_eq_original_iff [47, 97] [1, 2] writeBoth client after run allocated (by
    simp [changesOf, writeBoth, Change.ofCall, Inside])).mp (tail ▸ rebuilt)

/-- Of two writes to one octet the second had saved what the first one wrote. -/
theorem rebuilt_from_second_write :
    ∃ client after, Transition.replay Client.next sentTwo Client.empty = .ok client ∧
      BufferedRun [47, 97] [1, 2] writeTwice client after ∧ Inside [1, 2] (changesOf [47, 97] writeTwice) ∧
      sendsWrite ((after.node 1).bn.getD []) (after.fs.getFileSize [47, 97]) = false ∧
      client.queue.sq.tail = 1 ∧ rebuiltTmp 1 after = some [3, 2] := by
  have replayed : ∃ client, Transition.replay Client.next sentTwo Client.empty = .ok client ∧
      ((syncFind [47, 97] client.queue).1 = none ∧ client.fs.read [47, 97] = some [1, 2] ∧
        client.queue.sq.tail = 1 ∧ Transition.AllAllowed Client.next (ChangesFile [47, 97]) writeTwice client ∧
        (Transition.replay Client.next writeTwice client).passes (fun after =>
          sendsWrite ((after.node 1).bn.getD []) (after.fs.getFileSize [47, 97]) = false ∧
          rebuiltTmp 1 after = some [3, 2]) = true) := Except.exists_ok (by decide +kernel)
  obtain ⟨client, replayed, absent, file, tail, allowed, passes⟩ := replayed
  obtain ⟨after, ran, delta, rebuilt⟩ := Except.exists_ok passes
  refine ⟨client, after, replayed, ?_, by simp [changesOf, writeTwice, Change.ofCall, Inside], delta, tail, rebuilt⟩
  exact ⟨absent, file, ⟨_, _, _, _, rfl⟩, allowed.imp (ChangesFile.buffers _ _), ran⟩

end DeltaCFS
