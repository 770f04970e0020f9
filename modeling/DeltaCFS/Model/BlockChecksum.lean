import DeltaCFS.Model.FileSystem
import DeltaCFS.Model.Librsync.Checksum
import Mathlib.Logic.Function.Basic

/-! # The block checksums of a file

`client/syncchecksum.c`, which keeps the weak sum of every block of a file in the LevelDB under the
name of the file and the number of the block, together with the calls of it that stand in comments
of `xmp_write` and `xmp_truncate`; the call of `checksum_check` in `xmp_read` is commented out too. A
block has 2048 octets, which the source writes as `CHECKSUM_BLOCK_LEN` and in shifts by 11 and masks
`0x7ff`. A function that does not return, because an assertion fails or a loop does not end, gives `none`.
-/

namespace DeltaCFS

open Bytes

/-- The LevelDB, by key. -/
abbrev Leveldb := Bytes → Option Bytes

/-- `CHECKSUM_ZEROBLOCK`. -/
def checksumZeroblock : UInt32 := 0x7c00f800

/-- The key of a block: the name, and a `uint32_t`. -/
def checksumKey (path : Path) (block : ℕ) : Bytes := path ++ ofNatLE 4 block

/-- `leveldb_put` of a sum. -/
def putChecksum (path : Path) (block : ℕ) (sum : UInt32) (db : Leveldb) : Leveldb :=
  Function.update db (checksumKey path block) (some (ofNatLE 4 sum.toNat))

/-- `tmpblk` after `memset` and `pread`. -/
def readTmpblk (file : Bytes) (offset count : ℕ) : Bytes := resize 2048 (pread file offset count)

/-! ## `checksum_update` -/

/-- The first block, when the write begins inside it: the database, the number in the key and
`remainder`. -/
def checksumFirst (file path buf : Bytes) (offset : ℕ) (db : Leveldb) : Option (Leveldb × ℕ × ℕ) :=
  if offset % 2048 ≠ 0 then
    let curOffset := offset / 2048 * 2048 % 2 ^ 32
    let remainder := 2048 - offset % 2048
    let tmpblk := pwrite (readTmpblk file curOffset 2048) (offset % 2048) (buf.take remainder)
    if offset - curOffset = offset % 2048 then
      some (putChecksum path (offset / 2048) (rsCalcWeakSum tmpblk) db, offset / 2048 + 1,
        remainder)
    else none
  else some (db, offset / 2048, 0)

/-- The loop over the middle blocks: the database, the number in the key, `cur_offset` and
`remainder`. -/
def checksumMiddle (path buf : Bytes) (limit : ℕ) :
    ℕ → ℕ → ℕ → ℕ → Leveldb → Option (Leveldb × ℕ × ℕ × ℕ)
  | 0, _, _, _, _ => none
  | fuel + 1, block, curOffset, remainder, db =>
    if curOffset < limit then
      checksumMiddle path buf limit fuel (block + 1) ((curOffset + 2048) % 2 ^ 32)
        ((remainder + 2048) % 2 ^ 32)
        (putChecksum path block (rsCalcWeakSum ((buf.drop remainder).take 2048)) db)
    else some (db, block, curOffset, remainder)

/-- The last block, when the write ends inside it. -/
def checksumLast (file path buf : Bytes) (last block curOffset remainder : ℕ) (db : Leveldb) : Option Leveldb :=
  if last % 2048 ≠ 0 then
    if curOffset = last / 2048 * 2048 then
      let tmpblk := pwrite (readTmpblk file curOffset 2048) 0
        ((buf.drop remainder).take (last % 2048))
      some (putChecksum path block (rsCalcWeakSum tmpblk) db)
    else none
  else some db

/-- `checksum_update`, after the write. -/
def checksumUpdate (file path buf : Bytes) (offset : ℕ) (db : Leveldb) : Option Leveldb :=
  let last := offset + buf.length
  if offset / 2048 = last / 2048 then
    let curOffset := offset / 2048 * 2048 % 2 ^ 32
    let tmpblk := pwrite (readTmpblk file curOffset 2048) (offset % 2048) buf
    some (putChecksum path (offset / 2048) (rsCalcWeakSum tmpblk) db)
  else do
    let (db, block, remainder) ← checksumFirst file path buf offset db
    let remainFlag := if offset % 2048 ≠ 0 then 1 else 0
    let curOffset := (offset / 2048 + remainFlag) * 2048 % 2 ^ 32
    let limit := last / 2048 * 2048
    let (db, block, curOffset, remainder) ←
      checksumMiddle path buf limit (last / 2048 + 1) block curOffset remainder db
    checksumLast file path buf last block curOffset remainder db

/-! ## `checksum_check` -/

/-- How `checksum_check` ends before its end: a sum differs and it returns -1, `leveldb_get` gave no
sum and the pointer is read all the same, or the assertion fails. -/
inductive CheckExit where
  | mismatch
  | missing
  | misaligned
deriving DecidableEq, Repr

/-- A piece of `checksum_check` that came to an end: what it hands on, the keys that it looked up, and
where the blocks begin that it summed in the buffer. -/
structure Check (α : Type) where
  result : Except CheckExit α
  keys : List Bytes
  sources : List ℕ

/-- A piece that looks up nothing. -/
def Check.handOn {α : Type} (value : α) : Check α := ⟨.ok value, [], []⟩

/-- What follows, unless the piece returned. -/
def Check.andThen {α β : Type} (check : Check α) (next : α → Option (Check β)) : Option (Check β) :=
  match check.result with
  | .error exit => some ⟨.error exit, check.keys, check.sources⟩
  | .ok value => (next value).map fun rest =>
    ⟨rest.result, check.keys ++ rest.keys, check.sources ++ rest.sources⟩

/-- What `checksum_check` returns, if it does. -/
def Check.code (check : Check Unit) : Option ℤ :=
  match check.result with
  | .ok () => some 0
  | .error .mismatch => some (-1)
  | .error _ => none

/-- `leveldb_get` of a sum, and the comparison with the one that was computed. -/
def compareChecksum (path : Path) (block : ℕ) (sum : UInt32) (sources : List ℕ) (db : Leveldb) : Check Unit where
  result :=
    match db (checksumKey path block) with
    | none => .error .missing
    | some entry => if entry.take 4 = ofNatLE 4 sum.toNat then .ok () else .error .mismatch
  keys := [checksumKey path block]
  sources := sources

/-- The first block, when the read begins inside it: the number in the key, `cur_offset` and
`remainder`. -/
def checkFirst (file path : Bytes) (offset : ℕ) (db : Leveldb) : Option (Check (ℕ × ℕ × ℕ)) :=
  if offset % 2048 ≠ 0 then
    let curOffset := offset / 2048 * 2048 % 2 ^ 32
    (compareChecksum path (offset / 2048) (rsCalcWeakSum (readTmpblk file curOffset 2048)) [] db).andThen
      fun _ => some (.handOn (offset / 2048 + 1, (curOffset + 2048) % 2 ^ 32, 2048 - offset % 2048))
  else some (.handOn (offset / 2048, offset % 2 ^ 32, 0))

/-- The loop over the middle blocks, which are taken from the buffer. -/
def checkMiddle (path buf : Bytes) (limit : ℕ) (db : Leveldb) : ℕ → ℕ → ℕ → ℕ → Option (Check (ℕ × ℕ × ℕ))
  | 0, _, _, _ => none
  | fuel + 1, block, curOffset, remainder =>
    if curOffset < limit then
      (compareChecksum path block (rsCalcWeakSum ((buf.drop remainder).take 2048)) [remainder] db).andThen fun _ =>
        checkMiddle path buf limit db fuel (block + 1) ((curOffset + 2048) % 2 ^ 32) ((remainder + 2048) % 2 ^ 32)
    else some (.handOn (block, curOffset, remainder))

/-- The last block, when the read ends inside it. -/
def checkLast (file path : Bytes) (last block curOffset : ℕ) (db : Leveldb) : Check Unit :=
  if last % 2048 ≠ 0 then
    if curOffset = last / 2048 * 2048 then
      compareChecksum path block (rsCalcWeakSum (readTmpblk file curOffset 2048)) [] db
    else ⟨.error .misaligned, [], []⟩
  else .handOn ()

/-- `checksum_check`, after the read. One unit of fuel a round of the loop. -/
def checksumCheck (fuel : ℕ) (file path buf : Bytes) (offset : ℕ) (db : Leveldb) : Option (Check Unit) :=
  let last := offset + buf.length
  if offset / 2048 = last / 2048 then
    let curOffset := offset / 2048 * 2048 % 2 ^ 32
    some (compareChecksum path (offset / 2048) (rsCalcWeakSum (readTmpblk file curOffset 2048)) [] db)
  else do
    let first ← checkFirst file path offset db
    first.andThen fun (block, curOffset, remainder) => do
      let middle ← checkMiddle path buf (last / 2048 * 2048) db fuel block curOffset remainder
      middle.andThen fun (block, curOffset, _) => some (checkLast file path last block curOffset db)

/-! ## Holes and truncates -/

/-- `checksum_enlarge`. The loop variable is a `uint32_t`: a last block `2 ^ 32 - 1` is never passed. -/
def checksumEnlarge (path : Path) (oldsize newsize : ℕ) (db : Leveldb) : Option Leveldb :=
  let blockhead := if 0 < oldsize then ((oldsize - 1) / 2048 + 1) % 2 ^ 32 else 0
  let blockrear := if 0 < newsize then (newsize - 1) / 2048 % 2 ^ 32 else 2 ^ 32 - 1
  if blockrear = 2 ^ 32 - 1 then none
  else some ((List.range' blockhead (blockrear + 1 - blockhead)).foldl
    (fun db i => putChecksum path i checksumZeroblock db) db)

/-- `checksum_shrink`, before the truncate. -/
def checksumShrink (file path : Bytes) (newsize : ℕ) (db : Leveldb) : Option Leveldb :=
  if newsize = 0 then some db
  else
    let offset := (newsize - 1) / 2048 * 2048
    let readsize := newsize - offset
    if (pread file offset readsize).length = readsize then
      some (putChecksum path (offset / 2048) (rsCalcWeakSum (readTmpblk file offset readsize)) db)
    else none

/-! ## The calls -/

/-- A file and the database. -/
structure Checked where
  file : Bytes
  db : Leveldb

/-- A file that is to grow is enlarged first. -/
def enlargeTo (path : Path) (oldsize newsize : ℕ) (db : Leveldb) : Option Leveldb :=
  if oldsize < newsize then checksumEnlarge path oldsize newsize db else some db

/-- A file that is to be cut is shrunk first. -/
def shrinkTo (file path : Bytes) (newsize : ℕ) (db : Leveldb) : Option Leveldb :=
  if newsize < file.length then checksumShrink file path newsize db else some db

/-- `xmp_write`, as far as the file and its checksums are concerned. -/
def checkedWrite (path : Path) (offset : ℕ) (buf : Bytes) (state : Checked) : Option Checked := do
  let db ← enlargeTo path state.file.length offset state.db
  let file := pwrite state.file offset buf
  let db ← checksumUpdate file path buf offset db
  return ⟨file, db⟩

/-- `xmp_truncate`, as far as the file and its checksums are concerned. -/
def checkedTruncate (path : Path) (size : ℕ) (state : Checked) : Option Checked := do
  let db ← enlargeTo path state.file.length size state.db
  let db ← shrinkTo state.file path size db
  return ⟨resize size state.file, db⟩

def checkedChange (path : Path) : Change → Checked → Option Checked
  | .write offset data => checkedWrite path offset data
  | .truncate size => checkedTruncate path size

def checkedChanges (path : Path) : List Change → Checked → Option Checked
  | [], state => some state
  | change :: rest, state => checkedChange path change state >>= checkedChanges path rest

end DeltaCFS
