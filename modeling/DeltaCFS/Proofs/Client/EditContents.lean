import DeltaCFS.Proofs.Client.PackContents

/-! # Creating, writing and truncating

A file that changes while it is pending keeps its version, of which nobody else speaks yet: the node of a
new file reads it later, and the node of writes gets a record. Otherwise the file gets a new version.
-/

namespace DeltaCFS

open Bytes

variable {what origin : UInt64 → Bytes} {dir : Dir} {env : Env} {client after : Client} {path : Path} {slot : ℕ}
  {fs : FileSystem} {content new : Bytes} {record : BufInfo} {res : ℤ}

/-- A record of the client does to the content what it says. -/
structure BufInfo.Records (record : BufInfo) (content new : Bytes) : Prop where
  appended : record.Appended
  edit : record.edit.apply content = new

/-! ## Versions nobody speaks of -/

/-- Nobody speaks of the next version. -/
theorem Linked.unmentioned (linked : Linked dir client) (based : Based client)
    (bound : client.recfsCnt.toNat + 1 < counterBound) : Unmentioned client.newVersion dir client.db client.queue.sq := by
  obtain ⟨-, nodes, lists, chain⟩ := linked.queue
  have above := newVersion_toNat bound
  have low {version : UInt64} (small : version.toNat ≤ client.recfsCnt.toNat) : version ≠ client.newVersion := by
    rintro rfl
    omega
  refine ⟨?_, fun path known => low (based.dated.bound path _ known) rfl, fun slot alive => ?_⟩
  · by_contra held
    exact low (chain.bound client.newVersion (Option.isSome_iff_ne_none.mpr held)) rfl
  · have member := lists.mem alive.1 alive.2.1
    exact ⟨fun needed => low (chain.needs_le member needed) rfl, fun given => low (chain.gives_le member given) rfl⟩

/-- Two nodes of the queue have different versions. -/
theorem Linked.slot_unique (linked : Linked dir client) {other : ℕ} {version : UInt64}
    (alive : Undeleted client.queue.sq slot) (alive' : Undeleted client.queue.sq other)
    (versioned : (client.node slot).newVersion? = some version) (versioned' : (client.node other).newVersion? = some version) :
    slot = other := by
  obtain ⟨-, nodes, ⟨fifo, queued, rfl⟩, chain⟩ := linked.queue
  have increases := chain.ranked.increases
  simp only [versions, List.nil_append, List.filterMap_map, List.pairwise_filterMap, Function.comp_apply,
    Option.map_eq_some_iff] at increases
  by_contra apart
  have different : fifo.Pairwise fun first second => ∀ v w, (client.queue.sq.node first).newVersion? = some v →
      (client.queue.sq.node second).newVersion? = some w → v ≠ w := by
    refine increases.imp fun less v w first second same => ?_
    have := less v.toNat ⟨v, first, rfl⟩ w.toNat ⟨w, second, rfl⟩
    exact absurd (congrArg UInt64.toNat same) this.ne
  have symm : Std.Symm fun first second => ∀ v w, (client.queue.sq.node first).newVersion? = some v →
      (client.queue.sq.node second).newVersion? = some w → v ≠ w :=
    ⟨fun first second apart v w here there => (apart w v there here).symm⟩
  exact different.forall ((queued.flags slot alive.1).mp alive.2.1) ((queued.flags other alive'.1).mp alive'.2.1)
    apart version version versioned versioned' rfl

/-- Nobody speaks of the version of a pending node but the node and its file. -/
theorem Contents.pending_unmentioned (contents : Contents what origin dir client.fs client.db client.queue.sq client.rel)
    (linked : Linked dir client) (alive : Undeleted client.queue.sq slot) (waits : (client.node slot).Pending) :
    Unmentioned (client.node slot).time dir (Function.update client.db (client.node slot).src none)
      (client.queue.sq.modify slot fun sn => { sn with isDelete := true }) := by
  have free := contents.undelivered slot alive _ waits.newVersion?
  obtain ⟨-, nodes, lists, chain⟩ := linked.queue
  have member : client.node slot ∈ nodes := lists.mem alive.1 alive.2.1
  refine ⟨free, fun path known => ?_, fun other still => ?_⟩
  · obtain ⟨different, old⟩ := Linked.delete_cases known
    exact different (chain.own _ member waits path old)
  · have apart : other ≠ slot := by
      rintro rfl
      simp [Undeleted, RingBuffer.modify_node] at still
    have same : (client.queue.sq.modify slot fun sn => { sn with isDelete := true }).node other =
        client.queue.sq.node other := by
      simp [RingBuffer.modify_node, apart]
    rw [Undeleted, same] at still
    rw [same]
    refine ⟨chain.unused _ member waits _ (lists.mem still.1 still.2.1), fun given => apart ?_⟩
    exact linked.slot_unique still alive given.2 waits.newVersion?

/-! ## Changes of a file -/

/-- A pending file changes, and its node takes a record of that. -/
theorem Contents.amend (contents : Contents what origin dir client.fs client.db client.queue.sq client.rel)
    (linked : Linked dir client) (formed : (client.node slot).Formed) (alive : Undeleted client.queue.sq slot)
    (waits : (client.node slot).Pending) (plain : fs.Plain)
    (held : client.fs.read (client.node slot).src = some content) (records : record.Records content new)
    (reads : ∀ other, fs.read other = if other = (client.node slot).src then some new else client.fs.read other) :
    Contents (Function.update what (client.node slot).time new) origin dir fs client.db
      (client.queue.sq.modify slot (SyncNode.appended record)) client.rel := by
  obtain ⟨user, known⟩ := contents.pending slot alive waits
  have unmentioned := contents.pending_unmentioned linked alive waits
  have carries := contents.nodes slot alive
  have old : what (client.node slot).time = content :=
    Option.some.inj ((contents.files _ _ user known).symm.trans held)
  -- the node is set aside, and the file has no version for a while
  have aside : Contents what origin dir client.fs client.db
      (client.queue.sq.modify slot fun sn => { sn with isDelete := true }) client.rel := by
    refine contents.modify (fun still => ?_) (fun still => ?_) fun still => ?_
    all_goals simp [Undeleted, RingBuffer.modify_node] at still
  have settled : Settled (client.queue.sq.modify slot fun sn => { sn with isDelete := true }) (client.node slot).src := by
    intro other still pends named
    obtain ⟨-, known'⟩ := aside.pending other still pends
    rw [named, Client.node, known] at known'
    refine (unmentioned.2.2 other still).2 ⟨still.2.2, ?_⟩
    rw [pends.newVersion?, Client.node, Option.some.inj known']
  have chosen := (aside.forget settled).choose_update unmentioned new (origin (client.node slot).time)
  rw [Function.update_eq_self] at chosen
  have changed := chosen.change plain fun name => by
    rw [reads]
    by_cases same : name = (client.node slot).src
    · exact .inr (chosen.spare (same ▸ user) (by rw [same, Function.update_self]))
    · exact .inl (if_neg same)
  have assigned := changed.assign (Function.update_self ..)
    (by rw [reads, if_pos rfl, Function.update_self])
  have versions : Function.update (Function.update client.db (client.node slot).src none) (client.node slot).src
      (some (client.node slot).time) = client.db := by
    rw [Function.update_idem, Client.node, ← known, Function.update_eq_self]
  have ring : (client.queue.sq.modify slot fun sn => { sn with isDelete := true }).modify slot
      (fun _ => (client.node slot).appended record) = client.queue.sq.modify slot (SyncNode.appended record) := by
    simp [RingBuffer.modify, Client.node]
  rw [versions] at assigned
  rw [← ring]
  obtain ⟨op, src, -, time, base, -, -, -, pending⟩ := (client.node slot).appended_fields record
  refine assigned.modify (fun _ => ?_) (fun _ version versioned => ?_) fun _ pends => ?_
  · rcases waits.op_cases with newfile | write
    · refine ⟨?_, ?_, fun _ isPacked => ?_, ?_, ?_⟩
      case refine_3 => exact absurd isPacked (by simp [(pending.mpr waits).2.1])
      all_goals simp [op, newfile]
    · obtain ⟨began, earlier, buffered, appended, final, -⟩ := carries.write write
      refine ⟨?_, ?_, ?_, fun _ => ?_, ?_⟩
      case refine_4 =>
        have apart : (client.node slot).baseVer ≠ (client.node slot).time := by
          obtain ⟨-, nodes, lists, chain⟩ := linked.queue
          exact chain.bases.base _ (lists.mem alive.1 alive.2.1) (.inl write)
        have takes : (client.node slot).isNewfile ≠ true := fun isNew => by
          rw [(formed waits).1.mp isNew] at write
          exact absurd write (by simp)
        have bn : ((client.node slot).appended record).bn = some (earlier ++ [record]) := by
          simp only [SyncNode.appended, takes]
          simp [Client.node, buffered]
        rw [time, base, bn, Function.update_self, Function.update_of_ne apart]
        refine ⟨began, _, rfl, fun bi member => ?_, ?_, fun isPacked => ?_⟩
        · rcases List.mem_append.mp member with before | last
          · exact appended bi before
          · exact List.mem_singleton.mp last ▸ records.appended
        · rw [applyRecords_concat, ← records.edit, ← old]
          exact congrArg (Edit.apply · record.edit) final
        · exact absurd isPacked (by simp [(pending.mpr waits).2.1])
      all_goals simp [op, write]
  · rw [SyncNode.newVersion?_eq _ versioned, time]
    exact contents.undelivered slot alive _ waits.newVersion?
  · rw [src, time]
    exact ⟨user, known⟩

/-- A file with nothing pending changes and gets the next version. -/
theorem Contents.renew (contents : Contents what origin dir client.fs client.db client.queue.sq client.rel)
    (linked : Linked dir client) (based : Based client) (bound : client.recfsCnt.toNat + 1 < counterBound)
    (user : UserPath path) (settled : Settled client.queue.sq path) (plain : fs.Plain) (content : Bytes)
    (reads : ∀ other, fs.read other = if other = path then some new else client.fs.read other) :
    Contents (Function.update what client.newVersion new) (Function.update origin client.newVersion content) dir fs
      (Function.update client.db path (some client.newVersion)) client.queue.sq client.rel := by
  have free := linked.unmentioned based bound
  have forgotten := (contents.choose_update free new content).forget settled
  have changed := forgotten.change plain fun name => by
    rw [reads]
    by_cases same : name = path
    · exact .inr (same ▸ forgotten.spare user (Function.update_self ..))
    · exact .inl (if_neg same)
  have assigned := changed.assign (Function.update_self ..)
    (by rw [reads, if_pos rfl, Function.update_self])
  rwa [Function.update_idem] at assigned

/-! ## Handlers -/

/-- The record of a write. -/
theorem writeRecord_records (env : Env) (path : Path) (offset : ℕ) (data : Bytes) (client : Client) (content : Bytes) :
    (writeRecord env path offset data client).Records content (pwrite content offset data) where
  appended := by
    have short : (pread ((client.opened env path).getD []) offset data.length).length ≤ data.length := by
      simp [pread]
    refine .write offset _ data _ ?_
    simp only [List.length_append, List.length_map, List.length_range]
    omega
  edit := rfl

/-- The record of a truncate. -/
theorem truncateRecord_records {size : ℕ} (positive : size ≠ 0) (content : Bytes) :
    (truncateRecord size).Records content (resize size content) where
  appended := .truncate size false (Nat.pos_of_ne_zero positive)
  edit := rfl

/-- What a write began from, for the version it may get. -/
def Event.began (event : Event) (client : Client) (origin : UInt64 → Bytes) : UInt64 → Bytes :=
  match event.call with
  | .write path _ _ => Function.update origin client.newVersion ((client.fs.read path).getD [])
  | _ => origin

namespace Contents

variable {sh : SyncHash}

/-- The node that a lookup finds. -/
theorem found (linked : Linked dir client) (hit : (syncFind path client.queue).1 = some sh) :
    Undeleted client.queue.sq sh.loc ∧ (client.node sh.loc).Pending ∧ (client.node sh.loc).src = path := by
  obtain ⟨member, named⟩ := linked.queue.tidy.found hit
  obtain ⟨inside, occupied, waits, src⟩ := linked.queue.tidy.refers sh member
  exact ⟨⟨inside, occupied, waits.2.2⟩, waits, src.trans named⟩

/-- A lookup that finds nothing. -/
theorem settled_of_miss (linked : Linked dir client) (miss : (syncFind path client.queue).1 = none) :
    Settled client.queue.sq path := linked.table.settled (linked.queue.tidy.not_found miss)

theorem formed_node (state : MountState client) (alive : Undeleted client.queue.sq slot) : (client.node slot).Formed := by
  obtain ⟨-, nodes, lists, formed⟩ := state.formed.queue
  exact formed _ (lists.mem alive.1 alive.2.1)

theorem write {offset : ℕ} {data : Bytes} (contents : Contents what origin dir client.fs client.db client.queue.sq client.rel)
    (linked : Linked dir client) (state : MountState client) (bound : client.recfsCnt.toNat + 1 < counterBound)
    (user : UserPath path) (handled : xmpWrite env path offset data client = .ok (res, after)) (done : 0 ≤ res) :
    ∃ what', Contents what' (Function.update origin client.newVersion ((client.fs.read path).getD [])) dir after.fs
      after.db after.queue.sq after.rel := by
  obtain ⟨content, held, plain, reads⟩ := state.mounted.plain.xmpWrite handled done
  have free := linked.unmentioned state.based bound
  rw [held, Option.getD_some]
  obtain ⟨synced, syncing, ⟨failed, -⟩ | ⟨fs, -, -, -, rfl⟩⟩ := xmpWrite_eq_ok handled
  · omega
  have ring := syncFind_sq path client.queue
  rcases writeSync_eq_ok syncing with ⟨sh, hit, rfl⟩ | ⟨miss, version, queue, known, queued, rfl⟩
  · obtain ⟨alive, waits, src⟩ := found linked hit
    have ready := contents.choose_update free (what client.newVersion) content
    rw [Function.update_eq_self] at ready
    have amended := ready.amend linked (formed_node state alive) alive waits plain (src ▸ held)
      (writeRecord_records env path offset data client content) (src ▸ reads)
    refine ⟨Function.update what (client.node sh.loc).time (pwrite content offset data), ?_⟩
    simp only [SyncQueue.modifyNode, ring]
    exact amended
  · have renewed := contents.renew linked state.based bound user (settled_of_miss linked miss) plain content reads
    rw [← ring] at renewed
    have old := Option.some.inj ((contents.files path version user known).symm.trans held)
    have apart : version ≠ client.newVersion := fun same => free.2.1 path (same ▸ known)
    refine ⟨_, renewed.enqueue queued (fun before => ⟨by simp [SyncNode.enqueued], by simp [SyncNode.enqueued],
      by simp [SyncNode.enqueued], fun _ => ?_, by simp [SyncNode.enqueued]⟩)
      (fun _ => free.1) fun _ => ⟨user, Function.update_self ..⟩⟩
    simp only [SyncNode.enqueued, Function.update_self, Function.update_of_ne apart]
    refine ⟨old, _, rfl, fun bi member => ?_, rfl, by simp [Op.isBuffered]⟩
    exact List.mem_singleton.mp member ▸ (writeRecord_records env path offset data client content).appended

/-- A truncate to size 0 must find an empty file with nothing pending. -/
theorem truncate {size : ℕ} (contents : Contents what origin dir client.fs client.db client.queue.sq client.rel)
    (linked : Linked dir client) (state : MountState client) (bound : client.recfsCnt.toNat + 1 < counterBound)
    (user : UserPath path)
    (covered : size = 0 → (syncFind path client.queue).1 = none ∧ client.fs.read path = some [])
    (small : (syncFind path client.queue).1 = none → size < 2 ^ 32)
    (handled : xmpTruncate env path size client = .ok (res, after)) (done : 0 ≤ res) :
    ∃ what', Contents what' origin dir after.fs after.db after.queue.sq after.rel := by
  obtain ⟨content, held, plain, reads⟩ := state.mounted.plain.xmpTruncate handled done
  have free := linked.unmentioned state.based bound
  obtain ⟨synced, syncing, ⟨failed, -⟩ | ⟨fs, -, -, rfl⟩⟩ := xmpTruncate_eq_ok handled
  · omega
  have ring := syncFind_sq path client.queue
  rcases truncateSync_eq_ok syncing with
    ⟨zero, rfl⟩ | ⟨positive, sh, hit, rfl⟩ | ⟨positive, miss, version, queue, known, queued, rfl⟩
  · -- neither the queue nor the file changes
    obtain ⟨miss, empty⟩ := covered zero
    obtain rfl := Option.some.inj (held.symm.trans empty)
    have same : (syncDeleteWrite path client.queue).sq = client.queue.sq := by
      rw [← ring, DeltaCFS.syncDeleteWrite]
      split
      · next sh queue hit => exact absurd (miss.symm.trans (congrArg Prod.fst hit)) (by simp)
      · next queue hit => rw [hit]
    refine ⟨what, ?_⟩
    simp only [same]
    refine contents.change plain fun name => .inl ?_
    rw [reads]
    split
    · next here => rw [here, held, zero, resize]; rfl
    · rfl
  · obtain ⟨alive, waits, src⟩ := found linked hit
    have amended := contents.amend linked (formed_node state alive) alive waits plain (src ▸ held)
      (truncateRecord_records positive content) (src ▸ reads)
    refine ⟨Function.update what (client.node sh.loc).time (resize size content), ?_⟩
    simp only [SyncQueue.modifyNode, ring]
    exact amended
  · have renewed := contents.renew linked state.based bound user (settled_of_miss linked miss) plain
      (origin client.newVersion) reads
    rw [Function.update_eq_self, ← ring] at renewed
    have old := Option.some.inj ((contents.files path version user known).symm.trans held)
    have apart : version ≠ client.newVersion := fun same => free.2.1 path (same ▸ known)
    refine ⟨_, renewed.enqueue queued (fun before => ⟨by simp [SyncNode.enqueued], fun _ => ?_,
      by simp [SyncNode.enqueued], by simp [SyncNode.enqueued], by simp [SyncNode.enqueued]⟩) (fun _ => free.1)
      (by simp [Op.isBuffered])⟩
    have field : ((paraOf [intPara size] 0).toNat) % 2 ^ 32 = size := by
      rw [show paraOf [intPara size] 0 = intPara size from rfl, intPara_toNat_mod, Nat.mod_eq_of_lt (small miss)]
    simp only [SyncNode.enqueued, Function.update_self, Function.update_of_ne apart, Option.getD_some]
    rw [old, field]

/-- A path that is created had no version, and nothing was pending for it. -/
theorem mknod {mode rdev : ℕ} (contents : Contents what origin dir client.fs client.db client.queue.sq client.rel)
    (linked : Linked dir client) (state : MountState client) (bound : client.recfsCnt.toNat + 1 < counterBound)
    (user : UserPath path) (handled : xmpMknod env path mode rdev client = .ok (res, after)) (done : 0 ≤ res) :
    ∃ what', Contents what' origin dir after.fs after.db after.queue.sq after.rel := by
  obtain ⟨numbered, rfl, ⟨failed, -⟩ | ⟨fs, packed, queue, opened, packing, queued, -, rfl⟩⟩ := xmpMknod_eq_ok handled
  · omega
  have free := linked.unmentioned state.based bound
  obtain ⟨plain, reads⟩ := state.mounted.plain.openExcl opened
  have absent : client.db path = none := by
    by_contra known
    obtain ⟨version, known⟩ := Option.ne_none_iff_exists'.mp known
    obtain ⟨content, held⟩ := state.mounted.exist path user version known
    obtain ⟨ino, found⟩ := FileSystem.regular_iff_read.mpr ⟨content, held⟩
    simp [FileSystem.openExcl, found] at opened
  have miss : (syncFind path client.queue).1 = none := by
    by_contra hit
    obtain ⟨sh, hit⟩ := Option.ne_none_iff_exists'.mp hit
    obtain ⟨alive, waits, src⟩ := found linked hit
    obtain ⟨-, known⟩ := contents.pending sh.loc alive waits
    rw [show (client.queue.sq.node sh.loc).src = path from src, absent] at known
    exact absurd known (by simp)
  have chosen := contents.choose_update free [] (origin client.newVersion)
  rw [Function.update_eq_self] at chosen
  have changed := chosen.change plain fun name => by
    rw [reads]
    by_cases same : name = path
    · exact .inr (same ▸ chosen.spare user absent)
    · exact .inl (if_neg same)
  have assigned := changed.assign absent
    (by rw [reads, if_pos rfl, Function.update_self])
  have ring := syncFind_sq path client.queue
  rw [syncPackWritePath] at packing
  split at packing
  · next sh found hit => exact absurd (miss.symm.trans (congrArg Prod.fst hit)) (by simp)
  · next found hit =>
    obtain rfl := Except.ok.inj packing
    obtain rfl : (syncFind path client.queue).2 = found := congrArg Prod.snd hit
    rw [← ring] at assigned
    refine ⟨_, assigned.enqueue queued (fun before => ⟨by simp [SyncNode.enqueued], by simp [SyncNode.enqueued],
      by simp [SyncNode.enqueued, Op.isBuffered], by simp [SyncNode.enqueued], by simp [SyncNode.enqueued]⟩)
      (fun _ => free.1) fun _ => ⟨user, Function.update_self ..⟩⟩

end Contents

end DeltaCFS
