import DeltaCFS.Proofs.Client.Relations
import DeltaCFS.Proofs.VersionNumbers

/-! # The base of a delta

The versions of paths are different, those of relations are of moved files, and a pending node has a
version that no relation has. So the base of a delta is an older version than its own, except where
`xmp_link` sends the content of a file as a delta to itself.
-/

namespace DeltaCFS

variable {env : Env} {client after : Client} {path source target : Path} {res : ℤ}
  {rel rel' : RelTable} {db : Path → Option UInt64} {nodes : List SyncNode} {limit : ℕ}

/-! ## Versions of paths and relations -/

/-- Different paths have different versions, up to the limit. -/
structure Dated (db : Path → Option UInt64) (limit : ℕ) : Prop where
  bound : ∀ path version, db path = some version → version.toNat ≤ limit
  distinct : ∀ path other version, db path = some version → db other = some version → path = other

namespace Dated

theorem mono (dated : Dated db limit) : Dated db (limit + 1) :=
  ⟨fun path version known => (dated.bound path version known).trans (Nat.le_succ limit), dated.distinct⟩

/-- A path gets the version above the limit. -/
theorem update {version : UInt64} (dated : Dated db limit) (path : Path) (above : version.toNat = limit + 1) :
    Dated (Function.update db path (some version)) (limit + 1) := by
  have old : ∀ other version', db other = some version' → version' ≠ version := by
    rintro other version' known rfl
    have := dated.bound other version' known
    omega
  constructor
  · intro other version' known
    rw [Function.update_apply] at known
    split at known
    · obtain rfl := Option.some.inj known
      exact above.le
    · exact (dated.bound other version' known).trans (Nat.le_succ limit)
  · intro first second version' known known'
    rw [Function.update_apply] at known known'
    split at known <;> split at known'
    · next same same' => exact same.trans same'.symm
    · exact absurd (Option.some.inj known).symm (old second version' known')
    · exact absurd (Option.some.inj known').symm (old first version' known)
    · exact dated.distinct first second version' known known'

theorem delete (dated : Dated db limit) (path : Path) : Dated (Function.update db path none) limit := by
  have kept : ∀ other version, Function.update db path none other = some version → db other = some version := by
    intro other version known
    rw [Function.update_apply] at known
    split at known
    · exact absurd known (by simp)
    · exact known
  exact ⟨fun other version known => dated.bound other version (kept other version known),
    fun first second version known known' =>
      dated.distinct first second version (kept first version known) (kept second version known')⟩

end Dated

/-- The versions of relations are up to the limit. -/
structure RelDated (rel : RelTable) (limit : ℕ) : Prop where
  sane : rel.Sane
  bound : ∀ src dst time, rel.Related src dst time → time.toNat ≤ limit

theorem RelDated.mono (dated : RelDated rel limit) : RelDated rel (limit + 1) :=
  ⟨dated.sane, fun src dst time related => (dated.bound src dst time related).trans (Nat.le_succ limit)⟩

/-! ## Nodes -/

/-- A WRITE or DELTA node has another base than itself, and no relation has the version of a pending
node. -/
structure OwnBases (rel : RelTable) (limit : ℕ) (nodes : List SyncNode) : Prop where
  base : ∀ sn ∈ nodes, sn.op = .write ∨ sn.op = .delta → sn.baseVer ≠ sn.time
  bound : ∀ sn ∈ nodes, sn.Pending → sn.time.toNat ≤ limit
  apart : ∀ sn ∈ nodes, sn.Pending → ∀ src dst time, rel.Related src dst time → time ≠ sn.time

namespace OwnBases

/-- Relations go, or come with a version above the limit. -/
theorem relate (own : OwnBases rel limit nodes)
    (fewer : ∀ src dst time, rel'.Related src dst time → rel.Related src dst time ∨ time.toNat = limit + 1) :
    OwnBases rel' (limit + 1) nodes := by
  refine ⟨own.base, fun sn member pending => (own.bound sn member pending).trans (Nat.le_succ limit), ?_⟩
  rintro sn member pending src dst time related rfl
  rcases fewer src dst _ related with old | new
  · exact own.apart sn member pending src dst _ old rfl
  · have := own.bound sn member pending
    omega

theorem forget (own : OwnBases rel limit nodes)
    (fewer : ∀ src dst time, rel'.Related src dst time → rel.Related src dst time) : OwnBases rel' limit nodes :=
  ⟨own.base, own.bound, fun sn member pending src dst time related =>
    own.apart sn member pending src dst time (fewer src dst time related)⟩

theorem mono (own : OwnBases rel limit nodes) : OwnBases rel (limit + 1) nodes :=
  own.relate fun _ _ _ => .inl

theorem subset {nodes' : List SyncNode} (own : OwnBases rel limit nodes) (fewer : nodes' ⊆ nodes) :
    OwnBases rel limit nodes' :=
  ⟨fun sn member => own.base sn (fewer member), fun sn member => own.bound sn (fewer member),
    fun sn member => own.apart sn (fewer member)⟩

/-- A node that is rewritten keeps its base, or is a delta with another one. -/
theorem replace {before rest : List SyncNode} {sn sn' : SyncNode} (own : OwnBases rel limit (before ++ sn :: rest))
    (base : sn'.op = .write ∨ sn'.op = .delta → sn'.baseVer ≠ sn'.time)
    (pending : sn'.Pending → sn.Pending ∧ sn'.time = sn.time) : OwnBases rel limit (before ++ sn' :: rest) := by
  have cases {other : SyncNode} (member : other ∈ before ++ sn' :: rest) :
      other = sn' ∨ other ∈ before ++ sn :: rest := by
    simp only [List.mem_append, List.mem_cons] at member ⊢
    tauto
  have old : sn ∈ before ++ sn :: rest := by simp
  refine ⟨fun other member => ?_, fun other member waits => ?_, fun other member waits src dst time related => ?_⟩
  · rcases cases member with rfl | kept
    · exact base
    · exact own.base other kept
  · rcases cases member with rfl | kept
    · obtain ⟨waited, same⟩ := pending waits
      rw [same]
      exact own.bound sn old waited
    · exact own.bound other kept waits
  · rcases cases member with rfl | kept
    · obtain ⟨waited, same⟩ := pending waits
      rw [same]
      exact own.apart sn old waited src dst time related
    · exact own.apart other kept waits src dst time related

/-- A node with a settled version. -/
theorem append {sn : SyncNode} (own : OwnBases rel limit nodes) (settled : ¬ sn.Pending)
    (base : sn.op = .write ∨ sn.op = .delta → sn.baseVer ≠ sn.time) : OwnBases rel limit (nodes ++ [sn]) := by
  refine ⟨fun other member => ?_, fun other member waits => ?_, fun other member waits => ?_⟩
  all_goals rw [List.mem_append, List.mem_singleton] at member
  all_goals rcases member with old | rfl
  · exact own.base other old
  · exact base
  · exact own.bound other old waits
  · exact absurd waits settled
  · exact own.apart other old waits
  · exact absurd waits settled

/-- A pending node with the version above the limit. -/
theorem pending {sn : SyncNode} (own : OwnBases rel limit nodes) (dated : RelDated rel limit)
    (above : sn.time.toNat = limit + 1) (base : sn.op = .write ∨ sn.op = .delta → sn.baseVer ≠ sn.time) :
    OwnBases rel (limit + 1) (nodes ++ [sn]) := by
  have older := own.mono
  refine ⟨fun other member => ?_, fun other member waits => ?_, fun other member waits src dst time related => ?_⟩
  all_goals rw [List.mem_append, List.mem_singleton] at member
  all_goals rcases member with old | rfl
  · exact older.base other old
  · exact base
  · exact older.bound other old waits
  · exact above.le
  · exact older.apart other old waits src dst time related
  · rintro rfl
    have := dated.bound src dst _ related
    omega

/-- Packing turns a new file into a delta to its relation, and writes into a delta to their base. -/
theorem packKeeps (env : Env) (client : Client) : PackKeeps env client (OwnBases client.rel limit) := by
  intro state after slot before rest _ rel waits one own
  rcases one.node_cases with same | ⟨newfile, content, packed⟩ | ⟨newfile, rh, deltaFile, found, -, packed⟩ |
    ⟨write, packed | ⟨deltaFile, packed⟩⟩
  · rwa [same]
  · rw [packed]
    refine own.replace (fun op => ?_) fun pending => absurd pending (SyncNode.not_pending_of_packed rfl)
    simp [SyncNode.packedFile, newfile] at op
  · rw [packed]
    rw [rel] at found ⊢
    refine own.replace (fun _ => ?_) fun pending => absurd pending (SyncNode.not_pending_of_packed rfl)
    exact own.apart _ (by simp) waits _ _ _ (RelTable.related_of_relFind found)
  · rw [packed]
    refine own.replace (fun _ => ?_) fun pending => absurd pending (SyncNode.not_pending_of_packed rfl)
    exact own.base (state.node slot) (by simp) (.inl write)
  · rw [packed]
    refine own.replace (fun _ => ?_) fun pending => absurd pending (SyncNode.not_pending_of_packed rfl)
    exact own.base (state.node slot) (by simp) (.inl write)

end OwnBases

/-! ## The handlers -/

/-- The invariant of the client. -/
structure Based (client : Client) : Prop where
  queue : client.queue.Holds (OwnBases client.rel client.recfsCnt.toNat)
  dated : Dated client.db client.recfsCnt.toNat
  related : RelDated client.rel client.recfsCnt.toNat

/-- The files do not matter. -/
theorem Based.congr (based : Based client) (queue : after.queue = client.queue) (db : after.db = client.db)
    (rel : after.rel = client.rel) (count : after.recfsCnt = client.recfsCnt) : Based after :=
  ⟨by rw [queue, rel, count]; exact based.queue, by rw [db, count]; exact based.dated,
    by rw [rel, count]; exact based.related⟩

/-- A relation of a moved path comes with a version above the limit. -/
theorem RelDated.relEnqueue {version : UInt64} (dated : RelDated rel limit) (above : version.toNat = limit + 1)
    (entered : relEnqueue source target version rel = .ok rel') :
    RelDated rel' (limit + 1) ∧
      ∀ src dst time, rel'.Related src dst time → rel.Related src dst time ∨ time.toNat = limit + 1 := by
  obtain ⟨sane, fewer⟩ := dated.sane.relEnqueue entered
  have cases : ∀ src dst time, rel'.Related src dst time → rel.Related src dst time ∨ time.toNat = limit + 1 := by
    intro src dst time related
    rcases fewer related with ⟨-, -, rfl⟩ | ⟨-, old⟩
    · exact .inr above
    · exact .inl old
  refine ⟨⟨sane, fun src dst time related => ?_⟩, cases⟩
  rcases cases src dst time related with old | new
  · exact (dated.bound src dst time old).trans (Nat.le_succ limit)
  · exact new.le

theorem RelDated.forget (dated : RelDated rel limit) (sane : rel'.Sane)
    (fewer : ∀ src dst time, rel'.Related src dst time → rel.Related src dst time) : RelDated rel' limit :=
  ⟨sane, fun src dst time related => dated.bound src dst time (fewer src dst time related)⟩

namespace Based

variable {queue queue' : SyncQueue}

/-- A node that is neither buffered nor a delta. -/
private theorem enqueuePlain {op : Op} {src dst : Path} {para : Option (Fin 5 → UInt64)}
    {bn : Option (List BufInfo)} {localtime baseVersion : UInt64} (holds : queue.Holds (OwnBases rel limit))
    (enqueued : syncEnqueue op src dst para bn none localtime baseVersion queue = .ok queue')
    (plain : op ≠ .newfile ∧ op ≠ .write ∧ op ≠ .delta) : queue'.Holds (OwnBases rel limit) := by
  refine holds.enqueue enqueued (fun buffered => ?_) fun _ old own => own.append (fun pending => ?_) fun op' => ?_
  · simp [Op.isBuffered, plain] at buffered
  · simp [SyncNode.Pending, SyncNode.enqueued, Op.isBuffered, plain] at pending
  · simp [SyncNode.enqueued, plain] at op'

/-- Dropping a pending node. -/
private theorem drops (before : List SyncNode) (sn : SyncNode) (rest : List SyncNode)
    (own : OwnBases rel limit (before ++ sn :: rest)) :
    OwnBases rel limit (before ++ { sn with isDelete := true } :: rest) :=
  own.replace (fun op => own.base sn (by simp) op) fun waits => absurd waits (SyncNode.not_pending_of_deleted rfl)

theorem mknod {mode rdev : ℕ} (based : Based client) (bound : client.recfsCnt.toNat + 1 < counterBound)
    (handled : xmpMknod env path mode rdev client = .ok (res, after)) : Based after := by
  obtain ⟨stored, rfl, outcome⟩ := xmpMknod_eq_ok handled
  have count := recfsCnt_toNat bound
  have dated := based.dated.update path (newVersion_toNat bound)
  rcases outcome with ⟨-, rfl⟩ | ⟨fs, packed, queue, -, packing, queued, -, rfl⟩
  · exact ⟨by simpa only [count] using based.queue.imp fun _ => OwnBases.mono, by simpa only [count] using dated,
      by simpa only [count] using based.related.mono⟩
  · obtain ⟨db, rel, kept⟩ := syncPackWritePath_frame packing based.queue.tidy
    obtain ⟨holds, none⟩ := SyncQueue.Holds.packPath packing based.queue (OwnBases.packKeeps env _)
    have last := holds.enqueue queued (fun _ => none) fun _ old own =>
      own.pending based.related (newVersion_toNat bound) (by simp [SyncNode.enqueued])
    refine ⟨?_, ?_, ?_⟩
    · simpa only [kept, count, rel] using last
    · simpa only [kept, count, db] using dated
    · simpa only [kept, count, rel] using based.related.mono

theorem mkdir {mode : ℕ} (based : Based client) (bound : client.recfsCnt.toNat + 1 < counterBound)
    (handled : xmpMkdir env path mode client = .ok (res, after)) : Based after := by
  have count := recfsCnt_toNat bound
  rcases xmpMkdir_eq_ok handled with ⟨-, rfl⟩ | ⟨fs, queue, -, queued, -, rfl⟩
  · exact based
  · have ready := (enqueuePlain based.queue queued (by decide)).imp fun _ => OwnBases.mono
    exact ⟨by simpa only [count] using ready,
      by simpa only [count] using based.dated.update path (newVersion_toNat bound),
      by simpa only [count] using based.related.mono⟩

theorem unlink (based : Based client) (bound : client.recfsCnt.toNat + 1 < counterBound)
    (handled : xmpUnlink env path client = .ok (res, after)) : Based after := by
  obtain ⟨version, packed, rel, -, packing, forgotten, outcome⟩ := xmpUnlink_eq_ok handled
  obtain ⟨db, same, kept⟩ := syncPackWritePath_frame packing based.queue.tidy
  obtain ⟨holds, -⟩ := SyncQueue.Holds.packPath packing based.queue (OwnBases.packKeeps env _)
  rw [← kept] at bound
  have above := newVersion_toNat bound
  have count := recfsCnt_toNat bound
  have fewer : rel.Sane ∧ ∀ src dst time, rel.Related src dst time → client.rel.Related src dst time := by
    obtain ⟨sane, first⟩ := based.related.sane.relDeleteDst path
    obtain ⟨sane', second⟩ := sane.relDeleteSrc path
    rw [forgotten, same]
    exact ⟨sane', fun _ _ _ related => (first (second related).1).1⟩
  have own : packed.queue.Holds (OwnBases rel packed.recfsCnt.toNat) := by
    rw [kept]
    exact holds.imp fun _ own => own.forget fewer.2
  have related : RelDated rel packed.recfsCnt.toNat := by
    rw [kept]
    exact based.related.forget fewer.1 fewer.2
  have dated : Dated packed.db packed.recfsCnt.toNat := by
    rw [kept, db]
    exact based.dated
  rcases outcome with ⟨-, rfl⟩ | ⟨fs, queue, entered, -, queued, entering, -, rfl⟩
  · exact ⟨own, dated, related⟩
  · obtain ⟨related', fresh⟩ := related.relEnqueue above entering
    have ready := (enqueuePlain own queued (by decide)).imp fun _ own => own.relate fresh
    exact ⟨by simpa only [count] using ready,
      by simpa only [count] using (dated.update (tmpPath path) above).delete path,
      by simpa only [count] using related'⟩

theorem rmdir (based : Based client) (handled : xmpRmdir env path client = .ok (res, after)) : Based after := by
  obtain ⟨version, queue, -, queued, outcome⟩ := xmpRmdir_eq_ok handled
  have ready : Based { client with queue := queue } :=
    ⟨enqueuePlain based.queue queued (by decide), based.dated, based.related⟩
  rcases outcome with ⟨-, rfl⟩ | ⟨fs, -, -, rfl⟩
  · exact ready
  · exact ready.congr rfl rfl rfl rfl

/-- The base of the delta of a rename is older than its version. -/
private theorem renameBase_ne (client : Client) {base version : UInt64} (dated : Dated client.db limit)
    (above : version.toNat = limit + 1) (known : RenameBase client target base) : base ≠ version := by
  rintro rfl
  have : base.toNat ≤ limit := by
    rcases known with known | ⟨rh, -, -, known⟩
    · exact dated.bound _ _ known
    · exact dated.bound _ _ known
  omega

theorem rename (based : Based client) (bound : client.recfsCnt.toNat + 1 < counterBound)
    (handled : xmpRename env source target client = .ok (res, after)) : Based after := by
  obtain ⟨version, synced, rel, -, syncing, entering, outcome⟩ := xmpRename_eq_ok handled
  have above := newVersion_toNat bound
  have dated := based.dated.delete source
  obtain ⟨holds, same, kept, db⟩ := SyncQueue.Holds.renameSync syncing based.queue (OwnBases.packKeeps env _)
    (OwnBases.packKeeps env _)
    (fun nodes old own => own.append (by simp [SyncNode.Pending, SyncNode.enqueued, Op.isBuffered])
      (by simp [SyncNode.enqueued]))
    (fun _ => id) (fun before sn rest _ _ own => drops before sn rest own)
    (fun nodes old own => own.append (by simp [SyncNode.Pending, SyncNode.enqueued, Op.isBuffered])
      (by simp [SyncNode.enqueued]))
    (fun nodes old deltaFile para base known own => own.append
      (by simp [SyncNode.Pending, SyncNode.enqueued, Op.isBuffered]) fun _ => renameBase_ne _ dated above known)
  have count : synced.recfsCnt.toNat = client.recfsCnt.toNat + 1 := by rw [kept, recfsCnt_toNat bound]
  obtain ⟨sane, fewer⟩ := based.related.sane.replaced target same
  have left := based.related.forget sane fun _ _ _ related => (fewer related).1
  obtain ⟨related, fresh⟩ := left.relEnqueue above entering
  have ready : Based { synced with rel := rel } := by
    refine ⟨?_, ?_, ?_⟩
    · simp only [count]
      refine holds.imp fun _ own => own.relate fun src dst time related => ?_
      rcases fresh src dst time related with old | new
      · exact .inl ((fewer old).1)
      · exact .inr new
    · simp only [count, db]
      exact dated.update target above
    · simpa only [count] using related
  rcases outcome with ⟨-, rfl⟩ | ⟨fs, -, -, rfl⟩
  · exact ready
  · exact ready.congr rfl rfl rfl rfl

/-- A link whose target leads to another version than that of its source. -/
theorem link (based : Based client) (bound : client.recfsCnt.toNat + 1 < counterBound)
    (other : ∀ rh ∈ relFind target client.rel,
      client.db (client.rel.rq.node rh.loc).dst = some (client.rel.rq.node rh.loc).time →
      client.db source ≠ some (client.rel.rq.node rh.loc).time)
    (handled : xmpLink env source target client = .ok (res, after)) : Based after := by
  obtain ⟨version, synced, queue, known, syncing, queued, outcome⟩ := xmpLink_eq_ok handled
  obtain ⟨holds, rel, kept, db⟩ := SyncQueue.Holds.linkSync syncing based.queue (OwnBases.packKeeps env _)
    (fun _ => id)
    (fun nodes old deltaFile para rh found current own => own.append
      (by simp [SyncNode.Pending, SyncNode.enqueued, Op.isBuffered])
      fun _ same => other rh found current (known.trans (congrArg some same.symm)))
    (fun _ => id) (fun before sn rest _ _ own => drops before sn rest own)
  rw [← kept] at bound
  have above := newVersion_toNat bound
  have count := recfsCnt_toNat bound
  have ready : Based { synced with
      recfsCnt := synced.recfsCnt + 1, queue := queue
      db := Function.update synced.db target (some synced.newVersion) } := by
    refine ⟨?_, ?_, ?_⟩
    · simp only [count, rel]
      rw [kept]
      exact (enqueuePlain holds queued (by decide)).imp fun _ => OwnBases.mono
    · simp only [count]
      have dated : Dated synced.db synced.recfsCnt.toNat := by
        rw [kept, db]
        exact based.dated
      exact dated.update target above
    · simp only [count, rel]
      rw [kept]
      exact based.related.mono
  rcases outcome with ⟨-, rfl⟩ | ⟨fs, -, -, rfl⟩
  · exact ready
  · exact ready.congr rfl rfl rfl rfl

theorem setattr {op : Op} {para : List UInt64} (based : Based client)
    (handled : xmpSetattr env op path para client = .ok (res, after))
    (plain : op ≠ .newfile ∧ op ≠ .write ∧ op ≠ .delta) : Based after := by
  obtain ⟨queue, queued, outcome⟩ := xmpSetattr_eq_ok handled
  have ready : Based { client with queue := queue } :=
    ⟨enqueuePlain based.queue queued plain, based.dated, based.related⟩
  rcases outcome with ⟨-, rfl⟩ | ⟨fs, -, -, rfl⟩
  · exact ready
  · exact ready.congr rfl rfl rfl rfl

/-- A record changes neither version. -/
private theorem appends (record : BufInfo) (before : List SyncNode) (sn : SyncNode) (rest : List SyncNode)
    (own : OwnBases rel limit (before ++ sn :: rest)) :
    OwnBases rel limit (before ++ sn.appended record :: rest) := by
  obtain ⟨op, -, -, time, base, -, -, -, pending⟩ := sn.appended_fields record
  refine own.replace (fun kind => ?_) fun waits => ⟨pending.mp waits, time⟩
  rw [op] at kind
  rw [base, time]
  exact own.base sn (by simp) kind

theorem truncateSync {size : ℕ} (based : Based client) (bound : client.recfsCnt.toNat + 1 < counterBound)
    (synced : truncateSync path size client = .ok after) : Based after := by
  rcases truncateSync_eq_ok synced with
    ⟨-, rfl⟩ | ⟨-, sh, hit, rfl⟩ | ⟨-, -, version, queue, -, queued, rfl⟩
  · refine ⟨based.queue.syncDeleteWrite path fun _ sn _ _ _ own => own.replace (fun op => ?_) fun waits =>
      absurd waits (Indexed.deleteWrite_settled sn), based.dated, based.related⟩
    obtain ⟨time, base, dropped | same⟩ := Indexed.deleteWrite_fields sn
    · simp [dropped] at op
    · rw [time, base]
      exact own.base sn (by simp) (same ▸ op)
  · exact ⟨based.queue.appended path _ hit fun before sn rest _ _ => appends _ before sn rest, based.dated,
      based.related⟩
  · have count := recfsCnt_toNat bound
    have ready := (enqueuePlain (based.queue.syncFind path) queued (by decide)).imp fun _ => OwnBases.mono
    exact ⟨by simpa only [count] using ready,
      by simpa only [count] using based.dated.update path (newVersion_toNat bound),
      by simpa only [count] using based.related.mono⟩

theorem writeSync {offset : ℕ} {data : Bytes} (based : Based client)
    (bound : client.recfsCnt.toNat + 1 < counterBound) (synced : writeSync env path offset data client = .ok after) :
    Based after := by
  rcases writeSync_eq_ok synced with ⟨sh, hit, rfl⟩ | ⟨miss, version, queue, known, queued, rfl⟩
  · exact ⟨based.queue.appended path _ hit fun before sn rest _ _ => appends _ before sn rest, based.dated,
      based.related⟩
  · have count := recfsCnt_toNat bound
    have above := newVersion_toNat bound
    have none : ∀ sh ∈ (syncFind path client.queue).2.shs, sh.path ≠ path := by
      rw [(based.queue.tidy.syncFind path).2.1]
      exact based.queue.tidy.not_found miss
    have older : version ≠ client.newVersion := by
      rintro rfl
      have := based.dated.bound path _ known
      omega
    have ready := (based.queue.syncFind path).enqueue queued (fun _ => none) fun _ old own =>
      own.pending based.related above fun _ => older
    exact ⟨by simpa only [count] using ready, by simpa only [count] using based.dated.update path above,
      by simpa only [count] using based.related.mono⟩

theorem syncExecute {sent : Option SyncNode} (based : Based client)
    (executed : syncExecute env client = .ok (sent, after)) : Based after := by
  rcases SyncQueue.Holds.syncExecute executed based.queue (OwnBases.packKeeps env _) with
    ⟨-, rfl⟩ | ⟨⟨db, rel, count⟩, sn, -, holds⟩
  · exact based
  · refine ⟨?_, by rw [db, count]; exact based.dated, by rw [rel, count]; exact based.related⟩
    rw [rel, count]
    exact holds.imp fun nodes own => own.subset (List.subset_cons_self sn nodes)

end Based

/-! ## Runs -/

/-- The name a link makes does not lead to the version of the file it links. -/
def LinksElsewhere (call : Call) (client : Client) : Prop :=
  match call with
  | .link source target => ∀ rh ∈ relFind target client.rel,
    client.db (client.rel.rq.node rh.loc).dst = some (client.rel.rq.node rh.loc).time →
    client.db source ≠ some (client.rel.rq.node rh.loc).time
  | _ => True

instance (call : Call) (client : Client) : Decidable (LinksElsewhere call client) :=
  match call with
  | .link _ _ => inferInstanceAs (Decidable (∀ rh ∈ _, _ → _))
  | .mknod .. | .mkdir .. | .unlink .. | .rmdir .. | .rename .. | .chmod .. | .chown .. | .truncate .. | .utimens ..
  | .write .. | .syncExecute | .relDequeue => isTrue trivial

/-- The counter stays below the mask, and links do not lead to themselves. -/
def BasesDiffer (event : Event) (client : Client) : Prop :=
  (event.call.counts = true → client.recfsCnt.toNat + 1 < counterBound) ∧ LinksElsewhere event.call client

instance (event : Event) (client : Client) : Decidable (BasesDiffer event client) :=
  inferInstanceAs (Decidable ((_ → _) ∧ _))

theorem Based.step {event : Event} (based : Based client) (differ : BasesDiffer event client)
    (stepped : client.next event = .ok after) : Based after := by
  obtain ⟨env, call⟩ := event
  obtain ⟨bound, elsewhere⟩ := differ
  obtain ⟨outcome, ran, rfl⟩ := next_eq_ok stepped
  cases call with
  | mknod path mode rdev => exact based.mknod (bound rfl) (ofHandled_eq_ok ran).1
  | mkdir path mode => exact based.mkdir (bound rfl) (ofHandled_eq_ok ran).1
  | unlink path => exact based.unlink (bound rfl) (ofHandled_eq_ok ran).1
  | rmdir path => exact based.rmdir (ofHandled_eq_ok ran).1
  | rename source target => exact based.rename (bound rfl) (ofHandled_eq_ok ran).1
  | link source target => exact based.link (bound rfl) elsewhere (ofHandled_eq_ok ran).1
  | chmod path mode => exact based.setattr (ofHandled_eq_ok ran).1 (by decide)
  | chown path uid gid => exact based.setattr (ofHandled_eq_ok ran).1 (by decide)
  | utimens path accessed modified => exact based.setattr (ofHandled_eq_ok ran).1 (by decide)
  | truncate path size =>
    obtain ⟨synced, syncing, ⟨-, same⟩ | ⟨fs, -, -, same⟩⟩ := xmpTruncate_eq_ok (ofHandled_eq_ok ran).1
    · exact same ▸ based.truncateSync (bound rfl) syncing
    · exact same ▸ (based.truncateSync (bound rfl) syncing).congr rfl rfl rfl rfl
  | write path offset data =>
    obtain ⟨synced, syncing, ⟨-, same⟩ | ⟨fs, -, -, -, same⟩⟩ := xmpWrite_eq_ok (ofHandled_eq_ok ran).1
    · exact same ▸ based.writeSync (bound rfl) syncing
    · exact same ▸ (based.writeSync (bound rfl) syncing).congr rfl rfl rfl rfl
  | syncExecute => exact based.syncExecute (step_syncExecute ran).1
  | relDequeue =>
    obtain rfl := Except.ok.inj ran
    obtain ⟨sane, fewer⟩ := based.related.sane.relDequeue
    exact ⟨based.queue.imp fun _ own => own.forget fun _ _ _ => fewer, based.dated,
      based.related.forget sane fun _ _ _ => fewer⟩

theorem Based.initial (memory : Memory) (dirSize : Path → ℕ) : Based (Client.initial memory dirSize) where
  queue := .initial _ _ ⟨by simp, by simp, by simp⟩
  dated := ⟨by simp [Client.initial], by simp [Client.initial]⟩
  related := ⟨.initial _, fun _ _ _ related => absurd related (RelTable.Sane.not_related_initial _)⟩

/-- In every state that such calls reach, the base of a DELTA node differs from its version. -/
theorem delta_bases_differ (memory : Memory) (dirSize : Path → ℕ) (client : Client)
    (run : Transition.Run Client.next BasesDiffer (Client.initial memory dirSize) client) :
    ∀ slot < queueSize, (client.node slot).isEmpty = false → (client.node slot).op = .delta →
      (client.node slot).baseVer ≠ (client.node slot).time := by
  have based : Based client := run.invariant Based (fun kept differ stepped => kept.step differ stepped)
    (.initial memory dirSize)
  obtain ⟨-, nodes, lists, own⟩ := based.queue
  intro slot bound occupied delta
  exact own.base (client.node slot) (lists.mem bound occupied) (.inr delta)

/-- A file is moved away, and another one is linked to its former name: the link queues a delta from the one
to the other. -/
def linkedOver : List Event :=
  [⟨.plain, .mknod [47, 97] 33188 0⟩, ⟨.plain, .write [47, 97] 0 [7]⟩, ⟨.plain, .rename [47, 97] [47, 98]⟩,
    ⟨.plain, .mknod [47, 99] 33188 0⟩, ⟨.plain, .link [47, 99] [47, 97]⟩]

theorem delta_bases_differ_linked :
    ∃ client, Transition.replay Client.next linkedOver Client.empty = .ok client ∧
      (client.node 3).op = .delta ∧ (client.node 3).isEmpty = false ∧
      (client.node 3).baseVer ≠ (client.node 3).time := by
  have replayed : ∃ client, Transition.replay Client.next linkedOver Client.empty = .ok client ∧
      ((client.node 3).op = .delta ∧ (client.node 3).isEmpty = false) := Except.exists_ok (by decide +kernel)
  obtain ⟨client, replayed, delta, occupied⟩ := replayed
  have allowed : Transition.AllAllowed Client.next BasesDiffer linkedOver Client.empty := by decide +kernel
  have run := Transition.Run.of_replay linkedOver allowed replayed
  exact ⟨client, replayed, delta, occupied, delta_bases_differ _ _ client run 3 (by decide) occupied delta⟩

/-- A file is renamed and then linked back to its former name. -/
def linkedBack : List Event :=
  [⟨.plain, .mknod [47, 97] 33188 0⟩, ⟨.plain, .rename [47, 97] [47, 98]⟩, ⟨.plain, .link [47, 98] [47, 97]⟩]

/-- The link queues a delta from the file to itself. -/
theorem link_back_patches_itself :
    ∃ client, Transition.Run Client.next (fun _ _ => True) Client.empty client ∧
      Transition.replay Client.next linkedBack Client.empty = .ok client ∧
      (client.node 2).isEmpty = false ∧ (client.node 2).op = .delta ∧ (client.node 2).isDelete = false ∧
      (client.node 2).baseVer = 3 ∧ (client.node 2).time = 3 := by
  have replayed : ∃ client, Transition.replay Client.next linkedBack Client.empty = .ok client ∧
      ((client.node 2).isEmpty = false ∧ (client.node 2).op = .delta ∧ (client.node 2).isDelete = false ∧
        (client.node 2).baseVer = 3 ∧ (client.node 2).time = 3) := Except.exists_ok (by decide +kernel)
  obtain ⟨client, replayed, facts⟩ := replayed
  exact ⟨client, .of_replay linkedBack (Transition.allAllowed_true linkedBack Client.empty) replayed, replayed, facts⟩

end DeltaCFS
