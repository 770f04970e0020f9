import DeltaCFS.Proofs.Client.WellFormed

/-! # Calls that fail

What a handler leaves behind when its system call fails. `xmp_mkdir` makes the call first and leaves
nothing; the others have by then stored a version, forgotten relations, queued a node or changed a
pending one, except in the cases collected in `LeavesSync`.
-/

namespace DeltaCFS

variable {env : Env} {client after : Client} {path source target : Path} {res : ℤ} {nodes : List SyncNode}

/-! ## The sync state -/

/-- The nodes that will be sent. -/
def toSend (nodes : List SyncNode) : List SyncNode := nodes.filter fun sn => !sn.isDelete

/-- The same node, or what packing makes of it: the same version of the same path, either with its
records and base or as a delta. -/
def SyncNode.SentAs (sn sn' : SyncNode) : Prop :=
  sn' = sn ∨
    sn.Pending ∧ sn'.isPacked = true ∧ sn'.isDelete = false ∧ sn'.time = sn.time ∧
      (sn'.op = sn.op ∧ sn'.src = sn.src ∧ sn'.bn = sn.bn ∧ sn'.baseVer = sn.baseVer ∨
        sn'.op = .delta ∧ sn'.dst = sn.src)

/-- The versions, the relations and the nodes to send are the same, up to packing. -/
structure SameSync (before after : Client) : Prop where
  db : after.db = before.db
  rel : after.rel = before.rel
  nodes : ∃ nodes nodes', before.queue.Lists nodes ∧ after.queue.Lists nodes' ∧
    List.Forall₂ SyncNode.SentAs (toSend nodes) (toSend nodes')

/-- So many nodes, or more, will be sent. -/
def SendsAtLeast (count : ℕ) (nodes : List SyncNode) : Prop := count ≤ (toSend nodes).length

theorem toSend_cons {sn : SyncNode} (alive : sn.isDelete = false) (before rest : List SyncNode) :
    toSend (before ++ sn :: rest) = toSend before ++ sn :: toSend rest := by
  simp [toSend, List.filter_append, alive]

theorem toSend_cons_deleted {sn : SyncNode} (deleted : sn.isDelete = true) (before rest : List SyncNode) :
    toSend (before ++ sn :: rest) = toSend before ++ toSend rest := by
  simp [toSend, List.filter_append, deleted]

theorem forall₂_sentAs_refl (nodes : List SyncNode) : List.Forall₂ SyncNode.SentAs nodes nodes :=
  List.forall₂_same.mpr fun _ _ => .inl rfl

/-- Replacing a related element by another one that is. -/
private theorem forall₂_replace {α β : Type} {R : α → β → Prop} {first : List α} {before rest : List β} {value value' : β}
    (related : List.Forall₂ R first (before ++ value :: rest)) (better : ∀ x, R x value → R x value') :
    List.Forall₂ R first (before ++ value' :: rest) := by
  induction before generalizing first with
  | nil =>
    obtain ⟨head, tail, here, more, rfl⟩ := List.forall₂_cons_right_iff.mp related
    exact .cons (better head here) more
  | cons other before ih =>
    obtain ⟨head, tail, here, more, rfl⟩ := List.forall₂_cons_right_iff.mp related
    exact .cons here (ih more)

/-- Elements at the same place are related. -/
private theorem forall₂_middle {α β : Type} {R : α → β → Prop} {before rest : List α} {before' rest' : List β}
    {value : α} {value' : β} (related : List.Forall₂ R (before ++ value :: rest) (before' ++ value' :: rest'))
    (same : before.length = before'.length) : R value value' := by
  induction before generalizing before' with
  | nil =>
    obtain rfl := List.length_eq_zero_iff.mp same.symm
    exact (List.forall₂_cons.mp related).1
  | cons head before ih =>
    obtain ⟨head', before', rfl⟩ := List.exists_cons_of_length_eq_add_one same.symm
    exact ih (List.forall₂_cons.mp related).2 (by simpa using same)

/-! ## Packing -/

theorem PackedOne.sentAs {slot : ℕ} (one : PackedOne env slot client after) (pending : (client.node slot).Pending) :
    (client.node slot).SentAs (after.node slot) := by
  have alive : (client.node slot).isDelete = false := pending.2.2
  rcases one.node_cases with same | ⟨-, content, packed⟩ | ⟨-, rh, deltaFile, -, -, packed⟩ |
    ⟨write, packed | ⟨deltaFile, packed⟩⟩
  · exact .inl same
  · rw [packed]
    exact .inr ⟨pending, rfl, alive, rfl, .inl ⟨rfl, rfl, rfl, rfl⟩⟩
  · rw [packed]
    exact .inr ⟨pending, rfl, alive, rfl, .inr ⟨rfl, rfl⟩⟩
  · rw [packed]
    exact .inr ⟨pending, rfl, alive, rfl, .inl ⟨write.symm, rfl, rfl, rfl⟩⟩
  · rw [packed]
    exact .inr ⟨pending, rfl, alive, rfl, .inr ⟨rfl, rfl⟩⟩

/-- A node that still waits is the same as before. -/
theorem SyncNode.SentAs.eq_of_pending {sn sn' : SyncNode} (sentAs : sn.SentAs sn') (pending : sn'.Pending) :
    sn' = sn := by
  rcases sentAs with same | ⟨-, packed, -⟩
  · exact same
  · exact absurd pending (SyncNode.not_pending_of_packed packed)

/-- Packing keeps what will be sent. -/
theorem packKeeps_sentAs (env : Env) (client : Client) (first : List SyncNode) :
    PackKeeps env client fun nodes => List.Forall₂ SyncNode.SentAs first (toSend nodes) := by
  intro state after slot before rest _ _ pending one related
  have sentAs := one.sentAs pending
  have alive : (after.node slot).isDelete = false := by
    rcases sentAs with same | ⟨-, -, alive, -⟩
    · exact same ▸ pending.2.2
    · exact alive
  rw [toSend_cons pending.2.2] at related
  rw [toSend_cons alive]
  refine forall₂_replace related fun sn here => ?_
  rw [here.eq_of_pending pending] at sentAs
  exact sentAs

/-- Packing keeps the number of nodes that will be sent. -/
theorem packKeeps_length (env : Env) (client : Client) (count : ℕ) :
    PackKeeps env client (SendsAtLeast count) := by
  intro state after slot before rest _ _ pending one more
  have alive : (after.node slot).isDelete = false := by
    rcases one.sentAs pending with same | ⟨-, -, alive, -⟩
    · exact same ▸ pending.2.2
    · exact alive
  rw [SendsAtLeast, toSend_cons pending.2.2] at more
  rw [SendsAtLeast, toSend_cons alive]
  simpa using more

theorem SendsAtLeast.enqueued {count : ℕ} (more : SendsAtLeast count nodes) (old : SyncNode) (op : Op) (src dst : Path)
    (para : Option (Fin 5 → UInt64)) (bn : Option (List BufInfo)) (localtime base : UInt64) :
    SendsAtLeast (count + 1) (nodes ++ [old.enqueued op src dst para bn none localtime base]) := by
  rw [SendsAtLeast, toSend_cons rfl]
  simpa [toSend, SendsAtLeast] using more

theorem SendsAtLeast.less {count : ℕ} (more : SendsAtLeast (count + 1) nodes) : SendsAtLeast count nodes :=
  (Nat.le_succ count).trans more

/-- Dropping a node takes one away. -/
theorem SendsAtLeast.drop {count : ℕ} {before rest : List SyncNode} {sn : SyncNode} (pending : sn.Pending)
    (more : SendsAtLeast (count + 1) (before ++ sn :: rest)) :
    SendsAtLeast count (before ++ { sn with isDelete := true } :: rest) := by
  rw [SendsAtLeast, toSend_cons pending.2.2] at more
  rw [SendsAtLeast, toSend_cons_deleted rfl]
  simp only [List.length_append, List.length_cons] at more ⊢
  omega

/-- Something is queued for good. -/
theorem not_sameSync_of_more (lists : client.queue.Lists nodes)
    (more : after.queue.Holds (SendsAtLeast ((toSend nodes).length + 1))) :
    ¬ SameSync client after := by
  rintro ⟨-, -, first, second, lists', lists'', related⟩
  obtain ⟨-, nodes', lists''', more⟩ := more
  obtain rfl := lists.unique lists'
  obtain rfl := lists''.unique lists'''
  have := related.length_eq
  rw [SendsAtLeast] at more
  omega

/-! ## The handlers -/

/-- The pending node of the path is that of a new file. -/
def PendsNew (path : Path) (client : Client) : Prop :=
  ∃ sh, (syncFind path client.queue).1 = some sh ∧ (client.node sh.loc).op = .newfile

/-- When a call that fails leaves the sync state as it was: making a directory; making a file whose
version is stored already; unlinking a path no relation knows; truncating to zero without a pending
node; and truncating or writing to a new file that still waits. -/
def LeavesSync (call : Call) (client : Client) : Prop :=
  match call with
  | .mkdir _ _ => True
  | .mknod path _ _ => client.db path = some client.newVersion
  | .unlink path => ∀ src dst time, client.rel.Related src dst time → src ≠ path ∧ dst ≠ path
  | .truncate path size => if size = 0 then (syncFind path client.queue).1 = none else PendsNew path client
  | .write path _ _ => PendsNew path client
  | _ => False

theorem SameSync.refl (formed : client.WellFormed) : SameSync client client := by
  obtain ⟨-, nodes, lists, -⟩ := formed.queue
  exact ⟨rfl, rfl, nodes, nodes, lists, lists, forall₂_sentAs_refl _⟩

theorem mknod_sameSync_iff {mode rdev : ℕ} (formed : client.WellFormed)
    (handled : xmpMknod env path mode rdev client = .ok (res, after)) (failed : res < 0) :
    SameSync client after ↔ client.db path = some client.newVersion := by
  obtain ⟨stored, rfl, ⟨-, rfl⟩ | ⟨fs, packed, queue, -, -, -, rfl, -⟩⟩ := xmpMknod_eq_ok handled
  · constructor
    · intro same
      have here := congrFun same.db path
      simpa using here.symm
    · intro known
      obtain ⟨-, -, nodes⟩ := SameSync.refl formed
      exact ⟨by simp [known], rfl, nodes⟩
  · exact absurd failed (by simp)

/-- Without a relation to the path nothing is forgotten. -/
theorem relDeleteDst_eq_self {rel : RelTable} (sane : rel.Sane)
    (none : ∀ src dst time, rel.Related src dst time → dst ≠ path) : relDeleteDst path rel = rel := by
  obtain ⟨fifo, consistent⟩ := sane
  have others : ∀ rh ∈ rel.rhs.reverse, (rel.rq.node rh.loc).dst ≠ path := by
    intro rh member
    have found := consistent.relFind_eq_some.mpr ⟨List.mem_reverse.mp member, rfl⟩
    exact none _ _ _ (RelTable.related_of_relFind found)
  rw [relDeleteDst]
  generalize rel.rhs.reverse = entries at others
  induction entries with
  | nil => rfl
  | cons rh rest ih =>
    rw [List.foldl_cons, if_neg (others rh List.mem_cons_self)]
    exact ih fun other member => others other (List.mem_cons_of_mem _ member)

theorem unlink_sameSync_iff (formed : client.WellFormed)
    (handled : xmpUnlink env path client = .ok (res, after)) (failed : res < 0) :
    SameSync client after ↔ ∀ src dst time, client.rel.Related src dst time → src ≠ path ∧ dst ≠ path := by
  obtain ⟨version, packed, rel, -, packing, forgotten, outcome⟩ := xmpUnlink_eq_ok handled
  obtain ⟨db, same, -⟩ := syncPackWritePath_frame packing formed.queue.tidy
  obtain ⟨-, rfl⟩ : res < 0 ∧ after = { packed with rel := rel } := by
    rcases outcome with failed | ⟨fs, queue, related, -, -, -, rfl, -⟩
    · exact failed
    · exact absurd failed (by simp)
  rw [same] at forgotten
  obtain ⟨sane, first⟩ := formed.rel.relDeleteDst path
  obtain ⟨-, second⟩ := sane.relDeleteSrc path
  constructor
  · rintro ⟨-, unchanged, -⟩ src dst time related
    rw [← show rel = client.rel from unchanged, forgotten] at related
    exact ⟨(second related).2, (first (second related).1).2⟩
  · intro unknown
    have kept : relDeleteDst path client.rel = client.rel :=
      relDeleteDst_eq_self formed.rel fun src dst time related => (unknown src dst time related).2
    have unchanged : rel = client.rel := by
      rw [forgotten, kept, relDeleteSrc]
      split
      · next rh found => exact absurd rfl (unknown _ _ _ (RelTable.related_of_relFind found)).1
      · rfl
    obtain ⟨tidy, nodes, lists, -⟩ := formed.queue
    have ready : client.queue.Holds fun nodes' => List.Forall₂ SyncNode.SentAs (toSend nodes) (toSend nodes') :=
      ⟨tidy, nodes, lists, forall₂_sentAs_refl _⟩
    obtain ⟨⟨-, nodes', lists', related⟩, -⟩ :=
      SyncQueue.Holds.packPath packing ready (packKeeps_sentAs env client _)
    exact ⟨db, unchanged, nodes, nodes', lists, lists', related⟩

/-- A handler that queues a node before its system call. -/
theorem not_sameSync_of_enqueue {op : Op} {src dst : Path} {para : Option (Fin 5 → UInt64)}
    {localtime base : UInt64} {queue : SyncQueue} (plain : op.isBuffered = false) (lists : client.queue.Lists nodes)
    (ready : queue.Holds (SendsAtLeast (toSend nodes).length))
    (enqueued : syncEnqueue op src dst para none none localtime base queue = .ok after.queue) :
    ¬ SameSync client after :=
  not_sameSync_of_more lists (ready.enqueue enqueued (by simp [plain]) fun _ old more => more.enqueued old ..)

/-- What is to be sent, as a start. -/
theorem Client.WellFormed.counted (formed : client.WellFormed) (lists : client.queue.Lists nodes) :
    client.queue.Holds (SendsAtLeast (toSend nodes).length) :=
  ⟨formed.queue.tidy, nodes, lists, le_rfl⟩

theorem rmdir_not_sameSync (formed : client.WellFormed) (handled : xmpRmdir env path client = .ok (res, after)) :
    ¬ SameSync client after := by
  obtain ⟨version, queue, -, queued, outcome⟩ := xmpRmdir_eq_ok handled
  obtain ⟨nodes, lists, -⟩ := formed.queue.lists
  rcases outcome with ⟨-, rfl⟩ | ⟨fs, -, -, rfl⟩
  · exact not_sameSync_of_enqueue rfl lists (formed.counted lists) queued
  · exact not_sameSync_of_enqueue rfl lists (formed.counted lists) queued

theorem setattr_not_sameSync {op : Op} {para : List UInt64} (formed : client.WellFormed)
    (handled : xmpSetattr env op path para client = .ok (res, after)) (plain : op.isBuffered = false) :
    ¬ SameSync client after := by
  obtain ⟨queue, queued, outcome⟩ := xmpSetattr_eq_ok handled
  obtain ⟨nodes, lists, -⟩ := formed.queue.lists
  rcases outcome with ⟨-, rfl⟩ | ⟨fs, -, -, rfl⟩
  · exact not_sameSync_of_enqueue plain lists (formed.counted lists) queued
  · exact not_sameSync_of_enqueue plain lists (formed.counted lists) queued

theorem rename_not_sameSync (formed : client.WellFormed)
    (handled : xmpRename env source target client = .ok (res, after)) : ¬ SameSync client after := by
  obtain ⟨version, synced, rel, -, syncing, -, outcome⟩ := xmpRename_eq_ok handled
  obtain ⟨nodes, lists, -⟩ := formed.queue.lists
  obtain ⟨holds, -⟩ := SyncQueue.Holds.renameSync syncing (formed.counted lists) (packKeeps_length env _ _)
    (packKeeps_length env _ _) (fun _ old more => more.enqueued old ..) (fun _ => SendsAtLeast.less)
    (fun _ _ _ pending _ more => more.drop pending) (fun _ old more => more.enqueued old ..)
    (fun _ old _ _ _ _ more => more.enqueued old ..)
  rcases outcome with ⟨-, rfl⟩ | ⟨fs, -, -, rfl⟩
  · exact not_sameSync_of_more lists holds
  · exact not_sameSync_of_more lists holds

theorem link_not_sameSync (formed : client.WellFormed)
    (handled : xmpLink env source target client = .ok (res, after)) : ¬ SameSync client after := by
  obtain ⟨version, synced, queue, -, syncing, queued, outcome⟩ := xmpLink_eq_ok handled
  obtain ⟨nodes, lists, -⟩ := formed.queue.lists
  obtain ⟨holds, -⟩ := SyncQueue.Holds.linkSync syncing (formed.counted lists) (packKeeps_length env _ _) (fun _ => id)
    (fun _ old _ _ _ _ _ more => more.enqueued old ..) (fun _ => SendsAtLeast.less)
    (fun _ _ _ pending _ more => more.drop pending)
  rcases outcome with ⟨-, rfl⟩ | ⟨fs, -, -, rfl⟩
  · exact not_sameSync_of_enqueue rfl lists holds queued
  · exact not_sameSync_of_enqueue rfl lists holds queued

/-- A record that is appended shows, unless the node is that of a new file. -/
theorem appended_sameSync_iff {sh : SyncHash} (formed : client.WellFormed) (record : BufInfo)
    (hit : (syncFind path client.queue).1 = some sh) :
    SameSync client { client with
      queue := (syncFind path client.queue).2.modifyNode sh.loc (SyncNode.appended record) } ↔
      PendsNew path client := by
  obtain ⟨nodes, lists, good⟩ := formed.queue.lists
  obtain ⟨before, rest, rfl, pending, -, changed⟩ := lists.appended formed.queue.tidy record hit
  obtain ⟨isNew, records⟩ := good _ (by simp) pending
  obtain ⟨-, -, -, -, -, packed, deleted, -, still⟩ := (client.queue.sq.node sh.loc).appended_fields record
  constructor
  · rintro ⟨-, -, first, second, lists', lists'', related⟩
    obtain rfl := lists.unique lists'
    obtain rfl := lists''.unique changed
    rw [toSend_cons pending.2.2, toSend_cons (deleted.trans pending.2.2)] at related
    have same := (forall₂_middle related rfl).eq_of_pending (still.mpr pending)
    refine ⟨sh, hit, isNew.mp ?_⟩
    by_contra old
    obtain ⟨kept, buffered⟩ := Option.isSome_iff_exists.mp
      (records (pending.op_cases.resolve_left fun newfile => old (isNew.mpr newfile)))
    have longer := congrArg SyncNode.bn same
    simp [SyncNode.appended, old, buffered] at longer
  · rintro ⟨sh', hit', newfile⟩
    obtain rfl := Option.some.inj (hit.symm.trans hit')
    have same : (client.queue.sq.node sh.loc).appended record = client.queue.sq.node sh.loc := by
      rw [SyncNode.appended, if_pos (isNew.mpr newfile)]
    rw [same] at changed
    exact ⟨rfl, rfl, _, _, lists, changed, forall₂_sentAs_refl _⟩

/-- Dropping the pending node of a path shows. -/
theorem syncDeleteWrite_sameSync_iff (formed : client.WellFormed) (path : Path) :
    SameSync client { client with queue := syncDeleteWrite path client.queue } ↔
      (syncFind path client.queue).1 = none := by
  obtain ⟨nodes, lists, -⟩ := formed.queue.lists
  have dropped := lists.dropped formed.queue.tidy path SyncNode.deleteWrite Indexed.deleteWrite_isEmpty
  simp only [syncDeleteWrite]
  cases hit : syncFind path client.queue with
  | mk found queue =>
    rw [hit] at dropped
    cases found with
    | none =>
      exact ⟨fun _ => rfl, fun _ => ⟨rfl, rfl, nodes, nodes, lists, dropped, forall₂_sentAs_refl _⟩⟩
    | some sh =>
      refine ⟨?_, fun absent => by simp at absent⟩
      obtain ⟨before, sn, rest, rfl, pending, -, changed⟩ := dropped
      rintro ⟨-, -, first, second, lists', lists'', related⟩
      obtain rfl := lists.unique lists'
      obtain rfl := lists''.unique changed
      rcases pending.op_cases with newfile | write
      · have kind : sn.deleteWrite.op = .mknod := by simp [SyncNode.deleteWrite, newfile]
        have alive : sn.deleteWrite.isDelete = false := by simp [SyncNode.deleteWrite, newfile, pending.2.2]
        rw [toSend_cons pending.2.2, toSend_cons alive] at related
        rcases forall₂_middle related rfl with same | ⟨-, -, -, -, ⟨same, -⟩ | ⟨same, -⟩⟩
        · exact absurd (kind.symm.trans (congrArg SyncNode.op same)) (by simp [newfile])
        · exact absurd (kind.symm.trans same) (by simp [newfile])
        · exact absurd (kind.symm.trans same) (by simp)
      · have gone : sn.deleteWrite.isDelete = true := by simp [SyncNode.deleteWrite, write]
        rw [toSend_cons pending.2.2, toSend_cons_deleted gone] at related
        have := related.length_eq
        simp at this

theorem truncateSync_sameSync_iff {size : ℕ} (formed : client.WellFormed)
    (synced : truncateSync path size client = .ok after) :
    SameSync client after ↔ if size = 0 then (syncFind path client.queue).1 = none else PendsNew path client := by
  rcases truncateSync_eq_ok synced with
    ⟨zero, rfl⟩ | ⟨positive, sh, hit, rfl⟩ | ⟨positive, miss, version, queue, -, queued, rfl⟩
  · rw [if_pos zero]
    exact syncDeleteWrite_sameSync_iff formed path
  · rw [if_neg positive]
    exact appended_sameSync_iff formed _ hit
  · rw [if_neg positive]
    obtain ⟨nodes, lists, -⟩ := formed.queue.lists
    refine iff_of_false ?_ fun ⟨sh, hit, _⟩ => absurd (miss.symm.trans hit) (by simp)
    exact not_sameSync_of_enqueue rfl lists ((formed.counted lists).syncFind path) queued

theorem writeSync_sameSync_iff {offset : ℕ} {data : Bytes} (formed : client.WellFormed)
    (synced : writeSync env path offset data client = .ok after) :
    SameSync client after ↔ PendsNew path client := by
  rcases writeSync_eq_ok synced with ⟨sh, hit, rfl⟩ | ⟨miss, version, queue, -, queued, rfl⟩
  · exact appended_sameSync_iff formed _ hit
  · obtain ⟨nodes, lists, -⟩ := formed.queue.lists
    refine iff_of_false ?_ fun ⟨sh, hit, _⟩ => absurd (miss.symm.trans hit) (by simp)
    have none : ∀ sh ∈ (syncFind path client.queue).2.shs, sh.path ≠ path := by
      rw [(formed.queue.tidy.syncFind path).2.1]
      exact formed.queue.tidy.not_found miss
    exact not_sameSync_of_more lists (((formed.counted lists).syncFind path).enqueue queued (fun _ => none)
      fun _ old more => more.enqueued old ..)

/-! ## Every call -/

/-- A call that returns an error leaves the sync state as it was, up to packing, exactly in the cases
of `LeavesSync`. -/
theorem failed_call_leaves_sync_iff (env : Env) (call : Call) (client : Client) (outcome : Outcome)
    (formed : client.WellFormed) (ran : client.step env call = .ok outcome) (failed : outcome.res < 0) :
    SameSync client outcome.client ↔ LeavesSync call client := by
  cases call with
  | mknod path mode rdev => exact mknod_sameSync_iff formed (ofHandled_eq_ok ran).1 failed
  | mkdir path mode =>
    refine iff_of_true ?_ trivial
    rcases xmpMkdir_eq_ok (ofHandled_eq_ok ran).1 with ⟨-, same⟩ | ⟨fs, queue, -, -, done, -⟩
    · rw [same]
      exact SameSync.refl formed
    · exact absurd failed (by simp [done])
  | unlink path => exact unlink_sameSync_iff formed (ofHandled_eq_ok ran).1 failed
  | rmdir path => exact iff_of_false (rmdir_not_sameSync formed (ofHandled_eq_ok ran).1) id
  | rename source target => exact iff_of_false (rename_not_sameSync formed (ofHandled_eq_ok ran).1) id
  | link source target => exact iff_of_false (link_not_sameSync formed (ofHandled_eq_ok ran).1) id
  | chmod path mode => exact iff_of_false (setattr_not_sameSync formed (ofHandled_eq_ok ran).1 rfl) id
  | chown path uid gid => exact iff_of_false (setattr_not_sameSync formed (ofHandled_eq_ok ran).1 rfl) id
  | utimens path accessed modified =>
    exact iff_of_false (setattr_not_sameSync formed (ofHandled_eq_ok ran).1 rfl) id
  | truncate path size =>
    obtain ⟨synced, syncing, ⟨-, same⟩ | ⟨fs, -, done, -⟩⟩ := xmpTruncate_eq_ok (ofHandled_eq_ok ran).1
    · exact same ▸ truncateSync_sameSync_iff formed syncing
    · exact absurd failed (by simp [done])
  | write path offset data =>
    obtain ⟨synced, syncing, ⟨-, same⟩ | ⟨fs, -, -, done, -⟩⟩ := xmpWrite_eq_ok (ofHandled_eq_ok ran).1
    · exact same ▸ writeSync_sameSync_iff formed syncing
    · exact absurd failed (by simp [done])
  | syncExecute => exact absurd failed (by simp [(step_syncExecute ran).2])
  | relDequeue =>
    obtain rfl := Except.ok.inj ran
    exact absurd failed (by simp)

/-- An environment in which the system call of the handler fails. -/
def Env.failing (errno : Errno) : Env := { Env.plain with callFails := some errno }

/-- A file that was just created. -/
def oneFile : List Event := [⟨.plain, .mknod [47, 97] 33188 0⟩]

theorem failed_write_to_new_file :
    ∃ client outcome, Transition.replay Client.next oneFile Client.empty = .ok client ∧
      client.step (.failing .eio) (.write [47, 97] 0 [7]) = .ok outcome ∧ outcome.res = -5 ∧
      SameSync client outcome.client := by
  have replayed : ∃ client, Transition.replay Client.next oneFile Client.empty = .ok client ∧
      ((syncFind [47, 97] client.queue).1 = some ⟨[47, 97], 0⟩ ∧ (client.node 0).op = .newfile ∧
        (client.step (.failing .eio) (.write [47, 97] 0 [7])).passes (fun outcome => outcome.res = -5) = true) :=
    Except.exists_ok (by decide +kernel)
  obtain ⟨client, replayed, hit, newfile, fails⟩ := replayed
  obtain ⟨outcome, ran, res⟩ := Except.exists_ok fails
  have formed : client.WellFormed :=
    .of_run (.of_replay oneFile (Transition.allAllowed_true oneFile Client.empty) replayed)
  have leaves : LeavesSync (.write [47, 97] 0 [7]) client := ⟨_, hit, newfile⟩
  exact ⟨client, outcome, replayed, ran, res,
    (failed_call_leaves_sync_iff _ _ client outcome formed ran (by simp [res])).mpr leaves⟩

/-- A rename that fails has taken the version of its source and queued a node. -/
theorem failed_rename_loses_version :
    ∃ client outcome, Transition.replay Client.next oneFile Client.empty = .ok client ∧
      client.step (.failing .enoent) (.rename [47, 97] [47, 98]) = .ok outcome ∧ outcome.res = -2 ∧
      client.db [47, 97] = some 2 ∧ outcome.client.db [47, 97] = none ∧
      (client.node 1).isEmpty = true ∧ (outcome.client.node 1).isEmpty = false ∧
      (outcome.client.node 1).op = .rename ∧ (outcome.client.node 1).isDelete = false ∧
      ¬ SameSync client outcome.client := by
  have replayed : ∃ client, Transition.replay Client.next oneFile Client.empty = .ok client ∧
      (client.db [47, 97] = some 2 ∧ (client.node 1).isEmpty = true ∧
        (client.step (.failing .enoent) (.rename [47, 97] [47, 98])).passes (fun outcome => outcome.res = -2 ∧
          outcome.client.db [47, 97] = none ∧ (outcome.client.node 1).isEmpty = false ∧
          (outcome.client.node 1).op = .rename ∧ (outcome.client.node 1).isDelete = false) = true) :=
    Except.exists_ok (by decide +kernel)
  obtain ⟨client, replayed, version, free, fails⟩ := replayed
  obtain ⟨outcome, ran, res, lost, taken, renames, alive⟩ := Except.exists_ok fails
  refine ⟨client, outcome, replayed, ran, res, version, lost, free, taken, renames, alive, fun same => ?_⟩
  have here := congrFun same.db [47, 97]
  rw [version, lost] at here
  exact absurd here (by simp)

end DeltaCFS
