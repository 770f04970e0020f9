import DeltaCFS.Proofs.Client.WellFormed
import DeltaCFS.ToMathlib.Lockstep
import DeltaCFS.Model.System

/-! # What a slot held before does not show

`sync_enqueue` leaves `para` as it was when it is given none, and `sync_dequeue` clears some fields
only. Two clients that differ in nothing but what their free slots hold do the same, and send the same:
where they still differ in an occupied slot it is in parameters that are not read.
-/

namespace DeltaCFS

open Except (Agree)

variable {env : Env} {client client' : Client} {queue queue' : SyncQueue} {sn sn' : SyncNode} {slot fuel : ℕ}
  {path source target : Path}

/-! ## Nodes -/

/-- `sync_send` reads `para[0]`. -/
def Op.sendsPara (op : Op) : Prop := op = .truncate ∨ op = .newfile ∨ op = .delta

/-- Both slots are free, or their nodes differ in parameters that are not sent. -/
structure SyncNode.Alike (sn sn' : SyncNode) : Prop where
  isEmpty : sn'.isEmpty = sn.isEmpty
  rest : sn.isEmpty = false → ∃ para, sn' = { sn with para := para } ∧ (sn.op.sendsPara → para 0 = sn.para 0)

/-- What is made of an occupied node does not depend on the parameters that are not sent. -/
structure Blind (change : SyncNode → SyncNode) : Prop where
  alike : ∀ (sn : SyncNode) (para : Fin 5 → UInt64), sn.isEmpty = false → (sn.op.sendsPara → para 0 = sn.para 0) →
    (change sn).isEmpty = false ∧ (change sn).Alike (change { sn with para := para })

namespace Blind

theorem packedFile (content : Bytes) : Blind fun sn => sn.packedFile content :=
  ⟨fun _ _ occupied _ => ⟨occupied, rfl, fun _ => ⟨_, rfl, fun _ => rfl⟩⟩⟩

theorem packedDelta (deltaFile : Path) (baseVer formerVer : UInt64) :
    Blind fun sn => sn.packedDelta deltaFile baseVer formerVer :=
  ⟨fun _ _ occupied _ => ⟨occupied, rfl, fun _ => ⟨_, rfl, fun _ => rfl⟩⟩⟩

theorem rebuilt (deltaFile : Path) : Blind fun sn => sn.packedDelta deltaFile sn.baseVer sn.baseVer :=
  ⟨fun _ _ occupied _ => ⟨occupied, rfl, fun _ => ⟨_, rfl, fun _ => rfl⟩⟩⟩

theorem writes : Blind fun sn => { sn with op := .write, isPacked := true } := by
  refine ⟨fun sn para occupied _ => ⟨occupied, rfl, fun _ => ⟨para, rfl, fun sends => ?_⟩⟩⟩
  simp [Op.sendsPara] at sends

theorem delete : Blind fun sn => { sn with isDelete := true } :=
  ⟨fun _ para occupied same => ⟨occupied, rfl, fun _ => ⟨para, rfl, same⟩⟩⟩

theorem record (record : BufInfo) : Blind fun sn => { sn with bn := sn.bn.map (· ++ [record]) } :=
  ⟨fun _ para occupied same => ⟨occupied, rfl, fun _ => ⟨para, rfl, same⟩⟩⟩

theorem deleteWrite : Blind SyncNode.deleteWrite := by
  refine ⟨fun sn para occupied same => ?_⟩
  by_cases newfile : sn.op = .newfile
  · simp only [SyncNode.deleteWrite, newfile, ↓reduceIte]
    exact ⟨occupied, rfl, fun _ => ⟨_, rfl, fun sends => by simp [Op.sendsPara] at sends⟩⟩
  · simp only [SyncNode.deleteWrite, newfile, ↓reduceIte]
    exact ⟨occupied, rfl, fun _ => ⟨para, rfl, same⟩⟩

end Blind

namespace SyncNode.Alike

/-- The new node of a slot does not depend on the old one. -/
theorem enqueued (old old' : SyncNode) {op : Op} (src dst : Path) {para : Option (Fin 5 → UInt64)}
    (bn : Option (List BufInfo)) (fileBuf : Option Bytes) (localtime baseVersion : UInt64)
    (given : op.sendsPara → para.isSome = true) :
    (old.enqueued op src dst para bn fileBuf localtime baseVersion).Alike
      (old'.enqueued op src dst para bn fileBuf localtime baseVersion) := by
  refine ⟨rfl, fun _ => ⟨_, rfl, fun sends => ?_⟩⟩
  obtain ⟨values, rfl⟩ := Option.isSome_iff_exists.mp (given sends)
  rfl

/-- What is sent of an occupied node. -/
theorem syncSend (alike : sn.Alike sn') (occupied : sn.isEmpty = false) (read : Path → Option Bytes) :
    syncSend read sn' = syncSend read sn := by
  obtain ⟨para, rfl, same⟩ := alike.rest occupied
  simp only [DeltaCFS.syncSend]
  cases kind : sn.op with
  | truncate => simp only [sendTruncate, same (.inl kind)]
  | newfile => simp only [newfileSize, sendNewfile, same (.inr (.inl kind))]
  | delta =>
    simp only [sendDelta, same (.inr (.inr kind))]
    rfl
  | _ => rfl

end SyncNode.Alike

/-! ## Queues -/

/-- The queues differ in the nodes alone, and these are alike. -/
structure SyncQueue.Alike (queue queue' : SyncQueue) : Prop where
  head : queue'.sq.head = queue.sq.head
  tail : queue'.sq.tail = queue.sq.tail
  cachePath : queue'.hashCachePath = queue.hashCachePath
  cacheResult : queue'.hashCacheResult = queue.hashCacheResult
  entries : queue'.shs = queue.shs
  node : ∀ slot, (queue.sq.node slot).Alike (queue'.sq.node slot)

/-- What is found by lookups is in occupied slots. -/
structure SyncQueue.Covered (queue : SyncQueue) : Prop where
  entries : ∀ sh ∈ queue.shs, (queue.sq.node sh.loc).isEmpty = false
  cached : ∀ sh, queue.hashCacheResult = some sh → (queue.sq.node sh.loc).isEmpty = false

theorem Tidy.covered (tidy : Tidy queue) : queue.Covered :=
  ⟨fun sh member => (tidy.refers sh member).occupied,
    fun sh cached => (tidy.refers sh (tidy.cached sh cached).1).occupied⟩

/-- The two queues during a call. -/
structure SyncQueue.InStep (queue queue' : SyncQueue) : Prop where
  alike : queue.Alike queue'
  covered : queue.Covered

namespace SyncQueue.InStep

theorem syncFind (step : queue.InStep queue') (path : Path) :
    (syncFind path queue').1 = (DeltaCFS.syncFind path queue).1 ∧
      (DeltaCFS.syncFind path queue).2.InStep (DeltaCFS.syncFind path queue').2 ∧
      (∀ sh, (DeltaCFS.syncFind path queue).1 = some sh → (queue.sq.node sh.loc).isEmpty = false) := by
  obtain ⟨⟨head, tail, cachePath, cacheResult, entries, node⟩, covered⟩ := step
  simp only [DeltaCFS.syncFind, cachePath, cacheResult, entries]
  split
  · exact ⟨rfl, ⟨⟨head, tail, cachePath, cacheResult, entries, node⟩, covered⟩, covered.cached⟩
  · split
    · next sh found =>
      have occupied := covered.entries sh (List.mem_of_find?_eq_some found)
      have cached : ∀ other, some sh = some other → (queue.sq.node other.loc).isEmpty = false :=
        fun other same => Option.some.inj same ▸ occupied
      exact ⟨rfl, ⟨⟨head, tail, rfl, rfl, rfl, node⟩, ⟨covered.entries, cached⟩⟩, cached⟩
    · exact ⟨rfl, ⟨⟨head, tail, cachePath, cacheResult, entries, node⟩, covered⟩,
        fun _ same => absurd same.symm (Option.some_ne_none _)⟩

theorem hashDel (step : queue.InStep queue') (sh : SyncHash) : (hashDel sh queue).InStep (DeltaCFS.hashDel sh queue') := by
  obtain ⟨⟨head, tail, cachePath, cacheResult, entries, node⟩, covered⟩ := step
  refine ⟨⟨head, tail, cachePath, rfl, ?_, node⟩, fun other kept => ?_,
    fun _ same => absurd same.symm (Option.some_ne_none _)⟩
  · simp only [DeltaCFS.hashDel, entries]
  · exact covered.entries other (List.mem_of_mem_erase kept)

theorem modifyNode {change : SyncNode → SyncNode} (step : queue.InStep queue') (blind : Blind change)
    (occupied : (queue.sq.node slot).isEmpty = false) :
    (queue.modifyNode slot change).InStep (queue'.modifyNode slot change) := by
  obtain ⟨⟨head, tail, cachePath, cacheResult, entries, node⟩, covered⟩ := step
  obtain ⟨para, same, sent⟩ := (node slot).rest occupied
  obtain ⟨still, alike⟩ := blind.alike _ para occupied sent
  have flags : ∀ other, ((queue.modifyNode slot change).sq.node other).isEmpty = (queue.sq.node other).isEmpty := by
    intro other
    simp only [SyncQueue.modifyNode, RingBuffer.modify_node]
    split
    · next here => rw [still, here, occupied]
    · rfl
  refine ⟨⟨head, tail, cachePath, cacheResult, entries, fun other => ?_⟩, fun sh member => ?_, fun sh cached => ?_⟩
  · simp only [SyncQueue.modifyNode, RingBuffer.modify_node]
    split
    · rw [same]
      exact alike
    · exact node other
  · rw [flags]
    exact covered.entries sh member
  · rw [flags]
    exact covered.cached sh cached

theorem syncEnqueue {op : Op} {src dst : Path} {para : Option (Fin 5 → UInt64)} {bn : Option (List BufInfo)}
    {fileBuf : Option Bytes} {localtime baseVersion : UInt64} (step : queue.InStep queue')
    (given : op.sendsPara → para.isSome = true) :
    Agree SyncQueue.InStep (syncEnqueue op src dst para bn fileBuf localtime baseVersion queue)
      (DeltaCFS.syncEnqueue op src dst para bn fileBuf localtime baseVersion queue') := by
  obtain ⟨⟨head, tail, cachePath, cacheResult, entries, node⟩, covered⟩ := step
  simp only [DeltaCFS.syncEnqueue, tail, entries, (node queue.sq.tail).isEmpty]
  split
  · -- the slots of the entries stay occupied, and so is the one at the tail now
    have flags : ∀ other, (queue.sq.node other).isEmpty = false ∨ other = queue.sq.tail →
        ((queue.sq.push queueSize ((queue.sq.node queue.sq.tail).enqueued op src dst para bn fileBuf localtime
          baseVersion)).node other).isEmpty = false := by
      intro other occupied
      simp only [RingBuffer.push, Function.update_apply]
      split
      · rfl
      · next apart => exact occupied.resolve_right apart
    refine .ok ⟨⟨head, ?_, cachePath, cacheResult, rfl, fun other => ?_⟩, fun sh member => ?_, fun sh cached => ?_⟩
    · simp only [RingBuffer.push, tail]
    · simp only [RingBuffer.push, Function.update_apply, tail]
      split
      · exact .enqueued _ _ _ _ _ _ _ _ given
      · exact node other
    · refine flags sh.loc ?_
      split at member
      · rcases List.mem_cons.mp member with rfl | old
        · exact .inr rfl
        · exact .inl (covered.entries sh old)
      · exact .inl (covered.entries sh member)
    · exact flags sh.loc (.inl (covered.cached sh cached))
  · exact .error _

theorem syncDelete (step : queue.InStep queue') (path : Path) :
    (syncDelete path queue).InStep (DeltaCFS.syncDelete path queue') := by
  obtain ⟨result, next, occupied⟩ := step.syncFind path
  have ring := syncFind_sq path queue
  simp only [DeltaCFS.syncDelete]
  cases hit : DeltaCFS.syncFind path queue with
  | mk found looked =>
    cases hit' : DeltaCFS.syncFind path queue' with
    | mk found' looked' =>
      simp only [hit, hit'] at result next occupied ring
      subst result
      cases found' with
      | none => exact next
      | some sh =>
        refine (next.hashDel sh).modifyNode .delete ?_
        simp only [DeltaCFS.hashDel, ring]
        exact occupied sh rfl

theorem syncDeleteWrite (step : queue.InStep queue') (path : Path) :
    (syncDeleteWrite path queue).InStep (DeltaCFS.syncDeleteWrite path queue') := by
  obtain ⟨result, next, occupied⟩ := step.syncFind path
  have ring := syncFind_sq path queue
  simp only [DeltaCFS.syncDeleteWrite]
  cases hit : DeltaCFS.syncFind path queue with
  | mk found looked =>
    cases hit' : DeltaCFS.syncFind path queue' with
    | mk found' looked' =>
      simp only [hit, hit'] at result next occupied ring
      subst result
      cases found' with
      | none => exact next
      | some sh =>
        refine (next.hashDel sh).modifyNode .deleteWrite ?_
        simp only [DeltaCFS.hashDel, ring]
        exact occupied sh rfl

end SyncQueue.InStep

/-! ## Packing -/

/-- The two clients during a call. -/
structure Client.InStep (client client' : Client) : Prop where
  rest : client' = { client with queue := client'.queue }
  queue : client.queue.InStep client'.queue

/-- Packing neither frees nor fills a slot. -/
structure Client.Packed (before client client' : Client) : Prop where
  inStep : client.InStep client'
  flags : ∀ slot, (client.node slot).isEmpty = (before.node slot).isEmpty

namespace SyncQueue.InStep

theorem inStep (step : client.queue.InStep queue') : client.InStep { client with queue := queue' } := ⟨rfl, step⟩

/-- An occupied node, up to its parameters. -/
theorem node_eq (step : client.queue.InStep queue') (occupied : (client.node slot).isEmpty = false) :
    ∃ para, Client.node { client with queue := queue' } slot = { client.node slot with para := para } := by
  obtain ⟨para, same, -⟩ := (step.alike.node slot).rest occupied
  exact ⟨para, same⟩

theorem modify {change : SyncNode → SyncNode} (step : client.queue.InStep queue') (blind : Blind change)
    (occupied : (client.node slot).isEmpty = false) :
    client.Packed (client.modifyNode slot change) (Client.modifyNode { client with queue := queue' } slot change) := by
  refine ⟨⟨rfl, step.modifyNode blind occupied⟩, fun other => ?_⟩
  simp only [Client.node, Client.modifyNode, SyncQueue.modifyNode, RingBuffer.modify_node]
  split
  · next here =>
    obtain ⟨para, -, sent⟩ := (step.alike.node slot).rest occupied
    exact (blind.alike _ para occupied sent).1.trans (here ▸ occupied).symm
  · rfl

theorem packNewfile (step : client.queue.InStep queue') (occupied : (client.node slot).isEmpty = false) :
    client.Packed (packNewfile slot client) (DeltaCFS.packNewfile slot { client with queue := queue' }) := by
  obtain ⟨para, same⟩ := step.node_eq occupied
  simp only [DeltaCFS.packNewfile, same]
  split
  · exact ⟨step.inStep, fun _ => rfl⟩
  · exact step.modify (.packedFile _) occupied

/-- `compute_delta` does not look at the queue. -/
theorem computeDelta (step : client.queue.InStep queue') (originfile newfile basefile : Path) :
    Agree (fun delta delta' => delta'.1 = delta.1 ∧ client.Packed delta.2 delta'.2)
      (computeDelta env originfile newfile basefile client)
      (DeltaCFS.computeDelta env originfile newfile basefile { client with queue := queue' }) := by
  have same : DeltaCFS.computeDelta env originfile newfile basefile { client with queue := queue' } =
      (fun delta => (delta.1, { delta.2 with queue := queue' })) <$>
        DeltaCFS.computeDelta env originfile newfile basefile client := by
    simp only [DeltaCFS.computeDelta, map_bind]
    refine bind_congr fun there => bind_congr fun emptied => bind_congr fun old => bind_congr fun sig => ?_
    refine bind_congr fun opened => bind_congr fun created => bind_congr fun new => ?_
    split
    · rw [map_bind]
      exact bind_congr fun stored => rfl
    · rfl
  rw [same]
  cases computing : DeltaCFS.computeDelta env originfile newfile basefile client with
  | error stop => exact .error stop
  | ok result =>
    obtain ⟨deltaFile, computed⟩ := result
    obtain ⟨old, new, delta, facts⟩ := computeDelta_eq_ok computing
    obtain ⟨_, _, _, _, _, _, _, rfl⟩ := facts.files
    exact .ok ⟨rfl, ⟨rfl, step⟩, fun _ => rfl⟩

end SyncQueue.InStep

namespace Client.Packed

variable {before first second : Client}

theorem trans {middle middle' : Client} (left : before.Packed middle middle') (right : middle.Packed first second) :
    before.Packed first second :=
  ⟨right.inStep, fun slot => (right.flags slot).trans (left.flags slot)⟩

/-- Only the queues differ. -/
theorem exists_queue (packed : before.Packed first second) :
    ∃ queue', second = { first with queue := queue' } ∧ first.queue.InStep queue' :=
  ⟨second.queue, packed.inStep.rest, packed.inStep.queue⟩

theorem occupied (packed : before.Packed first second) (occupied : (before.node slot).isEmpty = false) :
    (first.node slot).isEmpty = false := (packed.flags slot).trans occupied

theorem modify {change : SyncNode → SyncNode} (packed : before.Packed first second) (blind : Blind change)
    (occupied : (before.node slot).isEmpty = false) :
    before.Packed (first.modifyNode slot change) (second.modifyNode slot change) := by
  obtain ⟨queue', rfl, step⟩ := packed.exists_queue
  exact packed.trans (step.modify blind (packed.occupied occupied))

theorem withFs (packed : before.Packed first second) (fs : FileSystem) :
    before.Packed { first with fs := fs } { second with fs := fs } := by
  obtain ⟨queue', rfl, step⟩ := packed.exists_queue
  exact ⟨⟨rfl, step⟩, packed.flags⟩

/-- The entry of a node that was packed is removed. -/
theorem hashDel (packed : before.Packed first second) (sh : SyncHash) :
    before.Packed { first with queue := DeltaCFS.hashDel sh first.queue }
      { second with queue := DeltaCFS.hashDel sh second.queue } := by
  obtain ⟨queue', rfl, step⟩ := packed.exists_queue
  exact ⟨⟨rfl, step.hashDel sh⟩, packed.flags⟩

end Client.Packed

namespace SyncQueue.InStep

theorem packWrite (step : client.queue.InStep queue') (occupied : (client.node slot).isEmpty = false) :
    Agree client.Packed (packWrite env slot client) (DeltaCFS.packWrite env slot { client with queue := queue' }) := by
  obtain ⟨para, same⟩ := step.node_eq occupied
  simp only [DeltaCFS.packWrite, same]
  split
  · exact .ok (step.modify .writes occupied)
  · refine (Agree.of_eq rfl).bind fun copied copied' alike _ => ?_
    subst alike
    refine (Agree.of_eq rfl).bind fun undone undone' alike _ => ?_
    subst alike
    have ready : Client.queue { client with fs := undone } |>.InStep queue' := step
    refine (ready.computeDelta _ _ _).bind fun delta delta' both _ => ?_
    obtain ⟨file, packed⟩ := both
    obtain ⟨deltaFile, computed⟩ := delta
    obtain ⟨deltaFile', computed'⟩ := delta'
    obtain rfl : deltaFile' = deltaFile := file
    obtain ⟨queue'', rfl, -⟩ := packed.exists_queue
    have done := (packed.modify (.rebuilt deltaFile') occupied).withFs (computed.fs.remove (tmpPath (client.node slot).src))
    exact .ok ⟨done.inStep, done.flags⟩

/-- The recursion: both sides follow the same relations to the same slots. -/
theorem syncPackWrite (step : client.queue.InStep queue') (occupied : (client.node slot).isEmpty = false) :
    Agree client.Packed (syncPackWrite env fuel slot client)
      (DeltaCFS.syncPackWrite env fuel slot { client with queue := queue' }) := by
  induction fuel generalizing slot client queue' with
  | zero => exact .error _
  | succ fuel ih =>
    obtain ⟨para, same⟩ := step.node_eq occupied
    rw [DeltaCFS.syncPackWrite, DeltaCFS.syncPackWrite]
    simp only [same]
    cases kind : (client.node slot).op with
    | newfile =>
      dsimp only
      cases found : relFind (client.node slot).src client.rel with
      | none => exact .ok (step.packNewfile occupied)
      | some rh =>
        dsimp only
        obtain ⟨result, next, occupied'⟩ := step.syncFind (client.rel.rq.node rh.loc).dst
        have ring := syncFind_sq (client.rel.rq.node rh.loc).dst client.queue
        have inner : Agree client.Packed
            (packFound (DeltaCFS.syncPackWrite env fuel) (DeltaCFS.syncFind (client.rel.rq.node rh.loc).dst client.queue).1
              { client with queue := (DeltaCFS.syncFind (client.rel.rq.node rh.loc).dst client.queue).2 })
            (packFound (DeltaCFS.syncPackWrite env fuel) (DeltaCFS.syncFind (client.rel.rq.node rh.loc).dst queue').1
              { client with queue := (DeltaCFS.syncFind (client.rel.rq.node rh.loc).dst queue').2 }) := by
          have looked : client.Packed
              { client with queue := (DeltaCFS.syncFind (client.rel.rq.node rh.loc).dst client.queue).2 }
              { client with queue := (DeltaCFS.syncFind (client.rel.rq.node rh.loc).dst queue').2 } :=
            ⟨⟨rfl, next⟩, fun other => by simp only [Client.node, ring]⟩
          rw [result]
          cases hit : (DeltaCFS.syncFind (client.rel.rq.node rh.loc).dst client.queue).1 with
          | none => exact .ok looked
          | some sh =>
            have deeper := @ih
              { client with queue := (DeltaCFS.syncFind (client.rel.rq.node rh.loc).dst client.queue).2 } _ sh.loc next
              (by simp only [Client.node, ring]; exact occupied' sh hit)
            refine deeper.bind fun first second packed _ => ?_
            exact .ok ((looked.trans packed).hashDel sh)
        refine inner.bind fun first second packed _ => ?_
        obtain ⟨queue'', rfl, step'⟩ := packed.exists_queue
        obtain ⟨para', same'⟩ := step'.node_eq (packed.occupied occupied)
        simp only [same']
        refine (step'.computeDelta _ _ _).bind fun delta delta' both _ => ?_
        obtain ⟨file, computed⟩ := both
        obtain ⟨deltaFile, after⟩ := delta
        obtain ⟨deltaFile', after'⟩ := delta'
        obtain rfl : deltaFile' = deltaFile := file
        have whole := packed.trans computed
        obtain ⟨queue₃, rfl, step₃⟩ := computed.exists_queue
        refine (Agree.of_eq rfl).bind fun check check' alike _ => ?_
        subst alike
        dsimp only
        split
        · exact .ok (whole.modify (.packedDelta deltaFile' check 0) occupied)
        · exact .ok (whole.trans (step₃.packNewfile (whole.occupied occupied)))
    | write => exact step.packWrite occupied
    | _ => exact .ok ⟨step.inStep, fun _ => rfl⟩

end SyncQueue.InStep

/-! ## Handlers -/

theorem Client.InStep.exists_queue (step : client.InStep client') :
    ∃ queue', client' = { client with queue := queue' } ∧ client.queue.InStep queue' :=
  ⟨client'.queue, step.rest, step.queue⟩

/-- The two results of a handler. -/
def SameHandled (handled handled' : ℤ × Client) : Prop := handled'.1 = handled.1 ∧ handled.2.InStep handled'.2

namespace Client.InStep

theorem packPath (inStep : client.InStep client') (path : Path) :
    Agree InStep (syncPackWritePath env path client) (syncPackWritePath env path client') := by
  obtain ⟨queue', rfl, step⟩ := inStep.exists_queue
  obtain ⟨result, next, occupied⟩ := step.syncFind path
  have ring := syncFind_sq path client.queue
  rw [syncPackWritePath_eq, syncPackWritePath_eq]
  cases hit : syncFind path client.queue with
  | mk found looked =>
    cases hit' : syncFind path queue' with
    | mk found' looked' =>
      simp only [hit, hit'] at result next occupied ring ⊢
      subst result
      cases found' with
      | none => exact .ok ⟨rfl, next⟩
      | some sh =>
        have deleted : Client.queue { client with queue := hashDel sh looked } |>.InStep (hashDel sh looked') :=
          next.hashDel sh
        have inside : (Client.node { client with queue := hashDel sh looked } sh.loc).isEmpty = false := by
          simp only [Client.node, hashDel, ring]
          exact occupied sh rfl
        exact (deleted.syncPackWrite inside).imp fun _ _ packed _ => packed.inStep

theorem computeDelta (inStep : client.InStep client') (originfile newfile basefile : Path) :
    Agree (fun delta delta' => delta'.1 = delta.1 ∧ delta.2.InStep delta'.2)
      (computeDelta env originfile newfile basefile client)
      (DeltaCFS.computeDelta env originfile newfile basefile client') := by
  obtain ⟨queue', rfl, step⟩ := inStep.exists_queue
  exact (step.computeDelta originfile newfile basefile).imp fun _ _ both _ => ⟨both.1, both.2.inStep⟩

theorem timestamp (inStep : client.InStep client') (path : Path) :
    Agree Eq (recfsGetTimestamp path client) (recfsGetTimestamp path client') := by
  obtain ⟨queue', rfl, -⟩ := inStep.exists_queue
  exact .of_eq rfl

theorem enqueue {op : Op} {src dst : Path} {para : Option (Fin 5 → UInt64)} {bn : Option (List BufInfo)}
    {localtime baseVersion : UInt64} (inStep : client.InStep client') (given : op.sendsPara → para.isSome = true) :
    Agree InStep (client.enqueue op src dst para bn localtime baseVersion)
      (client'.enqueue op src dst para bn localtime baseVersion) := by
  obtain ⟨queue', rfl, step⟩ := inStep.exists_queue
  exact (step.syncEnqueue given).bind fun _ _ queued _ => .ok ⟨rfl, queued⟩

theorem relEnqueue {localtime : UInt64} (inStep : client.InStep client') :
    Agree InStep (client.relEnqueue source target localtime) (client'.relEnqueue source target localtime) := by
  obtain ⟨queue', rfl, step⟩ := inStep.exists_queue
  refine (Agree.of_eq rfl).bind fun rel rel' same _ => ?_
  subst same
  exact .ok ⟨rfl, step⟩

theorem syncDelete (inStep : client.InStep client') (path : Path) :
    (client.syncDelete path).InStep (client'.syncDelete path) := by
  obtain ⟨queue', rfl, step⟩ := inStep.exists_queue
  exact ⟨rfl, step.syncDelete path⟩

/-- A handler that ends with a system call. -/
theorem syscall (inStep : client.InStep client') (env : Env) (call : FileSystem → Except Errno FileSystem) (done : ℤ) :
    SameHandled (client.syscall env call done) (client'.syscall env call done) := by
  obtain ⟨queue', rfl, step⟩ := inStep.exists_queue
  simp only [Client.syscall]
  split
  · exact ⟨rfl, rfl, step⟩
  · split <;> exact ⟨rfl, rfl, step⟩

theorem recfsCnt (inStep : client.InStep client') : client'.recfsCnt = client.recfsCnt := by
  rw [inStep.rest]

/-- A new version for a path. -/
theorem stamped (inStep : client.InStep client') (path : Path) (newTimestamp : UInt64) :
    Client.InStep (recfsUpdateTimestamp path newTimestamp { client with recfsCnt := client.recfsCnt + 1 })
      (recfsUpdateTimestamp path newTimestamp { client' with recfsCnt := client'.recfsCnt + 1 }) := by
  obtain ⟨queue', rfl, step⟩ := inStep.exists_queue
  exact ⟨rfl, step⟩

theorem mknod {mode rdev : ℕ} (inStep : client.InStep client') :
    Agree SameHandled (xmpMknod env path mode rdev client) (xmpMknod env path mode rdev client') := by
  have stored := inStep.stamped path ((client.recfsCnt + 1) &&& clientId)
  obtain ⟨res, called⟩ := stored.syscall env (·.openExcl path) 0
  simp only [xmpMknod, increaseRecfsCnt, inStep.recfsCnt] at res called ⊢
  refine .ite (by rw [res]) (.ok ⟨res, called⟩) ?_
  refine (called.packPath path).bind fun _ _ packed _ => ?_
  exact (packed.enqueue fun _ => rfl).bind fun _ _ queued _ => .ok ⟨rfl, queued⟩

theorem mkdir {mode : ℕ} (inStep : client.InStep client') :
    Agree SameHandled (xmpMkdir env path mode client) (xmpMkdir env path mode client') := by
  obtain ⟨res, called⟩ := inStep.syscall env (·.mkdir path) 0
  have stored := called.stamped path (((client.syscall env (·.mkdir path) 0).2.recfsCnt + 1) &&& clientId)
  simp only [xmpMkdir, increaseRecfsCnt, called.recfsCnt] at stored ⊢
  refine .ite (by rw [res]) (.ok ⟨res, called⟩) ?_
  exact (stored.enqueue fun _ => rfl).bind fun _ _ queued _ => .ok ⟨rfl, queued⟩

theorem unlink (inStep : client.InStep client') :
    Agree SameHandled (xmpUnlink env path client) (xmpUnlink env path client') := by
  refine (inStep.timestamp path).bind fun version version' same _ => ?_
  subst same
  refine (inStep.packPath path).bind fun first second packed _ => ?_
  obtain ⟨queue', rfl, step⟩ := packed.exists_queue
  have forgotten : Client.InStep { first with rel := relDeleteSrc path (relDeleteDst path first.rel) }
      { first with queue := queue', rel := relDeleteSrc path (relDeleteDst path first.rel) } := ⟨rfl, step⟩
  obtain ⟨res, called⟩ := forgotten.syscall env (·.rename path (tmpPath path)) 0
  simp only [increaseRecfsCnt]
  refine .ite (by rw [res]) (.ok ⟨res, called⟩) ?_
  obtain ⟨queue'', second, step'⟩ := called.exists_queue
  rw [second]
  refine Agree.bind (enqueue ⟨rfl, step'⟩ fun sends => ?_) fun first second queued _ => ?_
  · simp [Op.sendsPara] at sends
  · obtain ⟨queue₃, rfl, step₃⟩ := queued.exists_queue
    exact Agree.bind (relEnqueue ⟨rfl, step₃⟩) fun _ _ related _ => .ok ⟨rfl, related⟩

theorem rmdir (inStep : client.InStep client') :
    Agree SameHandled (xmpRmdir env path client) (xmpRmdir env path client') := by
  refine (inStep.timestamp path).bind fun version version' same _ => ?_
  subst same
  refine (inStep.enqueue fun sends => ?_).bind fun first second queued _ => .ok (queued.syscall env _ 0)
  simp [Op.sendsPara] at sends

theorem setattr {op : Op} {para : List UInt64} (inStep : client.InStep client') :
    Agree SameHandled (xmpSetattr env op path para client) (xmpSetattr env op path para client') :=
  (inStep.enqueue fun _ => rfl).bind fun _ _ queued _ => .ok (queued.syscall env _ 0)

/-- An UNLINK and a DELTA node, with the pending node of the source dropped between them. -/
theorem unlinkDelta {fromVersion newTimestamp base : UInt64} {deltaFile : Path} {para : Fin 5 → UInt64}
    (inStep : client.InStep client') :
    Agree InStep
      (client.enqueue .unlink source [] none none fromVersion 0 >>= fun client =>
        (client.syncDelete source).enqueue .delta deltaFile target (some para) none newTimestamp base)
      (client'.enqueue .unlink source [] none none fromVersion 0 >>= fun client =>
        (client.syncDelete source).enqueue .delta deltaFile target (some para) none newTimestamp base) := by
  refine (inStep.enqueue fun sends => ?_).bind fun first second queued _ => (queued.syncDelete source).enqueue fun _ => rfl
  simp [Op.sendsPara] at sends

theorem renamed {fromVersion newTimestamp : UInt64} (inStep : client.InStep client') :
    Agree InStep (client.enqueue .rename source target none none newTimestamp fromVersion)
      (client'.enqueue .rename source target none none newTimestamp fromVersion) :=
  inStep.enqueue fun sends => by simp [Op.sendsPara] at sends

/-- A version that is known. -/
theorem updated (inStep : client.InStep client') (path : Path) (newTimestamp : UInt64) :
    (recfsUpdateTimestamp path newTimestamp client).InStep (recfsUpdateTimestamp path newTimestamp client') := by
  obtain ⟨queue', rfl, step⟩ := inStep.exists_queue
  exact ⟨rfl, step⟩

theorem renameOnto {fromVersion newTimestamp : UInt64} (inStep : client.InStep client') :
    Agree InStep (renameOnto env source target fromVersion newTimestamp client)
      (DeltaCFS.renameOnto env source target fromVersion newTimestamp client') := by
  refine (inStep.packPath target).bind fun first second packed _ => ?_
  refine (packed.timestamp target).bind fun timestamp timestamp' same _ => ?_
  subst same
  refine (packed.computeDelta _ _ _).bind fun delta delta' both _ => ?_
  obtain ⟨file, computed⟩ := both
  obtain ⟨deltaFile, after⟩ := delta
  obtain ⟨deltaFile', after'⟩ := delta'
  obtain rfl : deltaFile' = deltaFile := file
  exact (computed.updated target newTimestamp).unlinkDelta

theorem renameRelated {rn : RelNode} {fromVersion newTimestamp : UInt64} (inStep : client.InStep client') :
    Agree InStep (renameRelated env source target rn fromVersion newTimestamp client)
      (DeltaCFS.renameRelated env source target rn fromVersion newTimestamp client') := by
  refine (inStep.computeDelta _ _ _).bind fun delta delta' both _ => ?_
  obtain ⟨file, computed⟩ := both
  obtain ⟨deltaFile, after⟩ := delta
  obtain ⟨deltaFile', after'⟩ := delta'
  obtain rfl : deltaFile' = deltaFile := file
  refine (computed.timestamp rn.dst).bind fun check check' same _ => ?_
  subst same
  have ready := computed.updated target newTimestamp
  exact .ite Iff.rfl ready.unlinkDelta ((ready.packPath source).bind fun _ _ packed _ => packed.renamed)

theorem renameSync {fromVersion newTimestamp : UInt64} (inStep : client.InStep client') :
    Agree InStep (renameSync env source target fromVersion newTimestamp client)
      (DeltaCFS.renameSync env source target fromVersion newTimestamp client') := by
  have files : client'.fs = client.fs := by rw [inStep.rest]
  have rel : client'.rel = client.rel := by rw [inStep.rest]
  rw [DeltaCFS.renameSync, DeltaCFS.renameSync, rel]
  refine .ite (by rw [Client.opens, Client.opens, files]) inStep.renameOnto ?_
  cases relFind target client.rel with
  | none =>
    exact (inStep.packPath source).bind fun _ _ packed _ => (packed.updated target newTimestamp).renamed
  | some rh => exact inStep.renameRelated

theorem rename (inStep : client.InStep client') :
    Agree SameHandled (xmpRename env source target client) (xmpRename env source target client') := by
  refine (inStep.timestamp source).bind fun version version' same _ => ?_
  subst same
  obtain ⟨queue', rfl, step⟩ := inStep.exists_queue
  refine Agree.bind (renameSync ⟨rfl, step⟩) fun first second synced _ => ?_
  obtain ⟨queue'', rfl, step'⟩ := synced.exists_queue
  dsimp only [recfsDelTimestamp]
  cases relFind target client.rel with
  | none => exact Agree.bind (relEnqueue ⟨rfl, step'⟩) fun _ _ related _ => .ok (related.syscall env _ 0)
  | some rh => exact Agree.bind (relEnqueue ⟨rfl, step'⟩) fun _ _ related _ => .ok (related.syscall env _ 0)

theorem linkSync {fromVersion : UInt64} (inStep : client.InStep client') :
    Agree InStep (linkSync env source target fromVersion client)
      (DeltaCFS.linkSync env source target fromVersion client') := by
  have rel : client'.rel = client.rel := by rw [inStep.rest]
  rw [DeltaCFS.linkSync, DeltaCFS.linkSync, rel]
  cases relFind target client.rel with
  | none => exact .ok inStep
  | some rh =>
    refine (inStep.packPath _).bind fun _ _ first _ => (first.packPath source).bind fun _ _ second _ => ?_
    refine (second.computeDelta _ _ _).bind fun delta delta' both _ => ?_
    obtain ⟨file, computed⟩ := both
    obtain ⟨deltaFile, after⟩ := delta
    obtain ⟨deltaFile', after'⟩ := delta'
    obtain rfl : deltaFile' = deltaFile := file
    refine (computed.timestamp _).bind fun check check' same _ => ?_
    subst same
    exact .ite Iff.rfl ((computed.enqueue fun _ => rfl).bind fun _ _ queued _ => .ok (queued.syncDelete source))
      (.ok computed)

theorem link (inStep : client.InStep client') :
    Agree SameHandled (xmpLink env source target client) (xmpLink env source target client') := by
  refine (inStep.timestamp source).bind fun version version' same _ => ?_
  subst same
  refine inStep.linkSync.bind fun first second synced _ => ?_
  obtain ⟨queue', rfl, step⟩ := synced.exists_queue
  refine Agree.bind (enqueue ⟨rfl, step⟩ fun sends => ?_) fun _ _ queued _ => .ok (queued.syscall env _ 0)
  simp [Op.sendsPara] at sends

/-- A record for the node that a lookup found, unless that is for a new file. -/
theorem appended {sh : SyncHash} (client : Client) (step : client.queue.InStep queue')
    (occupied : (client.node sh.loc).isEmpty = false) (record : BufInfo) :
    Agree InStep
      (if (client.node sh.loc).isNewfile then .ok client else .ok (client.appendRecord sh.loc record) : Except Stop Client)
      (if (Client.node { client with queue := queue' } sh.loc).isNewfile then .ok { client with queue := queue' }
        else .ok (Client.appendRecord sh.loc record { client with queue := queue' })) := by
  obtain ⟨para, same⟩ := step.node_eq occupied
  rw [same]
  exact .ite Iff.rfl (.ok ⟨rfl, step⟩) (.ok (step.modify (.record record) occupied).inStep)

theorem truncateSync {size : ℕ} (inStep : client.InStep client') :
    Agree InStep (truncateSync path size client) (DeltaCFS.truncateSync path size client') := by
  obtain ⟨queue', rfl, step⟩ := inStep.exists_queue
  obtain ⟨result, next, occupied⟩ := step.syncFind path
  have ring := syncFind_sq path client.queue
  simp only [DeltaCFS.truncateSync]
  refine .ite Iff.rfl (.ok ⟨rfl, step.syncDeleteWrite path⟩) ?_
  simp only [result]
  cases hit : (syncFind path client.queue).1 with
  | some sh =>
    have inside : (Client.node { client with queue := (syncFind path client.queue).2 } sh.loc).isEmpty = false := by
      simp only [Client.node, ring]
      exact occupied sh hit
    exact appended { client with queue := (syncFind path client.queue).2 } next inside _
  | none =>
    refine Agree.bind (timestamp ⟨rfl, next⟩ path) fun version version' same _ => ?_
    subst same
    exact enqueue ⟨rfl, next⟩ fun _ => rfl

theorem writeSync {offset : ℕ} {data : Bytes} (inStep : client.InStep client') :
    Agree InStep (writeSync env path offset data client) (DeltaCFS.writeSync env path offset data client') := by
  obtain ⟨queue', rfl, step⟩ := inStep.exists_queue
  obtain ⟨result, next, occupied⟩ := step.syncFind path
  have ring := syncFind_sq path client.queue
  simp only [DeltaCFS.writeSync, result]
  cases hit : (syncFind path client.queue).1 with
  | some sh =>
    have inside : (Client.node { client with queue := (syncFind path client.queue).2 } sh.loc).isEmpty = false := by
      simp only [Client.node, ring]
      exact occupied sh hit
    exact appended { client with queue := (syncFind path client.queue).2 } next inside _
  | none =>
    refine Agree.bind (timestamp ⟨rfl, next⟩ path) fun version version' same _ => ?_
    subst same
    refine enqueue ⟨rfl, next⟩ fun sends => ?_
    simp [Op.sendsPara] at sends

theorem packHead (inStep : client.InStep client') (occupied : (client.node client.queue.sq.head).isEmpty = false) :
    Agree client.Packed (packHead env client) (DeltaCFS.packHead env client') := by
  obtain ⟨queue', rfl, step⟩ := inStep.exists_queue
  obtain ⟨para, same⟩ := step.node_eq occupied
  obtain ⟨result, next, -⟩ := step.syncFind (client.node client.queue.sq.head).src
  have ring := syncFind_sq (client.node client.queue.sq.head).src client.queue
  simp only [DeltaCFS.packHead, step.alike.head, same]
  refine .ite Iff.rfl ?_ (.ok ⟨⟨rfl, step⟩, fun _ => rfl⟩)
  rw [result]
  have looked : client.Packed { client with queue := (syncFind (client.node client.queue.sq.head).src client.queue).2 }
      { client with queue := (syncFind (client.node client.queue.sq.head).src queue').2 } :=
    ⟨⟨rfl, next⟩, fun slot => congrArg (fun sq => (sq.node slot).isEmpty) ring⟩
  cases (syncFind (client.node client.queue.sq.head).src client.queue).1 with
  | none =>
    have packed := @SyncQueue.InStep.syncPackWrite env
      { client with queue := (syncFind (client.node client.queue.sq.head).src client.queue).2 } _ client.queue.sq.head
      packFuel next (looked.occupied occupied)
    exact packed.imp fun _ _ packed _ => looked.trans packed
  | some sh =>
    have deleted := looked.hashDel sh
    have packed := @SyncQueue.InStep.syncPackWrite env
      { client with queue := hashDel sh (syncFind (client.node client.queue.sq.head).src client.queue).2 } _
      client.queue.sq.head packFuel (next.hashDel sh) (deleted.occupied occupied)
    exact packed.imp fun _ _ packed _ => deleted.trans packed

end Client.InStep

/-! ## Steps -/

/-- What `sync_send` would emit in a call: every call that hands it a node is followed by it. -/
def Client.emit (event : Event) (client : Client) : Except Stop (Option Message × Client) := do
  let outcome ← client.step event.env event.call
  match outcome.sent with
  | none => return (none, outcome.client)
  | some sn => do
    let message ← syncSend outcome.client.fs.read sn
    return (message, outcome.client)

/-- The clients differ at most in what is in free slots of the sync queue. -/
structure Client.SameUpToFree (client client' : Client) : Prop where
  rest : client' = { client with queue := { client.queue with sq := client'.queue.sq } }
  head : client'.queue.sq.head = client.queue.sq.head
  tail : client'.queue.sq.tail = client.queue.sq.tail
  isEmpty : ∀ slot, (client'.node slot).isEmpty = (client.node slot).isEmpty
  occupied : ∀ slot, (client.node slot).isEmpty = false → client'.node slot = client.node slot

/-- The clients between two calls. -/
structure Client.Matched (client client' : Client) : Prop where
  formed : client.WellFormed
  rest : client' = { client with queue := client'.queue }
  queue : client.queue.Alike client'.queue

theorem Client.Matched.inStep (matched : client.Matched client') : client.InStep client' :=
  ⟨matched.rest, matched.queue, matched.formed.queue.tidy.covered⟩

theorem Client.SameUpToFree.matched (same : client.SameUpToFree client') (formed : client.WellFormed) :
    client.Matched client' := by
  refine ⟨formed, ?_, same.head, same.tail, ?_, ?_, ?_, fun slot => ⟨same.isEmpty slot, fun inUse => ?_⟩⟩
  · rw [same.rest]
  · rw [same.rest]
  · rw [same.rest]
  · rw [same.rest]
  · exact ⟨(client.node slot).para, same.occupied slot inUse, fun _ => rfl⟩

theorem SyncQueue.Alike.syncDequeue (alike : queue.Alike queue') : (syncDequeue queue).Alike (syncDequeue queue') := by
  obtain ⟨head, tail, cachePath, cacheResult, entries, node⟩ := alike
  simp only [DeltaCFS.syncDequeue, head, (node queue.sq.head).isEmpty]
  split
  · exact ⟨head, tail, cachePath, cacheResult, entries, node⟩
  · refine ⟨?_, tail, cachePath, cacheResult, entries, fun slot => ?_⟩
    · simp only [RingBuffer.pop, head]
    · simp only [RingBuffer.pop, Function.update_apply, head]
      split
      · exact ⟨rfl, fun inUse => absurd inUse.symm Bool.false_ne_true⟩
      · exact node slot

/-- `sync_execute` sends the head unless it is deleted. -/
theorem map_unless_deleted {sn sn' : SyncNode} {send : SyncNode → α} (deleted : sn'.isDelete = sn.isDelete)
    (message : send sn' = send sn) :
    (if sn'.isDelete then none else some sn').map send = (if sn.isDelete then none else some sn).map send := by
  rw [deleted]
  split
  · rfl
  · exact congrArg some message

/-- The heads of the two queues leave with the same message. -/
theorem Client.InStep.syncExecute {client client' : Client} (inStep : client.InStep client') :
    Agree (fun one other => other.2 = { one.2 with queue := other.2.queue } ∧ one.2.queue.Alike other.2.queue ∧
        ∀ read, other.1.map (syncSend read) = one.1.map (syncSend read))
      (syncExecute env client) (DeltaCFS.syncExecute env client') := by
  have head : client'.queue.sq.head = client.queue.sq.head := inStep.queue.alike.head
  have flag : (client'.node client.queue.sq.head).isEmpty = (client.node client.queue.sq.head).isEmpty :=
    (inStep.queue.alike.node _).isEmpty
  simp only [DeltaCFS.syncExecute, head]
  by_cases free : (client.node client.queue.sq.head).isEmpty
  · rw [if_pos free, if_pos (flag.trans free)]
    exact .ok ⟨inStep.rest, inStep.queue.alike, fun _ => rfl⟩
  · rw [if_neg free, if_neg (by rwa [flag])]
    rw [Bool.not_eq_true] at free
    refine (inStep.packHead free).bind fun first second packed _ => ?_
    obtain ⟨queue', rfl, step⟩ := packed.exists_queue
    have inUse := packed.occupied free
    obtain ⟨para, same, -⟩ := (step.alike.node client.queue.sq.head).rest inUse
    refine .ok ⟨rfl, step.alike.syncDequeue, fun read => ?_⟩
    have deleted : (queue'.sq.node client.queue.sq.head).isDelete = (first.node client.queue.sq.head).isDelete := by
      rw [same]
      rfl
    exact map_unless_deleted deleted ((step.alike.node client.queue.sq.head).syncSend inUse read)

/-- The results of a call, and what is sent. -/
structure SameOutcome (outcome outcome' : Outcome) : Prop where
  res : outcome'.res = outcome.res
  rest : outcome'.client = { outcome.client with queue := outcome'.client.queue }
  queue : outcome.client.queue.Alike outcome'.client.queue
  sent : ∀ read, outcome'.sent.map (syncSend read) = outcome.sent.map (syncSend read)

theorem Client.Matched.step (matched : client.Matched client') (event : Event) :
    Agree SameOutcome (client.step event.env event.call) (client'.step event.env event.call) := by
  have inStep := matched.inStep
  have handled {first second : Handled} (agree : Agree SameHandled first second) :
      Agree SameOutcome (Outcome.ofHandled first) (Outcome.ofHandled second) :=
    agree.bind fun _ _ same _ => .ok ⟨same.1, same.2.rest, same.2.queue.alike, fun _ => rfl⟩
  obtain ⟨env, call⟩ := event
  cases call with
  | mknod path mode rdev => exact handled inStep.mknod
  | mkdir path mode => exact handled inStep.mkdir
  | unlink path => exact handled inStep.unlink
  | rmdir path => exact handled inStep.rmdir
  | rename source target => exact handled inStep.rename
  | link source target => exact handled inStep.link
  | chmod path mode => exact handled inStep.setattr
  | chown path uid gid => exact handled inStep.setattr
  | utimens path accessed modified => exact handled inStep.setattr
  | truncate path size =>
    exact handled (inStep.truncateSync.bind fun _ _ synced _ => .ok (synced.syscall env _ 0))
  | write path offset data =>
    exact handled (inStep.writeSync.bind fun _ _ synced _ => .ok (synced.syscall env _ _))
  | syncExecute =>
    exact inStep.syncExecute.bind fun _ _ same _ => .ok ⟨rfl, same.1, same.2.1, same.2.2⟩
  | relDequeue =>
    obtain ⟨queue', rfl, step⟩ := inStep.exists_queue
    exact .ok ⟨rfl, rfl, step.alike, fun _ => rfl⟩

/-- Between two calls the clients are matched again, and what was sent is the same. -/
theorem Client.Matched.emit (matched : client.Matched client') (event : Event) :
    Agree (fun one other => one.1 = other.1 ∧ one.2.Matched other.2) (client.emit event) (client'.emit event) := by
  refine (matched.step event).bind fun outcome outcome' same ran => ?_
  have formed : outcome.client.WellFormed := by
    refine @Client.WellFormed.step _ _ event matched.formed ?_
    rw [Client.next, ran]
    rfl
  have next : outcome.client.Matched outcome'.client := ⟨formed, same.rest, same.queue⟩
  have files : outcome'.client.fs = outcome.client.fs := by rw [same.rest]
  have sent := same.sent outcome.client.fs.read
  rw [files]
  cases first : outcome.sent with
  | none =>
    cases second : outcome'.sent with
    | none => exact .ok ⟨rfl, next⟩
    | some sn' => simp [first, second] at sent
  | some sn =>
    cases second : outcome'.sent with
    | none => simp [first, second] at sent
    | some sn' =>
      simp only [first, second, Option.map_some, Option.some.injEq] at sent
      dsimp only
      rw [sent]
      refine (Agree.of_eq rfl).bind fun message message' alike _ => ?_
      subst alike
      exact .ok ⟨rfl, next⟩

/-- Two clients that are the same up to the contents of free slots of the sync queue, one of them in a state
that runs reach, emit the same messages whatever the calls and the results of their system calls are,
and stop at the same call for the same reason, if they do. -/
theorem slot_reuse_does_not_show (memory : Memory) (dirSize : Path → ℕ) (Allowed : Event → Client → Prop)
    (client client' : Client) (run : Transition.Run Client.next Allowed (Client.initial memory dirSize) client)
    (same : client.SameUpToFree client') (events : List Event) :
    Transition.observe Client.emit events client = Transition.observe Client.emit events client' :=
  Transition.observe_eq (fun event _ _ matched => matched.emit event) events
    (same.matched (Client.WellFormed.of_run run))

/-- The client with other contents in the free slots. -/
def Client.scribble (junk : SyncNode) (client : Client) : Client :=
  { client with
    queue := { client.queue with
      sq := { client.queue.sq with
        node := fun slot =>
          if (client.node slot).isEmpty then { junk with isEmpty := true } else client.node slot } } }

theorem Client.sameUpToFree_scribble (junk : SyncNode) (client : Client) :
    client.SameUpToFree (client.scribble junk) where
  rest := rfl
  head := rfl
  tail := rfl
  isEmpty slot := by
    by_cases free : (client.node slot).isEmpty
    · exact (congrArg SyncNode.isEmpty (if_pos free)).trans free.symm
    · exact congrArg SyncNode.isEmpty (if_neg free)
  occupied slot inUse := if_neg (ne_true_of_eq_false inUse)

/-- A file is created, written to and sent. -/
def usedSlot : List Event :=
  [⟨.plain, .mknod [47, 97] 33188 0⟩, ⟨.plain, .write [47, 97] 0 [1, 2]⟩, ⟨.plain, .syncExecute⟩]

/-- It is written to again and renamed, and both are sent. -/
def sendsMore : List Event :=
  [⟨.plain, .write [47, 97] 1 [3]⟩, ⟨.plain, .rename [47, 97] [47, 98]⟩, ⟨.plain, .syncExecute⟩,
    ⟨.plain, .syncExecute⟩]

/-- What a former occupant could leave: every field is set. -/
def leftover : SyncNode where
  op := .delta
  src := [47, 120]
  dst := [47, 121]
  para _ := 7
  bn := some [⟨5, 6, some [1], some [2], true⟩]
  fileBuf := some [9]
  isPacked := true
  isNewfile := true
  isDelete := true
  isEmpty := true
  time := 8
  baseVer := 9

theorem slot_reuse_does_not_show_leftover :
    ∃ client, Transition.replay Client.next usedSlot Client.empty = .ok client ∧
      (Transition.observe Client.emit sendsMore client).1.length = 2 ∧
      Transition.observe Client.emit sendsMore client =
        Transition.observe Client.emit sendsMore (client.scribble leftover) := by
  have replayed : ∃ client, Transition.replay Client.next usedSlot Client.empty = .ok client ∧
      (Transition.observe Client.emit sendsMore client).1.length = 2 := Except.exists_ok (by decide +kernel)
  obtain ⟨client, replayed, messages⟩ := replayed
  have run := Transition.Run.of_replay usedSlot (Transition.allAllowed_true _ _) replayed
  exact ⟨client, replayed, messages,
    slot_reuse_does_not_show _ _ (fun _ _ => True) _ _ run (client.sameUpToFree_scribble leftover) sendsMore⟩

end DeltaCFS
