import DeltaCFS.Proofs.Client.Nodes
import Mathlib.Logic.Relation

/-! # The sync ring is a bounded queue

Enqueues, dequeues and the functions that rewrite nodes in place, in any order and number: the ring
holds what was enqueued and not yet dequeued, in that order. A node is the one that was enqueued until
a call hits its slot, and then what these calls make of it. Whether a slot is occupied is told by its
flag alone.
-/

namespace DeltaCFS

variable {env : Env} {client after : Client} {queue queue' middle : SyncQueue} {slot fuel : ℕ} {sn sn' : SyncNode}

/-! ## Operations -/

/-- The arguments of `sync_enqueue`. -/
structure Request where
  op : Op
  src : Path
  dst : Path
  para : Option (Fin 5 → UInt64)
  bn : Option (List BufInfo)
  fileBuf : Option Bytes
  localtime : UInt64
  baseVersion : UInt64

/-- The functions that act on the ring. -/
inductive RingCall where
  | enqueue (request : Request)
  | dequeue
  | delete (path : Path)
  | deleteWrite (path : Path)
  | pack (env : Env) (slot : ℕ)

def enqueueRequest (request : Request) (queue : SyncQueue) : Except Stop SyncQueue :=
  syncEnqueue request.op request.src request.dst request.para request.bn request.fileBuf request.localtime
    request.baseVersion queue

/-- The node that the request leaves in a slot. -/
def Request.node (request : Request) (old : SyncNode) : SyncNode :=
  old.enqueued request.op request.src request.dst request.para request.bn request.fileBuf request.localtime
    request.baseVersion

def RingCall.step (call : RingCall) (client : Client) : Except Stop Client :=
  match call with
  | .enqueue request => do
    let queue ← enqueueRequest request client.queue
    return { client with queue := queue }
  | .dequeue => .ok { client with queue := syncDequeue client.queue }
  | .delete path => .ok (client.syncDelete path)
  | .deleteWrite path => .ok { client with queue := syncDeleteWrite path client.queue }
  | .pack env slot => syncPackWrite env packFuel slot client

/-- The slot of the node `sync_dequeue` returns, `none` for `NULL`. -/
def dequeuedSlot (queue : SyncQueue) : Option ℕ :=
  if (queue.sq.node queue.sq.head).isEmpty then none else some queue.sq.head

/-- What is enqueued and not yet dequeued after the calls, the oldest first. -/
def outstanding (calls : List RingCall) : List Request :=
  calls.foldl (fun fifo call => match call with
    | .enqueue request => fifo ++ [request]
    | .dequeue => fifo.tail
    | .delete _ | .deleteWrite _ | .pack _ _ => fifo) []

/-! ## Rewriting in place -/

/-- The slots that `sync_pack_write` packs: the one it is called for, and those its relations lead to. -/
def packSlots (rel : RelTable) (fuel slot : ℕ) (queue : SyncQueue) : List ℕ :=
  (packVisits rel fuel slot queue).map Prod.fst

/-- The slots whose nodes the call rewrites. -/
def RingCall.slots (call : RingCall) (client : Client) : List ℕ :=
  match call with
  | .enqueue _ | .dequeue => []
  | .delete path | .deleteWrite path => ((syncFind path client.queue).1.map SyncHash.loc).toList
  | .pack _ slot => packSlots client.rel packFuel slot client.queue

/-- What the call makes of the node of such a slot. -/
inductive RingCall.Rewrites : RingCall → SyncNode → SyncNode → Prop where
  | delete (path : Path) (sn : SyncNode) : Rewrites (.delete path) sn { sn with isDelete := true }
  | deleteWrite (path : Path) (sn : SyncNode) : Rewrites (.deleteWrite path) sn sn.deleteWrite
  | packedFile (env : Env) (slot : ℕ) (content : Bytes) (sn : SyncNode) :
      Rewrites (.pack env slot) sn (sn.packedFile content)
  | packedWrite (env : Env) (slot : ℕ) (sn : SyncNode) :
      Rewrites (.pack env slot) sn { sn with op := .write, isPacked := true }
  | packedDelta (env : Env) (slot : ℕ) (deltaFile : Path) (baseVer formerVer : UInt64) (sn : SyncNode) :
      Rewrites (.pack env slot) sn (sn.packedDelta deltaFile baseVer formerVer)

variable {call : RingCall} {slots : List ℕ}

theorem RingCall.Rewrites.isEmpty (rewrites : call.Rewrites sn sn') : sn'.isEmpty = sn.isEmpty := by
  cases rewrites with
  | deleteWrite =>
    simp only [SyncNode.deleteWrite]
    split
    · rfl
    · rfl
  | _ => rfl

/-- What the calls make of a node, one after the other. -/
def Rewritten : List RingCall → SyncNode → SyncNode → Prop
  | [], sn, sn' => sn' = sn
  | call :: calls, sn, sn' => ∃ middle, Relation.ReflTransGen call.Rewrites sn middle ∧ Rewritten calls middle sn'

theorem Rewritten.snoc {calls : List RingCall} {last : SyncNode} (rewritten : Rewritten calls sn sn')
    (rewrites : Relation.ReflTransGen call.Rewrites sn' last) : Rewritten (calls ++ [call]) sn last := by
  induction calls generalizing sn with
  | nil =>
    obtain rfl : sn' = sn := rewritten
    exact ⟨last, rewrites, rfl⟩
  | cons first rest ih =>
    obtain ⟨middle, before, behind⟩ := rewritten
    exact ⟨middle, before, ih behind⟩

/-- Head and tail have not moved, the nodes of these slots are rewritten and the others are as they were. -/
structure InPlace (call : RingCall) (slots : List ℕ) (queue queue' : SyncQueue) : Prop where
  head : queue'.sq.head = queue.sq.head
  tail : queue'.sq.tail = queue.sq.tail
  node : ∀ slot, Relation.ReflTransGen call.Rewrites (queue.sq.node slot) (queue'.sq.node slot)
  others : ∀ slot ∉ slots, queue'.sq.node slot = queue.sq.node slot

namespace InPlace

theorem of_ring (ring : queue'.sq = queue.sq) : InPlace call slots queue queue' :=
  ⟨by rw [ring], by rw [ring], fun slot => by rw [ring], fun slot _ => by rw [ring]⟩

theorem trans (first : InPlace call slots queue middle) (second : InPlace call slots middle queue') :
    InPlace call slots queue queue' :=
  ⟨second.head.trans first.head, second.tail.trans first.tail, fun slot => (first.node slot).trans (second.node slot),
    fun slot outside => (second.others slot outside).trans (first.others slot outside)⟩

theorem mono {more : List ℕ} (inPlace : InPlace call slots queue queue') (subset : slots ⊆ more) :
    InPlace call more queue queue' :=
  ⟨inPlace.head, inPlace.tail, inPlace.node, fun slot outside => inPlace.others slot fun inside => outside (subset inside)⟩

theorem modifyNode (queue : SyncQueue) (change : SyncNode → SyncNode) (hit : slot ∈ slots)
    (rewrites : call.Rewrites (queue.sq.node slot) (change (queue.sq.node slot))) :
    InPlace call slots queue (queue.modifyNode slot change) := by
  refine ⟨rfl, rfl, fun other => ?_, fun other outside => ?_⟩
  · simp only [SyncQueue.modifyNode, RingBuffer.modify_node]
    split
    · next same =>
      subst same
      exact .single rewrites
    · exact .refl
  · have apart : other ≠ slot := fun same => outside (same ▸ hit)
    simp only [SyncQueue.modifyNode, RingBuffer.modify_node, if_neg apart]

/-- A lookup, and a rewrite of the node that it found. -/
theorem dropped (path : Path) (queue : SyncQueue) (change : SyncNode → SyncNode)
    (rewrites : ∀ sn, call.Rewrites sn (change sn)) :
    InPlace call ((DeltaCFS.syncFind path queue).1.map SyncHash.loc).toList queue
      (match DeltaCFS.syncFind path queue with
        | (some sh, queue) => (hashDel sh queue).modifyNode sh.loc change
        | (none, queue) => queue) := by
  have ring := syncFind_sq path queue
  split
  · next sh found hit =>
    simp only [hit] at ring
    have same : InPlace call [sh.loc] queue (hashDel sh found) := of_ring ring
    simp only [hit, Option.map_some, Option.toList_some]
    exact same.trans (modifyNode _ _ List.mem_cons_self (rewrites _))
  · next found hit =>
    simp only [hit] at ring
    exact of_ring ring

theorem syncDelete (path : Path) (queue : SyncQueue) :
    InPlace (.delete path) ((syncFind path queue).1.map SyncHash.loc).toList queue (syncDelete path queue) :=
  dropped path queue _ fun sn => .delete path sn

theorem syncDeleteWrite (path : Path) (queue : SyncQueue) :
    InPlace (.deleteWrite path) ((syncFind path queue).1.map SyncHash.loc).toList queue (syncDeleteWrite path queue) :=
  dropped path queue _ fun sn => .deleteWrite path sn

theorem packNewfile {first : ℕ} (client : Client) (same : client.queue = queue) (hit : slot ∈ slots) :
    InPlace (.pack env first) slots queue (packNewfile slot client).queue := by
  subst same
  simp only [DeltaCFS.packNewfile]
  split
  · exact of_ring rfl
  · exact modifyNode _ _ hit (.packedFile env first _ _)

/-- Packing rewrites the nodes it leads to, whatever the state of the hash is. -/
theorem syncPackWrite {first : ℕ} (packed : syncPackWrite env fuel slot client = .ok after) :
    InPlace (.pack env first) (packSlots client.rel fuel slot client.queue) client.queue after.queue := by
  induction fuel generalizing slot client after with
  | zero => exact absurd packed (by simp [DeltaCFS.syncPackWrite])
  | succ fuel ih =>
    have here : slot ∈ packSlots client.rel (fuel + 1) slot client.queue := by
      rw [packSlots, packVisits, List.map_cons]
      exact List.mem_cons_self
    rw [DeltaCFS.syncPackWrite] at packed
    split at packed
    · next newfile =>
      split at packed
      · obtain rfl := Except.ok.inj packed
        exact packNewfile client rfl here
      · next rh related =>
        simp only [Except.bind_eq_ok] at packed
        obtain ⟨inner, packing, ⟨deltaFile, computed⟩, computing, check, -, packed⟩ := packed
        obtain ⟨old, new, delta, facts⟩ := computeDelta_eq_ok computing
        obtain ⟨_, _, _, _, _, _, _, rfl⟩ := facts.files
        have nested : InPlace (.pack env first) (packSlots client.rel (fuel + 1) slot client.queue) client.queue
            inner.queue := by
          cases hit : (syncFind (client.rel.rq.node rh.loc).dst client.queue).1 with
          | none =>
            rw [hit] at packing
            exact Except.ok.inj packing ▸ of_ring (syncFind_sq _ _)
          | some sh =>
            simp only [hit, packFound, Except.bind_eq_ok] at packing
            obtain ⟨deep, deeper, packing⟩ := packing
            obtain rfl := Except.ok.inj packing
            have found : syncFind (client.rel.rq.node rh.loc).dst client.queue =
                (some sh, (syncFind (client.rel.rq.node rh.loc).dst client.queue).2) := Prod.ext hit rfl
            have below : packSlots client.rel fuel sh.loc (syncFind (client.rel.rq.node rh.loc).dst client.queue).2 ⊆
                packSlots client.rel (fuel + 1) slot client.queue := by
              have newfile' : (client.queue.sq.node slot).op = .newfile := newfile
              have related' : relFind (client.queue.sq.node slot).src client.rel = some rh := related
              have leads : packSlots client.rel (fuel + 1) slot client.queue = slot ::
                  packSlots client.rel fuel sh.loc (syncFind (client.rel.rq.node rh.loc).dst client.queue).2 := by
                rw [packSlots, packVisits, List.map_cons]
                simp only [if_pos newfile', related']
                rw [found, packSlots]
              exact leads ▸ List.subset_cons_self ..
            have looked : InPlace (.pack env first) (packSlots client.rel (fuel + 1) slot client.queue) client.queue
                (syncFind (client.rel.rq.node rh.loc).dst client.queue).2 := of_ring (syncFind_sq _ _)
            exact (looked.trans ((ih deeper).mono below)).trans (of_ring rfl)
        split at packed
        · obtain rfl := Except.ok.inj packed
          exact nested.trans (modifyNode _ _ here (.packedDelta env first _ _ _ _))
        · obtain rfl := Except.ok.inj packed
          exact nested.trans (packNewfile _ rfl here)
    · next write =>
      cases packWrite_eq_ok write packed with
      | unopened newfile => simp [write] at newfile
      | whole newfile => simp [write] at newfile
      | stale newfile => simp [write] at newfile
      | related newfile => simp [write] at newfile
      | writes => exact modifyNode _ _ here (.packedWrite env first _)
      | rebuilt _ _ _ _ computing =>
        obtain ⟨old, new, delta, facts⟩ := computeDelta_eq_ok computing
        obtain ⟨_, _, _, _, _, _, _, rfl⟩ := facts.files
        exact modifyNode _ _ here (.packedDelta env first _ _ _ _)
    · exact Except.ok.inj packed ▸ of_ring rfl

/-- What `sync_execute` packs at the head, after the removal of its entry. -/
theorem packHead (packed : packHead env client = .ok after) :
    ∃ slots, InPlace (.pack env client.queue.sq.head) slots client.queue after.queue := by
  simp only [DeltaCFS.packHead] at packed
  split at packed
  · have ring := syncFind_sq (client.node client.queue.sq.head).src client.queue
    split at packed
    · refine ⟨_, .trans ?_ (syncPackWrite packed)⟩
      exact of_ring ring
    · refine ⟨_, .trans ?_ (syncPackWrite packed)⟩
      exact of_ring ring
  · exact ⟨[], of_ring (by rw [Except.ok.inj packed])⟩

theorem isEmpty_eq (inPlace : InPlace call slots queue queue') (slot : ℕ) :
    (queue'.sq.node slot).isEmpty = (queue.sq.node slot).isEmpty := by
  have run := inPlace.node slot
  generalize queue'.sq.node slot = last at run
  induction run with
  | refl => rfl
  | tail _ rewrites ih => exact rewrites.isEmpty.trans ih

end InPlace

/-! ## The queue -/

/-- A request that is in the ring: its slot, what the slot held before, and the calls that hit the slot since. -/
structure Enqueued where
  request : Request
  slot : ℕ
  left : SyncNode
  calls : List RingCall

/-- Keep the book over one call. -/
def RingCall.record (call : RingCall) (client : Client) (fifo : List Enqueued) : List Enqueued :=
  match call with
  | .enqueue request => fifo ++ [⟨request, client.queue.sq.tail, client.node client.queue.sq.tail, []⟩]
  | .dequeue => fifo.tail
  | .delete _ | .deleteWrite _ | .pack _ _ => fifo.map fun entry =>
      if entry.slot ∈ call.slots client then { entry with calls := entry.calls ++ [call] } else entry

/-- Keep the book over a sequence of calls. -/
def recordAll : List RingCall → Client → List Enqueued → List Enqueued
  | [], _, fifo => fifo
  | call :: rest, client, fifo =>
    match call.step client with
    | .ok next => recordAll rest next (call.record client fifo)
    | .error _ => fifo

/-- The node in the slot is the enqueued one, rewritten by these calls. -/
def Enqueued.Holds (queue : SyncQueue) (entry : Enqueued) : Prop :=
  Rewritten entry.calls (entry.request.node entry.left) (queue.sq.node entry.slot)

/-- The ring holds what is in the book. -/
structure Booked (requests : List Request) (fifo : List Enqueued) (queue : SyncQueue) : Prop where
  requests_eq : fifo.map Enqueued.request = requests
  queued : queue.sq.Queued queueSize SyncNode.isEmpty (fifo.map Enqueued.slot)
  holds : ∀ entry ∈ fifo, entry.Holds queue

namespace Booked

variable {requests : List Request} {fifo : List Enqueued}

theorem initial (garbage : ℕ → SyncNode) (hashCachePath : Path) :
    Booked [] [] (SyncQueue.initial garbage hashCachePath) :=
  ⟨rfl, RingBuffer.queued_nil (by decide) _ fun _ => rfl, fun _ inside => absurd inside List.not_mem_nil⟩

theorem enqueue {request : Request} (booked : Booked requests fifo client.queue)
    (entered : enqueueRequest request client.queue = .ok queue') :
    Booked (requests ++ [request]) ((RingCall.enqueue request).record client fifo) queue' := by
  obtain ⟨same, queued, holds⟩ := booked
  simp only [enqueueRequest, syncEnqueue] at entered
  split at entered
  · next free =>
    obtain rfl := Except.ok.inj entered
    have room := queued.isEmpty_tail.mp free
    have full := queued.tail_mem_iff.not.mpr room.ne
    refine ⟨by simp [RingCall.record, same], ?_, fun entry inside => ?_⟩
    · have pushed : (client.queue.sq.push queueSize (request.node (client.node client.queue.sq.tail))).Queued queueSize
          SyncNode.isEmpty (fifo.map Enqueued.slot ++ [client.queue.sq.tail]) := queued.push room rfl
      rw [RingCall.record, List.map_append]
      exact pushed
    · rcases List.mem_append.mp inside with old | new
      · have apart : entry.slot ≠ client.queue.sq.tail := fun here => full (here ▸ List.mem_map_of_mem old)
        have kept := holds entry old
        simpa only [Enqueued.Holds, RingBuffer.push, Function.update_of_ne apart] using kept
      · obtain rfl := List.mem_singleton.mp new
        simp [Enqueued.Holds, Rewritten, Request.node, RingBuffer.push, Client.node]
  · exact absurd entered (by simp)

theorem dequeue (booked : Booked requests fifo queue) : Booked requests.tail fifo.tail (syncDequeue queue) := by
  obtain ⟨rfl, queued, holds⟩ := booked
  cases fifo with
  | nil =>
    have free := queued.isEmpty_head.mpr rfl
    rw [syncDequeue, if_pos free]
    exact ⟨rfl, queued, holds⟩
  | cons first rest =>
    have here : queue.sq.head = first.slot := queued.head_eq
    have occupied : (queue.sq.node queue.sq.head).isEmpty = false :=
      (queued.flags _ queued.head_lt).mpr (here ▸ List.mem_cons_self)
    simp only [syncDequeue, occupied, Bool.false_eq_true, ↓reduceIte]
    refine ⟨rfl, queued.pop rfl, fun entry inside => ?_⟩
    have apart : entry.slot ≠ queue.sq.head := by
      have distinct := (List.nodup_cons.mp queued.nodup).1
      exact fun same => distinct (here ▸ same ▸ List.mem_map_of_mem inside)
    have kept := holds entry (List.mem_cons_of_mem _ inside)
    simpa only [Enqueued.Holds, RingBuffer.pop, Function.update_of_ne apart] using kept

/-- A call that hits a slot is put down there. -/
theorem inPlace (booked : Booked requests fifo queue) (inPlace : InPlace call slots queue queue') :
    Booked requests (fifo.map fun entry =>
      if entry.slot ∈ slots then { entry with calls := entry.calls ++ [call] } else entry) queue' := by
  obtain ⟨same, queued, holds⟩ := booked
  have slotsEq : (fifo.map fun entry =>
      if entry.slot ∈ slots then { entry with calls := entry.calls ++ [call] } else entry).map Enqueued.slot =
        fifo.map Enqueued.slot := by
    rw [List.map_map]
    refine List.map_congr_left fun entry _ => ?_
    simp only [Function.comp_apply]
    split <;> rfl
  refine ⟨?_, ?_, fun entry inside => ?_⟩
  · rw [← same, List.map_map]
    refine List.map_congr_left fun entry _ => ?_
    simp only [Function.comp_apply]
    split <;> rfl
  · rw [slotsEq]
    exact queued.of_same_flags inPlace.head inPlace.tail fun slot _ => inPlace.isEmpty_eq slot
  · obtain ⟨old, member, rfl⟩ := List.mem_map.mp inside
    have kept := holds old member
    split
    · exact kept.snoc (inPlace.node old.slot)
    · next outside =>
      rw [Enqueued.Holds, inPlace.others old.slot outside]
      exact kept

/-- Every call continues the queue. -/
theorem step {calls : List RingCall} (booked : Booked (outstanding calls) fifo client.queue)
    (stepped : call.step client = .ok after) :
    Booked (outstanding (calls ++ [call])) (call.record client fifo) after.queue := by
  simp only [outstanding, List.foldl_append, List.foldl_cons, List.foldl_nil] at booked ⊢
  cases call with
  | enqueue request =>
    obtain ⟨queue, entered, same⟩ := Except.bind_eq_ok.mp stepped
    obtain rfl := Except.ok.inj same
    exact booked.enqueue entered
  | dequeue => exact Except.ok.inj stepped ▸ booked.dequeue
  | delete path => exact Except.ok.inj stepped ▸ booked.inPlace (.syncDelete path client.queue)
  | deleteWrite path => exact Except.ok.inj stepped ▸ booked.inPlace (.syncDeleteWrite path client.queue)
  | pack env slot => exact booked.inPlace (.syncPackWrite stepped)

theorem replay {before calls : List RingCall} (booked : Booked (outstanding before) fifo client.queue)
    (replayed : Transition.replay RingCall.step calls client = .ok after) :
    Booked (outstanding (before ++ calls)) (recordAll calls client fifo) after.queue := by
  induction calls generalizing before client fifo with
  | nil =>
    obtain rfl := Except.ok.inj replayed
    simpa [recordAll] using booked
  | cons call rest ih =>
    obtain ⟨next, stepped, replayed⟩ := Except.bind_eq_ok.mp replayed
    simpa [recordAll, stepped] using ih (booked.step stepped) replayed

end Booked

/-- After any calls on the initial ring, the occupied slots are the `n` slots from the head on, up to
the tail; read in this order they are the nodes that were enqueued and not yet dequeued, each as it was
enqueued and then rewritten by just the calls that hit its slot. An enqueue is refused exactly when
there are `QUEUE_SIZE` of them, and a dequeue returns the oldest or, if there is none, `NULL`. -/
theorem ring_is_fifo (client : Client) (garbage : ℕ → SyncNode) (hashCachePath : Path) (calls : List RingCall)
    (after : Client) (replayed : Transition.replay RingCall.step calls
      { client with queue := SyncQueue.initial garbage hashCachePath } = .ok after) :
    ∃ n ≤ queueSize, n = (outstanding calls).length ∧
      after.queue.sq.head < queueSize ∧ after.queue.sq.tail = (after.queue.sq.head + n) % queueSize ∧
      (∀ slot < queueSize, (after.node slot).isEmpty = false ↔ ∃ i < n, slot = (after.queue.sq.head + i) % queueSize) ∧
      (∃ fifo, fifo = recordAll calls { client with queue := SyncQueue.initial garbage hashCachePath } [] ∧
        fifo.map Enqueued.request = outstanding calls ∧
        fifo.map Enqueued.slot = (List.range n).map (fun i => (after.queue.sq.head + i) % queueSize) ∧
        ∀ entry ∈ fifo, Rewritten entry.calls (entry.request.node entry.left) (after.node entry.slot)) ∧
      (∀ request, enqueueRequest request after.queue = .error .blocked ↔ n = queueSize) ∧
      dequeuedSlot after.queue = (if n = 0 then none else some after.queue.sq.head) := by
  have start : Booked (outstanding []) [] (SyncQueue.initial garbage hashCachePath) := .initial garbage hashCachePath
  obtain ⟨same, queued, holds⟩ :=
    @Booked.replay { client with queue := SyncQueue.initial garbage hashCachePath } after [] [] calls start replayed
  generalize recordAll calls { client with queue := SyncQueue.initial garbage hashCachePath } [] = fifo at same queued holds
  have bound := queued.bound
  have order := queued.order
  have tail := queued.tail_eq
  simp only [RingBuffer.slots, List.length_map] at bound order tail
  have length := congrArg List.length same
  rw [List.length_map, List.nil_append] at length
  refine ⟨fifo.length, bound, length, queued.head_lt, tail, fun slot inside => ?_, ⟨fifo, rfl, same, order, holds⟩,
    fun request => ?_, ?_⟩
  · rw [Client.node, queued.flags slot inside, order]
    simp only [List.mem_map, List.mem_range, eq_comm]
  · have full := queued.isEmpty_tail
    simp only [enqueueRequest, syncEnqueue, List.length_map] at full ⊢
    split
    · next free => simpa using (full.mp free).ne
    · next occupied =>
      have := full.not.mp occupied
      simp only [true_iff]
      omega
  · have empty := queued.isEmpty_head
    simp only [dequeuedSlot, empty, List.map_eq_nil_iff, List.length_eq_zero_iff]

/-- Three nodes: the first one is dequeued, the second one deleted in its place, and no call hits the third. -/
def threeNodes : List RingCall :=
  [.enqueue ⟨.newfile, [47, 97], [], some fun _ => 0, none, none, 2, 0⟩,
    .enqueue ⟨.write, [47, 98], [], none, some [], none, 3, 1⟩,
    .enqueue ⟨.mkdir, [47, 99], [], some fun _ => 0, none, none, 4, 0⟩, .delete [47, 98], .dequeue]

theorem ring_is_fifo_three_nodes :
    ∃ after, Transition.replay RingCall.step threeNodes Client.empty = .ok after ∧ (after.node 1).isDelete = true ∧
      (∃ entry ∈ recordAll threeNodes Client.empty [],
        entry.slot = 2 ∧ after.node 2 = entry.request.node entry.left) ∧
      ∀ request, enqueueRequest request after.queue ≠ .error .blocked := by
  have replayed : ∃ after, Transition.replay RingCall.step threeNodes Client.empty = .ok after ∧
      (after.node 1).isDelete = true := Except.exists_ok (by decide +kernel)
  obtain ⟨after, replayed, deleted⟩ := replayed
  obtain ⟨n, -, length, -, -, -, ⟨fifo, rfl, -, -, holds⟩, refused, -⟩ :=
    ring_is_fifo Client.empty _ _ _ after replayed
  have untouched : ∃ entry ∈ recordAll threeNodes Client.empty [], entry.slot = 2 ∧ entry.calls.length = 0 := by
    decide +kernel
  refine ⟨after, replayed, deleted, ?_, fun request blocked => ?_⟩
  · obtain ⟨entry, member, slot, none⟩ := untouched
    have node := holds entry member
    rw [List.length_eq_zero_iff.mp none, slot] at node
    exact ⟨entry, member, slot, node⟩
  · have full := (refused request).mp blocked
    rw [full] at length
    exact absurd length (by decide)

end DeltaCFS
