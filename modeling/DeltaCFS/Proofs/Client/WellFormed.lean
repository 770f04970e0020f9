import DeltaCFS.Proofs.Client.Nodes
import DeltaCFS.Proofs.Client.Relations

/-! # Well-formed clients

What every state of the client has, whatever the calls were: the two rings are queues, their hashes
refer to the right slots, and a pending node is either that of a new file or one with records.
-/

namespace DeltaCFS

variable {env : Env} {client after : Client} {path source target : Path} {res : ℤ} {nodes : List SyncNode}

/-- A pending node knows whether it is for a new file, and takes records if it is not. -/
def SyncNode.Formed (sn : SyncNode) : Prop :=
  sn.Pending → (sn.isNewfile = true ↔ sn.op = .newfile) ∧ (sn.op = .write → sn.bn.isSome = true)

theorem SyncNode.formed_of_settled {sn : SyncNode} (settled : ¬ sn.Pending) : sn.Formed :=
  fun pending => absurd pending settled

def Formed (nodes : List SyncNode) : Prop := ∀ sn ∈ nodes, sn.Formed

namespace Formed

theorem append {sn : SyncNode} (formed : Formed nodes) (last : sn.Formed) : Formed (nodes ++ [sn]) := by
  intro other member
  rw [List.mem_append, List.mem_singleton] at member
  rcases member with old | rfl
  · exact formed other old
  · exact last

theorem replace {before rest : List SyncNode} {sn sn' : SyncNode} (formed : Formed (before ++ sn :: rest))
    (changed : sn.Formed → sn'.Formed) : Formed (before ++ sn' :: rest) := by
  intro other member
  simp only [List.mem_append, List.mem_cons] at member
  rcases member with old | rfl | old
  · exact formed other (by simp [old])
  · exact changed (formed sn (by simp))
  · exact formed other (by simp [old])

theorem settle {before rest : List SyncNode} {sn sn' : SyncNode} (formed : Formed (before ++ sn :: rest))
    (settled : ¬ sn'.Pending) : Formed (before ++ sn' :: rest) :=
  formed.replace fun _ => SyncNode.formed_of_settled settled

theorem appended {before rest : List SyncNode} {sn : SyncNode} (record : BufInfo)
    (formed : Formed (before ++ sn :: rest)) : Formed (before ++ sn.appended record :: rest) := by
  refine formed.replace fun good waits => ?_
  simp only [SyncNode.appended] at waits ⊢
  split
  · next isNew =>
    rw [if_pos isNew] at waits
    exact good waits
  · next old =>
    rw [if_neg old] at waits
    simpa using good waits

theorem packKeeps (env : Env) (client : Client) : PackKeeps env client Formed := by
  intro state after slot before rest _ _ _ one formed
  obtain ⟨-, -, -, -, packed | ⟨rfl, -⟩⟩ := one.frame
  · exact formed.settle (SyncNode.not_pending_of_packed packed)
  · exact formed

end Formed

structure Client.WellFormed (client : Client) : Prop where
  queue : client.queue.Holds Formed
  rel : client.rel.Sane

namespace Client.WellFormed

variable {queue queue' : SyncQueue}

theorem congr (formed : client.WellFormed) (queue : after.queue = client.queue) (rel : after.rel = client.rel) :
    after.WellFormed :=
  ⟨queue ▸ formed.queue, rel ▸ formed.rel⟩

/-- A node that is not buffered. -/
theorem enqueue {op : Op} {src dst : Path} {para : Option (Fin 5 → UInt64)}
    {bn : Option (List BufInfo)} {localtime baseVersion : UInt64} (holds : queue.Holds Formed)
    (enqueued : syncEnqueue op src dst para bn none localtime baseVersion queue = .ok queue')
    (plain : op.isBuffered = false) : queue'.Holds Formed := by
  refine holds.enqueue enqueued (fun buffered => absurd buffered (by simp [plain])) fun _ old formed =>
    formed.append (SyncNode.formed_of_settled fun pending => ?_)
  simp [SyncNode.Pending, SyncNode.enqueued, plain] at pending

theorem mknod {mode rdev : ℕ} (formed : client.WellFormed)
    (handled : xmpMknod env path mode rdev client = .ok (res, after)) : after.WellFormed := by
  obtain ⟨stored, rfl, ⟨-, rfl⟩ | ⟨fs, packed, queue, -, packing, queued, -, rfl⟩⟩ := xmpMknod_eq_ok handled
  · exact formed.congr rfl rfl
  · obtain ⟨-, rel, -⟩ := syncPackWritePath_frame packing formed.queue.tidy
    obtain ⟨holds, none⟩ := SyncQueue.Holds.packPath packing formed.queue (Formed.packKeeps env _)
    refine ⟨holds.enqueue queued (fun _ => none) fun _ old good => good.append fun _ => ?_, rel ▸ formed.rel⟩
    simp [SyncNode.enqueued]

theorem unlink (formed : client.WellFormed) (handled : xmpUnlink env path client = .ok (res, after)) :
    after.WellFormed := by
  obtain ⟨version, packed, rel, -, packing, forgotten, outcome⟩ := xmpUnlink_eq_ok handled
  obtain ⟨-, same, -⟩ := syncPackWritePath_frame packing formed.queue.tidy
  obtain ⟨holds, -⟩ := SyncQueue.Holds.packPath packing formed.queue (Formed.packKeeps env _)
  have sane : rel.Sane := by
    rw [forgotten, same]
    exact ((formed.rel.relDeleteDst path).1.relDeleteSrc path).1
  rcases outcome with ⟨-, rfl⟩ | ⟨fs, queue, related, -, queued, entering, -, rfl⟩
  · exact ⟨holds, sane⟩
  · exact ⟨enqueue holds queued rfl, (sane.relEnqueue entering).1⟩

theorem rename (formed : client.WellFormed) (handled : xmpRename env source target client = .ok (res, after)) :
    after.WellFormed := by
  obtain ⟨version, synced, rel, -, syncing, entering, outcome⟩ := xmpRename_eq_ok handled
  have settled (op : Op) (plain : op.isBuffered = false) {src dst : Path} {para : Option (Fin 5 → UInt64)}
      {localtime base : UInt64} (nodes : List SyncNode) (old : SyncNode) (good : Formed nodes) :
      Formed (nodes ++ [old.enqueued op src dst para none none localtime base]) :=
    good.append (SyncNode.formed_of_settled (by simp [SyncNode.Pending, SyncNode.enqueued, plain]))
  obtain ⟨holds, same, -, -⟩ := SyncQueue.Holds.renameSync syncing formed.queue (Formed.packKeeps env _)
    (Formed.packKeeps env _) (settled .unlink rfl) (fun _ => id)
    (fun _ _ _ _ _ good => good.settle (SyncNode.not_pending_of_deleted rfl)) (settled .rename rfl)
    (fun nodes old _ _ _ _ => settled .delta rfl nodes old)
  have ready : Client.WellFormed { synced with rel := rel } :=
    ⟨holds, ((formed.rel.replaced target same).1.relEnqueue entering).1⟩
  rcases outcome with ⟨-, rfl⟩ | ⟨fs, -, -, rfl⟩
  · exact ready
  · exact ready.congr rfl rfl

theorem link (formed : client.WellFormed) (handled : xmpLink env source target client = .ok (res, after)) :
    after.WellFormed := by
  obtain ⟨version, synced, queue, -, syncing, queued, outcome⟩ := xmpLink_eq_ok handled
  obtain ⟨holds, rel, -, -⟩ := SyncQueue.Holds.linkSync syncing formed.queue (Formed.packKeeps env _) (fun _ => id)
    (fun nodes old _ _ _ _ _ good => good.append (SyncNode.formed_of_settled
      (by simp [SyncNode.Pending, SyncNode.enqueued, Op.isBuffered])))
    (fun _ => id) (fun _ _ _ _ _ good => good.settle (SyncNode.not_pending_of_deleted rfl))
  have ready : Client.WellFormed { synced with queue := queue } := ⟨enqueue holds queued rfl, rel ▸ formed.rel⟩
  rcases outcome with ⟨-, rfl⟩ | ⟨fs, -, -, rfl⟩
  · exact ready.congr rfl rfl
  · exact ready.congr rfl rfl

theorem setattr {op : Op} {para : List UInt64} (formed : client.WellFormed)
    (handled : xmpSetattr env op path para client = .ok (res, after)) (plain : op.isBuffered = false) :
    after.WellFormed := by
  obtain ⟨queue, queued, outcome⟩ := xmpSetattr_eq_ok handled
  have ready : Client.WellFormed { client with queue := queue } := ⟨enqueue formed.queue queued plain, formed.rel⟩
  rcases outcome with ⟨-, rfl⟩ | ⟨fs, -, -, rfl⟩
  · exact ready
  · exact ready.congr rfl rfl

theorem truncateSync {size : ℕ} (formed : client.WellFormed) (synced : truncateSync path size client = .ok after) :
    after.WellFormed := by
  rcases truncateSync_eq_ok synced with
    ⟨-, rfl⟩ | ⟨-, sh, hit, rfl⟩ | ⟨-, -, version, queue, -, queued, rfl⟩
  · exact ⟨formed.queue.syncDeleteWrite path fun _ sn _ _ _ good => good.settle (Indexed.deleteWrite_settled sn),
      formed.rel⟩
  · exact ⟨formed.queue.appended path _ hit fun _ _ _ _ _ good => good.appended _, formed.rel⟩
  · exact ⟨enqueue (formed.queue.syncFind path) queued rfl, formed.rel⟩

theorem writeSync {offset : ℕ} {data : Bytes} (formed : client.WellFormed)
    (synced : writeSync env path offset data client = .ok after) : after.WellFormed := by
  rcases writeSync_eq_ok synced with ⟨sh, hit, rfl⟩ | ⟨miss, version, queue, known, queued, rfl⟩
  · exact ⟨formed.queue.appended path _ hit fun _ _ _ _ _ good => good.appended _, formed.rel⟩
  · refine ⟨(formed.queue.syncFind path).enqueue queued (fun _ => ?_) fun _ old good => good.append fun _ => ?_,
      formed.rel⟩
    · rw [(formed.queue.tidy.syncFind path).2.1]
      exact formed.queue.tidy.not_found miss
    · simp [SyncNode.enqueued]

/-- Every call keeps the client well-formed. -/
theorem step {event : Event} (formed : client.WellFormed) (stepped : client.next event = .ok after) :
    after.WellFormed := by
  obtain ⟨env, call⟩ := event
  obtain ⟨outcome, ran, rfl⟩ := next_eq_ok stepped
  cases call with
  | mknod path mode rdev => exact formed.mknod (ofHandled_eq_ok ran).1
  | mkdir path mode =>
    rcases xmpMkdir_eq_ok (ofHandled_eq_ok ran).1 with ⟨-, same⟩ | ⟨fs, queue, -, queued, -, same⟩
    · exact same ▸ formed
    · have ready := enqueue formed.queue queued rfl
      exact same ▸ ⟨ready, formed.rel⟩
  | unlink path => exact formed.unlink (ofHandled_eq_ok ran).1
  | rmdir path =>
    obtain ⟨version, queue, -, queued, ⟨-, same⟩ | ⟨fs, -, -, same⟩⟩ := xmpRmdir_eq_ok (ofHandled_eq_ok ran).1
    all_goals have ready := enqueue formed.queue queued rfl
    · exact same ▸ ⟨ready, formed.rel⟩
    · exact same ▸ ⟨ready, formed.rel⟩
  | rename source target => exact formed.rename (ofHandled_eq_ok ran).1
  | link source target => exact formed.link (ofHandled_eq_ok ran).1
  | chmod path mode => exact formed.setattr (ofHandled_eq_ok ran).1 rfl
  | chown path uid gid => exact formed.setattr (ofHandled_eq_ok ran).1 rfl
  | utimens path accessed modified => exact formed.setattr (ofHandled_eq_ok ran).1 rfl
  | truncate path size =>
    obtain ⟨synced, syncing, ⟨-, same⟩ | ⟨fs, -, -, same⟩⟩ := xmpTruncate_eq_ok (ofHandled_eq_ok ran).1
    · exact same ▸ formed.truncateSync syncing
    · exact same ▸ (formed.truncateSync syncing).congr rfl rfl
  | write path offset data =>
    obtain ⟨synced, syncing, ⟨-, same⟩ | ⟨fs, -, -, -, same⟩⟩ := xmpWrite_eq_ok (ofHandled_eq_ok ran).1
    · exact same ▸ formed.writeSync syncing
    · exact same ▸ (formed.writeSync syncing).congr rfl rfl
  | syncExecute =>
    rcases SyncQueue.Holds.syncExecute (step_syncExecute ran).1 formed.queue (Formed.packKeeps env _) with
      ⟨-, same⟩ | ⟨⟨-, rel, -⟩, sn, -, holds⟩
    · exact same ▸ formed
    · exact ⟨holds.imp fun _ good other member => good other (List.mem_cons_of_mem _ member), rel ▸ formed.rel⟩
  | relDequeue =>
    obtain rfl := Except.ok.inj ran
    exact ⟨formed.queue, formed.rel.relDequeue.1⟩

theorem initial (memory : Memory) (dirSize : Path → ℕ) : (Client.initial memory dirSize).WellFormed :=
  ⟨.initial _ _ (by simp [Formed]), .initial _⟩

/-- Every state a client reaches is well-formed. -/
theorem of_run {memory : Memory} {dirSize : Path → ℕ} {Allowed : Event → Client → Prop}
    (run : Transition.Run Client.next Allowed (Client.initial memory dirSize) client) : client.WellFormed :=
  run.invariant Client.WellFormed (fun formed _ stepped => formed.step stepped) (initial memory dirSize)

/-- While the tail is ahead of the head, the occupied slots lie between them. -/
theorem occupied_lt_tail {slot : ℕ} (formed : client.WellFormed) (ahead : client.queue.sq.head < client.queue.sq.tail)
    (bound : slot < queueSize) (occupied : (client.node slot).isEmpty = false) : slot < client.queue.sq.tail := by
  obtain ⟨-, nodes, ⟨fifo, queued, -⟩, -⟩ := formed.queue
  have inside := (queued.flags slot bound).mp occupied
  rw [queued.order, RingBuffer.slots, List.mem_map] at inside
  obtain ⟨i, member, here⟩ := inside
  have order := List.mem_range.mp member
  have few := queued.bound
  have start := queued.head_lt
  have tail := queued.tail_eq
  -- the ring has not wrapped around, or the tail would be behind the head
  have room : client.queue.sq.head + fifo.length < queueSize := by
    by_contra wrapped
    rw [Nat.mod_eq_sub_mod (Nat.le_of_not_lt wrapped), Nat.mod_eq_of_lt (by omega)] at tail
    omega
  rw [Nat.mod_eq_of_lt room] at tail
  rw [Nat.mod_eq_of_lt (by omega)] at here
  omega

end Client.WellFormed

end DeltaCFS
