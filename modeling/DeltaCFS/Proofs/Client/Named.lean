import DeltaCFS.Proofs.Client.WellFormed
import DeltaCFS.Proofs.Wire

/-! # The names in the queue

A node names the path of its call, or a file of the client when it is a delta. When the paths of the calls
fit the buffers of the server, so do the names that the messages carry.
-/

namespace DeltaCFS

variable {env : Env} {client after : Client} {path source target : Path} {res : ℤ} {nodes : List SyncNode}
  {sn sn' : SyncNode}

/-- The paths of the call fit the buffers of the server. An unlink sends the name of the file in the
temporary directory. -/
def Call.Fits (call : Call) : Prop :=
  match call with
  | .mknod path _ _ | .mkdir path _ | .rmdir path | .chmod path _ | .chown path _ _ | .truncate path _
  | .utimens path _ _ | .write path _ _ => FitsName path
  | .unlink path => FitsName path ∧ FitsName (tmpPath path)
  | .rename source target | .link source target => FitsName source ∧ FitsName target
  | .syncExecute | .relDequeue => True

instance : DecidablePred Call.Fits := fun call =>
  match call with
  | .mknod path .. | .mkdir path .. | .rmdir path | .chmod path .. | .chown path .. | .truncate path ..
  | .utimens path .. | .write path .. => inferInstanceAs (Decidable (FitsName path))
  | .unlink _ | .rename .. | .link .. => inferInstanceAs (Decidable (_ ∧ _))
  | .syncExecute | .relDequeue => isTrue trivial

/-- The names that the message of the node carries. -/
structure SyncNode.Named (sn : SyncNode) : Prop where
  source : sn.op ≠ .delta → FitsName sn.src
  target : sn.op = .rename ∨ sn.op = .delta → FitsName sn.dst

def Named (nodes : List SyncNode) : Prop := ∀ sn ∈ nodes, sn.Named

namespace SyncNode.Named

theorem congr (named : sn.Named) (op : sn'.op = sn.op) (src : sn'.src = sn.src) (dst : sn'.dst = sn.dst) : sn'.Named :=
  ⟨fun plain => src ▸ named.source (op ▸ plain), fun carries => dst ▸ named.target (op ▸ carries)⟩

/-- A node that names its source only. -/
theorem of_source (fits : FitsName sn.src) (op : sn.op ≠ .rename ∧ sn.op ≠ .delta) : sn.Named :=
  ⟨fun _ => fits, fun carries => absurd carries (not_or.mpr op)⟩

/-- A delta is for the file that its node was for. -/
theorem packedDelta (named : sn.Named) (plain : sn.op ≠ .delta) (deltaFile : Path) (base former : UInt64) :
    (sn.packedDelta deltaFile base former).Named :=
  ⟨fun kept => absurd rfl kept, fun _ => named.source plain⟩

theorem packed {slot : ℕ} (named : (client.node slot).Named) (one : PackedOne env slot client after) :
    (after.node slot).Named := by
  rcases one.node_cases with same | ⟨newfile, content, whole⟩ | ⟨newfile, rh, deltaFile, -, -, delta⟩ |
    ⟨write, sends | ⟨deltaFile, delta⟩⟩
  · exact same ▸ named
  · exact whole ▸ named.congr rfl rfl rfl
  · exact delta ▸ named.packedDelta (by simp [newfile]) ..
  · exact sends ▸ named.congr write.symm rfl rfl
  · exact delta ▸ named.packedDelta (by simp [write]) ..

theorem deleteWrite (named : sn.Named) : sn.deleteWrite.Named := by
  simp only [SyncNode.deleteWrite]
  split
  · next newfile => exact .of_source (named.source (by simp [newfile])) (by simp)
  · exact named.congr rfl rfl rfl

end SyncNode.Named

namespace Named

theorem append (named : Named nodes) (last : sn.Named) : Named (nodes ++ [sn]) := by
  intro other member
  rw [List.mem_append, List.mem_singleton] at member
  rcases member with old | rfl
  · exact named other old
  · exact last

theorem replace {before rest : List SyncNode} (named : Named (before ++ sn :: rest)) (changed : sn.Named → sn'.Named) :
    Named (before ++ sn' :: rest) := by
  intro other member
  simp only [List.mem_append, List.mem_cons] at member
  rcases member with old | rfl | old
  · exact named other (by simp [old])
  · exact changed (named sn (by simp))
  · exact named other (by simp [old])

theorem packKeeps (env : Env) (client : Client) : PackKeeps env client Named :=
  fun _ _ _ one named => named.replace fun good => good.packed one

variable {queue queue' : SyncQueue} {op : Op} {src dst : Path} {para : Option (Fin 5 → UInt64)}
  {bn : Option (List BufInfo)} {localtime baseVersion : UInt64}

/-- A node that is not buffered, for the path of the call. -/
theorem enqueue (holds : queue.Holds Named)
    (enqueued : syncEnqueue op src dst para bn none localtime baseVersion queue = .ok queue')
    (plain : op.isBuffered = false) (fits : FitsName src) (single : op ≠ .rename ∧ op ≠ .delta) : queue'.Holds Named :=
  holds.enqueue enqueued (fun buffered => absurd buffered (by simp [plain])) fun _ _ named =>
    named.append (.of_source fits single)

theorem mknod {mode rdev : ℕ} (named : client.queue.Holds Named) (fits : FitsName path)
    (handled : xmpMknod env path mode rdev client = .ok (res, after)) : after.queue.Holds Named := by
  obtain ⟨stored, rfl, ⟨-, rfl⟩ | ⟨fs, packed, queue, -, packing, queued, -, rfl⟩⟩ := xmpMknod_eq_ok handled
  · exact named
  · obtain ⟨holds, none⟩ := SyncQueue.Holds.packPath packing named (packKeeps env _)
    exact holds.enqueue queued (fun _ => none) fun _ _ good => good.append (.of_source fits (by simp [SyncNode.enqueued]))

theorem unlink (named : client.queue.Holds Named) (fits : FitsName path) (moved : FitsName (tmpPath path))
    (handled : xmpUnlink env path client = .ok (res, after)) : after.queue.Holds Named := by
  obtain ⟨version, packed, rel, -, packing, -, outcome⟩ := xmpUnlink_eq_ok handled
  obtain ⟨holds, -⟩ := SyncQueue.Holds.packPath packing named (packKeeps env _)
  rcases outcome with ⟨-, rfl⟩ | ⟨fs, queue, related, -, queued, -, -, rfl⟩
  · exact holds
  · exact holds.enqueue queued (fun buffered => absurd buffered (by simp [Op.isBuffered])) fun _ _ good =>
      good.append ⟨fun _ => fits, fun _ => moved⟩

theorem rename (named : client.queue.Holds Named) (fits : FitsName source) (fits' : FitsName target)
    (handled : xmpRename env source target client = .ok (res, after)) : after.queue.Holds Named := by
  obtain ⟨version, synced, rel, -, syncing, -, outcome⟩ := xmpRename_eq_ok handled
  obtain ⟨holds, -⟩ := SyncQueue.Holds.renameSync syncing named (packKeeps env _) (packKeeps env _)
    (fun nodes old good => good.append (.of_source fits (by simp [SyncNode.enqueued]))) (fun _ => id)
    (fun _ _ _ _ _ good => good.replace fun here => here.congr rfl rfl rfl)
    (fun nodes old good => good.append ⟨fun _ => fits, fun _ => fits'⟩)
    (fun nodes old _ _ _ _ good => good.append ⟨fun kept => absurd rfl kept, fun _ => fits'⟩)
  rcases outcome with ⟨-, rfl⟩ | ⟨fs, -, -, rfl⟩
  · exact holds
  · exact holds

theorem link (named : client.queue.Holds Named) (fits : FitsName source)
    (handled : xmpLink env source target client = .ok (res, after)) : after.queue.Holds Named := by
  obtain ⟨version, synced, queue, -, syncing, queued, outcome⟩ := xmpLink_eq_ok handled
  obtain ⟨holds, -⟩ := SyncQueue.Holds.linkSync syncing named (packKeeps env _) (fun _ => id)
    (fun nodes old _ _ _ _ _ good => good.append ⟨fun kept => absurd rfl kept, fun _ => fits⟩) (fun _ => id)
    (fun _ _ _ _ _ good => good.replace fun here => here.congr rfl rfl rfl)
  have ready := enqueue holds queued rfl fits (by simp)
  rcases outcome with ⟨-, rfl⟩ | ⟨fs, -, -, rfl⟩
  · exact ready
  · exact ready

theorem truncateSync {size : ℕ} (named : client.queue.Holds Named) (fits : FitsName path)
    (synced : truncateSync path size client = .ok after) : after.queue.Holds Named := by
  rcases truncateSync_eq_ok synced with
    ⟨-, rfl⟩ | ⟨-, sh, hit, rfl⟩ | ⟨-, -, version, queue, -, queued, rfl⟩
  · exact named.syncDeleteWrite path fun _ _ _ _ _ good => good.replace (·.deleteWrite)
  · refine named.appended path _ hit fun _ sn _ _ _ good => good.replace fun here => ?_
    obtain ⟨op, src, dst, -⟩ := sn.appended_fields (truncateRecord size)
    exact here.congr op src dst
  · exact enqueue (named.syncFind path) queued rfl fits (by simp)

theorem writeSync {offset : ℕ} {data : Bytes} (named : client.queue.Holds Named) (fits : FitsName path)
    (synced : writeSync env path offset data client = .ok after) : after.queue.Holds Named := by
  rcases writeSync_eq_ok synced with ⟨sh, hit, rfl⟩ | ⟨miss, version, queue, known, queued, rfl⟩
  · refine named.appended path _ hit fun _ sn _ _ _ good => good.replace fun here => ?_
    obtain ⟨op, src, dst, -⟩ := sn.appended_fields (writeRecord env path offset data client)
    exact here.congr op src dst
  · refine (named.syncFind path).enqueue queued (fun _ => ?_) fun _ _ good =>
      good.append (.of_source fits (by simp [SyncNode.enqueued]))
    rw [(named.tidy.syncFind path).2.1]
    exact named.tidy.not_found miss

/-- Every call leaves such a queue. -/
theorem step {event : Event} (named : client.queue.Holds Named) (fits : event.call.Fits)
    (stepped : client.next event = .ok after) : after.queue.Holds Named := by
  obtain ⟨env, call⟩ := event
  obtain ⟨outcome, ran, rfl⟩ := next_eq_ok stepped
  cases call with
  | mknod path mode rdev => exact mknod named fits (ofHandled_eq_ok ran).1
  | mkdir path mode =>
    rcases xmpMkdir_eq_ok (ofHandled_eq_ok ran).1 with ⟨-, same⟩ | ⟨fs, queue, -, queued, -, same⟩
    · exact same ▸ named
    · have ready := enqueue named queued rfl fits (by simp)
      exact same ▸ ready
  | unlink path => exact unlink named fits.1 fits.2 (ofHandled_eq_ok ran).1
  | rmdir path =>
    obtain ⟨version, queue, -, queued, outcome⟩ := xmpRmdir_eq_ok (ofHandled_eq_ok ran).1
    have ready := enqueue named queued rfl fits (by simp)
    rcases outcome with ⟨-, same⟩ | ⟨fs, -, -, same⟩
    · exact same ▸ ready
    · exact same ▸ ready
  | rename source target => exact rename named fits.1 fits.2 (ofHandled_eq_ok ran).1
  | link source target => exact link named fits.1 (ofHandled_eq_ok ran).1
  | chmod path mode | chown path uid gid | utimens path accessed modified =>
    obtain ⟨queue, queued, outcome⟩ := xmpSetattr_eq_ok (ofHandled_eq_ok ran).1
    have ready := enqueue named queued rfl fits (by simp)
    rcases outcome with ⟨-, same⟩ | ⟨fs, -, -, same⟩
    · exact same ▸ ready
    · exact same ▸ ready
  | truncate path size =>
    obtain ⟨synced, syncing, ⟨-, same⟩ | ⟨fs, -, -, same⟩⟩ := xmpTruncate_eq_ok (ofHandled_eq_ok ran).1
    · exact same ▸ truncateSync named fits syncing
    · have ready := truncateSync named fits syncing
      exact same ▸ ready
  | write path offset data =>
    obtain ⟨synced, syncing, ⟨-, same⟩ | ⟨fs, -, -, -, same⟩⟩ := xmpWrite_eq_ok (ofHandled_eq_ok ran).1
    · exact same ▸ writeSync named fits syncing
    · have ready := writeSync named fits syncing
      exact same ▸ ready
  | syncExecute =>
    rcases SyncQueue.Holds.syncExecute (step_syncExecute ran).1 named (packKeeps env _) with
      ⟨-, same⟩ | ⟨-, sn, -, holds⟩
    · exact same ▸ named
    · exact holds.imp fun _ good other member => good other (List.mem_cons_of_mem _ member)
  | relDequeue =>
    obtain rfl := Except.ok.inj ran
    exact named

end Named

end DeltaCFS
