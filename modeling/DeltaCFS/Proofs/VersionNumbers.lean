import DeltaCFS.Proofs.Client.Nodes
import DeltaCFS.Proofs.Delivery

/-! # Version numbers

A new version is one more than the counter, and its node goes behind all others, so the versions of
the nodes in the queue, behind those of the messages sent before, increase. This needs a counter
that neither runs over its mask nor is reset by `initial` once something has been sent.
-/

namespace DeltaCFS

variable {env : Env} {client after : Client} {path source target : Path} {res : ℤ}
  {past nodes : List SyncNode} {limit : ℕ}

/-- The first counter value that the mask of `INCREASE_RECFS_CNT` cuts. -/
def counterBound : ℕ := 2 ^ 33

theorem newVersion_toNat (bound : client.recfsCnt.toNat + 1 < counterBound) :
    client.newVersion.toNat = client.recfsCnt.toNat + 1 := by
  simp only [counterBound] at bound
  have count : (client.recfsCnt + 1).toNat = client.recfsCnt.toNat + 1 := by
    rw [UInt64.toNat_add]
    simp
    omega
  have mask : clientId.toNat = 2 ^ 33 - 1 := by decide
  rw [Client.newVersion, UInt64.toNat_and, count, mask, Nat.and_two_pow_sub_one_eq_mod, Nat.mod_eq_of_lt bound]

theorem recfsCnt_toNat (bound : client.recfsCnt.toNat + 1 < counterBound) :
    (client.recfsCnt + 1).toNat = client.recfsCnt.toNat + 1 := by
  simp only [counterBound] at bound
  rw [UInt64.toNat_add]
  simp
  omega

/-- The calls that may take a new version. -/
def Call.counts : Call → Bool
  | .mknod .. | .mkdir .. | .unlink .. | .rename .. | .link .. | .truncate .. | .write .. => true
  | _ => false

/-- A link gives its message the version a path already has. -/
def Call.isLink : Call → Bool
  | .link _ _ => true
  | _ => false

/-! ## Increasing versions -/

/-- The new versions of the nodes that carry one. -/
def versions (nodes : List SyncNode) : List ℕ := nodes.filterMap fun sn => sn.newVersion?.map UInt64.toNat

/-- The versions of what has been sent and of what is in the queue increase up to the limit. -/
structure Ranked (past : List SyncNode) (limit : ℕ) (nodes : List SyncNode) : Prop where
  increases : (versions (past ++ nodes)).Pairwise (· < ·)
  bounds : ∀ version ∈ versions (past ++ nodes), 1 < version ∧ version ≤ limit

namespace Ranked

theorem mono {limit' : ℕ} (ranked : Ranked past limit nodes) (more : limit ≤ limit') :
    Ranked past limit' nodes := by
  refine ⟨ranked.increases, fun version member => ?_⟩
  obtain ⟨above, below⟩ := ranked.bounds version member
  exact ⟨above, below.trans more⟩

theorem sublist {past' nodes' : List SyncNode} (ranked : Ranked past limit nodes)
    (fewer : (versions (past' ++ nodes')).Sublist (versions (past ++ nodes))) : Ranked past' limit nodes' :=
  ⟨ranked.increases.sublist fewer, fun version member => ranked.bounds version (fewer.subset member)⟩

/-- A node keeps its place with the version it has, or without. -/
theorem replace {before rest : List SyncNode} {sn sn' : SyncNode} (ranked : Ranked past limit (before ++ sn :: rest))
    (same : sn'.newVersion? = sn.newVersion? ∨ sn'.newVersion? = none) :
    Ranked past limit (before ++ sn' :: rest) := by
  refine ranked.sublist ?_
  simp only [versions, List.filterMap_append]
  refine (List.Sublist.refl _).append ((List.Sublist.refl _).append ?_)
  rcases same with same | none
  · simp [List.filterMap_cons, same]
  · simp only [List.filterMap_cons, none, Option.map_none]
    split
    · exact List.Sublist.refl _
    · exact List.sublist_cons_self _ _

/-- A node without a version is of no account. -/
theorem unversioned {sn : SyncNode} (ranked : Ranked past limit nodes) (none : sn.newVersion? = none) :
    Ranked past limit (nodes ++ [sn]) := by
  refine ranked.sublist ?_
  simp [versions, List.filterMap_append, none]

/-- The version above the limit goes to the end. -/
theorem fresh {sn : SyncNode} (ranked : Ranked past limit nodes) (versioned : sn.newVersion? = some sn.time)
    (above : sn.time.toNat = limit + 1) (positive : 0 < limit) : Ranked past (limit + 1) (nodes ++ [sn]) := by
  have all : versions (past ++ (nodes ++ [sn])) = versions (past ++ nodes) ++ [limit + 1] := by
    simp [versions, List.filterMap_append, versioned, above]
  constructor
  · rw [all, List.pairwise_append]
    refine ⟨ranked.increases, List.pairwise_singleton _ _, fun version member last inside => ?_⟩
    rw [List.mem_singleton.mp inside]
    exact Nat.lt_succ_of_le (ranked.bounds version member).2
  · intro version member
    rw [all, List.mem_append, List.mem_singleton] at member
    rcases member with old | rfl
    · exact ⟨(ranked.bounds version old).1, Nat.le_succ_of_le (ranked.bounds version old).2⟩
    · exact ⟨by omega, le_rfl⟩

/-- Packing keeps a node's version. -/
theorem packKeeps (env : Env) (client : Client) : PackKeeps env client (Ranked past limit) := by
  intro state after slot before rest _ _ pending one ranked
  refine ranked.replace (.inl ?_)
  obtain ⟨-, -, -, ⟨sn, changed, -, -, time, op⟩, -⟩ := one.frame
  have here : after.node slot = sn := by
    simp [Client.node, changed, SyncQueue.modifyNode, RingBuffer.modify_node]
  rw [here]
  rcases pending.op_cases with newfile | write <;> rcases op with op | op <;>
    simp [SyncNode.newVersion?, *]

end Ranked

/-! ## The handlers -/

/-- The versions increase up to the counter. -/
structure Numbered (past : List SyncNode) (client : Client) : Prop where
  queue : client.queue.Holds (Ranked past client.recfsCnt.toNat)
  positive : 0 < client.recfsCnt.toNat

/-- Only the counter and the queue matter. -/
theorem Numbered.congr (numbered : Numbered past client) (queue : after.queue = client.queue)
    (count : after.recfsCnt = client.recfsCnt) : Numbered past after :=
  ⟨by rw [queue, count]; exact numbered.queue, count ▸ numbered.positive⟩

namespace Numbered

variable {queue queue' : SyncQueue}

/-- A node that carries no version. -/
private theorem enqueuePlain {op : Op} {src dst : Path} {para : Option (Fin 5 → UInt64)}
    {bn : Option (List BufInfo)} {localtime baseVersion : UInt64} (holds : queue.Holds (Ranked past limit))
    (enqueued : syncEnqueue op src dst para bn none localtime baseVersion queue = .ok queue')
    (plain : op.isBuffered = false)
    (unversioned : ∀ old : SyncNode,
      (old.enqueued op src dst para bn none localtime baseVersion).newVersion? = none) :
    queue'.Holds (Ranked past limit) :=
  holds.enqueue enqueued (fun buffered => absurd buffered (by simp [plain])) fun _ old ranked =>
    ranked.unversioned (unversioned old)

/-- A node with a version above all others. -/
private theorem enqueueFresh {op : Op} {src dst : Path} {para : Option (Fin 5 → UInt64)}
    {bn : Option (List BufInfo)} {localtime baseVersion : UInt64} (holds : queue.Holds (Ranked past limit))
    (enqueued : syncEnqueue op src dst para bn none localtime baseVersion queue = .ok queue')
    (first : op.isBuffered = true → ∀ sh ∈ queue.shs, sh.path ≠ src)
    (versioned : ∀ old : SyncNode,
      (old.enqueued op src dst para bn none localtime baseVersion).newVersion? = some localtime)
    (above : localtime.toNat = limit + 1) (positive : 0 < limit) : queue'.Holds (Ranked past (limit + 1)) :=
  holds.enqueue enqueued first fun _ old ranked => ranked.fresh (versioned old) above positive

theorem mknod {mode rdev : ℕ} (numbered : Numbered past client)
    (bound : client.recfsCnt.toNat + 1 < counterBound)
    (handled : xmpMknod env path mode rdev client = .ok (res, after)) : Numbered past after := by
  obtain ⟨stored, rfl, outcome⟩ := xmpMknod_eq_ok handled
  have count := recfsCnt_toNat bound
  rcases outcome with ⟨-, rfl⟩ | ⟨fs, packed, queue, -, packing, queued, -, rfl⟩
  · exact ⟨numbered.queue.imp fun _ ranked => ranked.mono (by simp [count]), by simp [count]⟩
  · obtain ⟨-, -, kept⟩ := syncPackWritePath_frame packing numbered.queue.tidy
    obtain ⟨holds, none⟩ := SyncQueue.Holds.packPath packing numbered.queue (Ranked.packKeeps env _)
    have last := enqueueFresh holds queued (fun _ => none) (fun _ => rfl) (newVersion_toNat bound) numbered.positive
    refine ⟨?_, ?_⟩
    · rw [show packed.recfsCnt.toNat = client.recfsCnt.toNat + 1 by rw [kept, count]]
      exact last
    · simp only [kept, count]
      omega

theorem unlink (numbered : Numbered past client) (bound : client.recfsCnt.toNat + 1 < counterBound)
    (handled : xmpUnlink env path client = .ok (res, after)) : Numbered past after := by
  obtain ⟨version, packed, rel, -, packing, rfl, outcome⟩ := xmpUnlink_eq_ok handled
  obtain ⟨-, -, kept⟩ := syncPackWritePath_frame packing numbered.queue.tidy
  obtain ⟨holds, -⟩ := SyncQueue.Holds.packPath packing numbered.queue (Ranked.packKeeps env _)
  rw [← kept] at bound holds
  have positive : 0 < packed.recfsCnt.toNat := kept ▸ numbered.positive
  have count := recfsCnt_toNat bound
  rcases outcome with ⟨-, rfl⟩ | ⟨fs, queue, related, -, queued, -, -, rfl⟩
  · exact ⟨holds, positive⟩
  · have last := enqueueFresh holds queued (by simp [Op.isBuffered]) (fun _ => rfl) (newVersion_toNat bound) positive
    exact ⟨by simpa only [count] using last, by simp [count]⟩

theorem rename (numbered : Numbered past client) (bound : client.recfsCnt.toNat + 1 < counterBound)
    (handled : xmpRename env source target client = .ok (res, after)) : Numbered past after := by
  obtain ⟨version, synced, rel, -, syncing, -, outcome⟩ := xmpRename_eq_ok handled
  have above := newVersion_toNat bound
  obtain ⟨holds, -, kept, -⟩ := SyncQueue.Holds.renameSync syncing numbered.queue (Ranked.packKeeps env _)
    (Ranked.packKeeps env _) (fun nodes old ranked => ranked.unversioned rfl)
    (fun _ => id) (fun _ _ _ _ _ ranked => ranked.replace (.inl rfl))
    (fun nodes old ranked => ranked.fresh rfl above numbered.positive)
    (fun nodes old deltaFile para base _ ranked => ranked.fresh rfl above numbered.positive)
  have count : synced.recfsCnt.toNat = client.recfsCnt.toNat + 1 := by rw [kept, recfsCnt_toNat bound]
  have ready : Numbered past synced := ⟨by rw [count]; exact holds, by omega⟩
  rcases outcome with ⟨-, rfl⟩ | ⟨fs, -, -, rfl⟩
  · exact ready.congr rfl rfl
  · exact ready.congr rfl rfl

theorem setattr {op : Op} {para : List UInt64} (numbered : Numbered past client)
    (handled : xmpSetattr env op path para client = .ok (res, after)) (plain : op.isBuffered = false)
    (unversioned : ∀ old : SyncNode,
      (old.enqueued op path [] (some (paraOf para)) none none 0 0).newVersion? = none) : Numbered past after := by
  obtain ⟨queue, queued, outcome⟩ := xmpSetattr_eq_ok handled
  have ready : Numbered past { client with queue := queue } :=
    ⟨enqueuePlain numbered.queue queued plain unversioned, numbered.positive⟩
  rcases outcome with ⟨-, rfl⟩ | ⟨fs, -, -, rfl⟩
  · exact ready
  · exact ready.congr rfl rfl

theorem truncateSync {size : ℕ} (numbered : Numbered past client)
    (bound : client.recfsCnt.toNat + 1 < counterBound) (synced : truncateSync path size client = .ok after) :
    Numbered past after := by
  rcases truncateSync_eq_ok synced with
    ⟨-, rfl⟩ | ⟨-, sh, hit, rfl⟩ | ⟨-, -, version, queue, -, queued, rfl⟩
  · refine ⟨numbered.queue.syncDeleteWrite path fun _ sn _ _ _ ranked => ranked.replace ?_, numbered.positive⟩
    simp only [SyncNode.deleteWrite]
    split
    · exact .inr rfl
    · exact .inl rfl
  · refine ⟨numbered.queue.appended path _ hit fun _ sn _ _ _ ranked => ranked.replace (.inl ?_), numbered.positive⟩
    obtain ⟨op, -, -, time, -⟩ := sn.appended_fields (truncateRecord size)
    simp only [SyncNode.newVersion?, op, time]
  · have last := enqueueFresh (numbered.queue.syncFind path) queued (by simp [Op.isBuffered]) (fun _ => rfl)
      (newVersion_toNat bound) numbered.positive
    exact ⟨by simpa only [recfsCnt_toNat bound] using last, by simp [recfsCnt_toNat bound]⟩

theorem writeSync {offset : ℕ} {data : Bytes} (numbered : Numbered past client)
    (bound : client.recfsCnt.toNat + 1 < counterBound) (synced : writeSync env path offset data client = .ok after) :
    Numbered past after := by
  rcases writeSync_eq_ok synced with ⟨sh, hit, rfl⟩ | ⟨miss, version, queue, -, queued, rfl⟩
  · refine ⟨numbered.queue.appended path _ hit fun _ sn _ _ _ ranked => ranked.replace (.inl ?_), numbered.positive⟩
    obtain ⟨op, -, -, time, -⟩ := sn.appended_fields (writeRecord env path offset data client)
    simp only [SyncNode.newVersion?, op, time]
  · have none : ∀ sh ∈ (syncFind path client.queue).2.shs, sh.path ≠ path := by
      rw [(numbered.queue.tidy.syncFind path).2.1]
      exact numbered.queue.tidy.not_found miss
    have last := enqueueFresh (numbered.queue.syncFind path) queued (fun _ => none) (fun _ => rfl)
      (newVersion_toNat bound) numbered.positive
    exact ⟨by simpa only [recfsCnt_toNat bound] using last, by simp [recfsCnt_toNat bound]⟩

/-- A call other than a link: the node it hands out comes before those that stay. -/
theorem step {call : Call} {outcome : Outcome} (numbered : Numbered past client)
    (notLink : call.isLink = false) (bound : call.counts = true → client.recfsCnt.toNat + 1 < counterBound)
    (ran : client.step env call = .ok outcome) : Numbered (past ++ outcome.sent.toList) outcome.client := by
  cases call with
  | link source target => exact absurd notLink (by simp [Call.isLink])
  | syncExecute =>
    rcases SyncQueue.Holds.syncExecute (step_syncExecute ran).1 numbered.queue (Ranked.packKeeps env _) with
      ⟨none, same⟩ | ⟨⟨-, -, count⟩, sn, sends, holds⟩
    · simpa only [none, same, Option.toList_none, List.append_nil] using numbered
    · refine ⟨count ▸ holds.imp fun rest ranked => ranked.sublist ?_, count ▸ numbered.positive⟩
      rw [sends, List.append_assoc]
      refine List.Sublist.filterMap _ ((List.Sublist.refl past).append ?_)
      split
      · exact List.sublist_cons_self sn rest
      · exact List.Sublist.refl _
  | relDequeue =>
    obtain rfl := Except.ok.inj ran
    have ready : Numbered past { client with rel := relDequeue client.rel } := numbered.congr rfl rfl
    simpa using ready
  | mkdir path mode =>
    obtain ⟨handled, none⟩ := ofHandled_eq_ok ran
    rw [none, Option.toList_none, List.append_nil]
    rcases xmpMkdir_eq_ok handled with ⟨-, same⟩ | ⟨fs, queue, -, queued, -, same⟩
    · exact same ▸ numbered
    · have count := recfsCnt_toNat (bound rfl)
      have ready := enqueuePlain numbered.queue queued rfl fun _ => rfl
      rw [same]
      exact ⟨ready.imp fun _ ranked => ranked.mono (by simp [count]), by simp [count]⟩
  | rmdir path =>
    obtain ⟨handled, none⟩ := ofHandled_eq_ok ran
    rw [none, Option.toList_none, List.append_nil]
    obtain ⟨version, queue, -, queued, outcome⟩ := xmpRmdir_eq_ok handled
    have ready : Numbered past { client with queue := queue } :=
      ⟨enqueuePlain numbered.queue queued rfl fun _ => rfl, numbered.positive⟩
    rcases outcome with ⟨-, same⟩ | ⟨fs, -, -, same⟩
    · exact same ▸ ready
    · exact same ▸ ready.congr rfl rfl
  | mknod path mode rdev =>
    obtain ⟨handled, none⟩ := ofHandled_eq_ok ran
    simpa [none] using numbered.mknod (bound rfl) handled
  | unlink path =>
    obtain ⟨handled, none⟩ := ofHandled_eq_ok ran
    simpa [none] using numbered.unlink (bound rfl) handled
  | rename source target =>
    obtain ⟨handled, none⟩ := ofHandled_eq_ok ran
    simpa [none] using numbered.rename (bound rfl) handled
  | chmod path mode =>
    obtain ⟨handled, none⟩ := ofHandled_eq_ok ran
    simpa [none] using numbered.setattr handled rfl fun _ => rfl
  | chown path uid gid =>
    obtain ⟨handled, none⟩ := ofHandled_eq_ok ran
    simpa [none] using numbered.setattr handled rfl fun _ => rfl
  | utimens path accessed modified =>
    obtain ⟨handled, none⟩ := ofHandled_eq_ok ran
    simpa [none] using numbered.setattr handled rfl fun _ => rfl
  | truncate path size =>
    obtain ⟨handled, none⟩ := ofHandled_eq_ok ran
    rw [none, Option.toList_none, List.append_nil]
    obtain ⟨synced, syncing, outcome⟩ := xmpTruncate_eq_ok handled
    have ready := numbered.truncateSync (bound rfl) syncing
    rcases outcome with ⟨-, same⟩ | ⟨fs, -, -, same⟩
    · exact same ▸ ready
    · exact same ▸ ready.congr rfl rfl
  | write path offset data =>
    obtain ⟨handled, none⟩ := ofHandled_eq_ok ran
    rw [none, Option.toList_none, List.append_nil]
    obtain ⟨synced, syncing, outcome⟩ := xmpWrite_eq_ok handled
    have ready := numbered.writeSync (bound rfl) syncing
    rcases outcome with ⟨-, same⟩ | ⟨fs, -, -, -, same⟩
    · exact same ▸ ready
    · exact same ▸ ready.congr rfl rfl

end Numbered

/-! ## Runs -/

/-- No call is a link, a call that takes a version finds a counter below the mask, and `initial` runs again only as long as
no message with a new version has been sent. -/
def KeepsVersions (event : SystemEvent) (system : System) : Prop :=
  match event with
  | .call event _ => event.call.isLink = false ∧
    (event.call.counts = true → system.client.recfsCnt.toNat + 1 < counterBound)
  | .restart _ => ∀ sn ∈ system.sent, sn.newVersion? = none

instance : ∀ event system, Decidable (KeepsVersions event system)
  | .call _ _, _ => inferInstanceAs (Decidable (_ ∧ _))
  | .restart _, _ => inferInstanceAs (Decidable (∀ sn ∈ _, _))

/-- The versions of messages and nodes increase, and the server holds files of versions it was sent. -/
structure Assigned (system : System) : Prop where
  numbered : Numbered system.sent system.client
  held : ∀ name, (system.dir name).isSome → ∃ sn ∈ system.sent, ∃ version, sn.newVersion? = some version ∧
    name = verToName version

namespace Assigned

variable {system next : System}

/-- The node that is sent next has a version above those of all messages before. -/
theorem unsent {past : List SyncNode} {sn : SyncNode} {version : UInt64} (numbered : Numbered (past ++ [sn]) client)
    (versioned : sn.newVersion? = some version) : ∀ other ∈ past, other.newVersion? ≠ some version := by
  intro other member same
  obtain ⟨-, nodes, -, ranked⟩ := numbered.queue
  have increases := ranked.increases
  simp only [versions, List.append_assoc, List.singleton_append, List.filterMap_append, List.pairwise_append] at increases
  have less := increases.2.2 version.toNat (List.mem_filterMap.mpr ⟨other, member, by simp [same]⟩)
    version.toNat (List.mem_filterMap.mpr ⟨sn, List.mem_cons_self, by simp [versioned]⟩)
  omega

/-- What one event does: the messages grow by at most one, whose version the server does not hold. -/
theorem event {event : SystemEvent} (assigned : Assigned system) (keeps : KeepsVersions event system)
    (stepped : system.next event = .ok next) : Assigned next ∧
      ∀ sn version, next.sent = system.sent ++ [sn] → sn.newVersion? = some version →
        system.dir (verToName version) = none := by
  cases event with
  | restart memory =>
    obtain rfl := Except.ok.inj stepped
    have none : versions (system.sent ++ []) = [] := by
      rw [List.append_nil]
      exact List.filterMap_eq_nil_iff.mpr fun sn member => by simp [keeps sn member]
    have ranked : Ranked system.sent 1 [] := ⟨none ▸ .nil, fun _ member => absurd (none ▸ member) List.not_mem_nil⟩
    refine ⟨⟨⟨.initial _ _ ranked, Nat.one_pos⟩, assigned.held⟩, fun sn version longer => ?_⟩
    exact absurd (congrArg List.length longer) (by simp)
  | call event server =>
    simp only [System.next] at stepped
    split at stepped
    · exact absurd stepped (by simp)
    · next outcome ran =>
      have numbered := assigned.numbered.step keeps.1 keeps.2 ran
      split at stepped
      · next nothing =>
        obtain rfl := Except.ok.inj stepped
        refine ⟨⟨by simpa [nothing] using numbered, assigned.held⟩, fun sn version longer => ?_⟩
        exact absurd (congrArg List.length longer) (by simp)
      · next sn sends =>
        rw [sends, Option.toList_some] at numbered
        simp only [System.deliver] at stepped
        split at stepped
        · exact absurd stepped (by simp)
        · obtain rfl := Except.ok.inj stepped
          refine ⟨⟨⟨numbered.queue.imp fun nodes ranked => ranked.sublist ?_, numbered.positive⟩, assigned.held⟩,
            fun sn version longer => absurd (congrArg List.length longer) (by simp)⟩
          exact List.Sublist.filterMap _ ((List.sublist_append_left _ _).append (List.Sublist.refl _))
        · next message transmitted =>
          split at stepped
          · exact absurd stepped (by simp)
          · next reply served =>
            obtain rfl := Except.ok.inj stepped
            refine ⟨⟨numbered, fun name holds => ?_⟩, fun other version longer versioned => ?_⟩
            · have old : (system.dir name).isSome → ∃ other ∈ system.sent ++ [sn], ∃ version,
                  other.newVersion? = some version ∧ name = verToName version := by
                intro held
                obtain ⟨other, member, version, versioned, named⟩ := assigned.held name held
                exact ⟨other, List.mem_append_left _ member, version, versioned, named⟩
              rcases serve_delivers (syncSend_transmits transmitted) served with
                ⟨-, same⟩ | ⟨versioned, delivers⟩
              · exact old (same ▸ holds)
              · rcases delivers.only name holds with held | named
                · exact old held
                · exact ⟨sn, by simp, sn.time, versioned, named⟩
            · obtain rfl : sn = other := by simpa using longer
              by_contra held
              obtain ⟨old, member, version', versioned', named⟩ :=
                assigned.held _ (Option.isSome_iff_ne_none.mpr held)
              exact unsent numbered versioned old member (verToName_injective named ▸ versioned')

theorem initial (memory : Memory) (dirSize : Path → ℕ) : Assigned (System.initial memory dirSize) :=
  ⟨⟨.initial _ _ ⟨.nil, by simp [versions, System.initial]⟩, Nat.one_pos⟩, by simp [System.initial]⟩

end Assigned

/-- Along every run that keeps to the counter, the messages carry different new versions, none of
which is 0, and the next message is for a version the server has no file of. -/
theorem versions_assigned_once (memory : Memory) (dirSize : Path → ℕ) (system : System)
    (run : Transition.Run System.next KeepsVersions (System.initial memory dirSize) system) :
    (system.sent.filterMap SyncNode.newVersion?).Nodup ∧
      (∀ version ∈ system.sent.filterMap SyncNode.newVersion?, version ≠ 0) ∧
      ∀ event next sn version, KeepsVersions event system → system.next event = .ok next →
        next.sent = system.sent ++ [sn] → sn.newVersion? = some version →
        system.dir (verToName version) = none := by
  have assigned : Assigned system :=
    run.invariant Assigned (fun kept keeps stepped => (kept.event keeps stepped).1) (.initial memory dirSize)
  obtain ⟨-, nodes, -, ranked⟩ := assigned.numbered.queue
  have sent : versions (system.sent ++ nodes) =
      (system.sent.filterMap SyncNode.newVersion?).map UInt64.toNat ++ versions nodes := by
    simp [versions, List.filterMap_append, List.map_filterMap]
  have increases := ranked.increases
  rw [sent, List.pairwise_append] at increases
  refine ⟨List.Nodup.of_map _ (increases.1.imp fun less => Nat.ne_of_lt less), fun version member zero => ?_,
    fun event next sn version keeps stepped longer => (assigned.event keeps stepped).2 sn version longer⟩
  have above := (ranked.bounds version.toNat (sent ▸ List.mem_append_left _ (List.mem_map_of_mem member))).1
  simp [zero] at above

/-- `initial` runs again while nothing has been sent, then a file is created, sent, renamed and the
rename sent. -/
def restartedEarly : List SystemEvent :=
  [.plain (.mknod [47, 97] 33188 0), .restart ⟨fun _ => default, fun _ => default, []⟩,
    .plain (.mknod [47, 98] 33188 0), .plain (.write [47, 98] 0 [7]), .plain .syncExecute,
    .plain (.rename [47, 98] [47, 99]), .plain .syncExecute]

theorem versions_assigned_once_early_restart :
    ∃ system, Transition.replay System.next restartedEarly System.empty = .ok system ∧
      system.sent.filterMap SyncNode.newVersion? = [2, 3] ∧
      (system.sent.filterMap SyncNode.newVersion?).Nodup := by
  have replayed : ∃ system, Transition.replay System.next restartedEarly System.empty = .ok system ∧
      system.sent.filterMap SyncNode.newVersion? = [2, 3] := Except.exists_ok (by decide +kernel)
  obtain ⟨system, replayed, sent⟩ := replayed
  have allowed : Transition.AllAllowed System.next KeepsVersions restartedEarly System.empty := by decide +kernel
  have run := Transition.Run.of_replay restartedEarly allowed replayed
  exact ⟨system, replayed, sent, (versions_assigned_once _ _ system run).1⟩

/-- A file is created, written and sent before `initial` runs again, and another file is created. -/
def restartedLate : List SystemEvent :=
  [.plain (.mknod [47, 97] 33188 0), .plain (.write [47, 97] 0 [7]), .plain .syncExecute,
    .restart ⟨fun _ => default, fun _ => default, []⟩, .plain (.mknod [47, 98] 33188 0)]

/-- The node of the second file is sent under the version of the first and overwrites it. -/
theorem restart_reuses_version :
    ∃ before after, Transition.replay System.next restartedLate System.empty = .ok before ∧
      before.next (.plain .syncExecute) = .ok after ∧
      after.sent.filterMap SyncNode.newVersion? = [2, 2] ∧
      before.dir (verToName 2) = some [7] ∧ after.dir (verToName 2) = some [] := by
  have replayed : ∃ before, Transition.replay System.next restartedLate System.empty = .ok before ∧
      (before.dir (verToName 2) = some [7] ∧
        (before.next (.plain .syncExecute)).passes (fun after =>
          after.sent.filterMap SyncNode.newVersion? = [2, 2] ∧ after.dir (verToName 2) = some []) = true) :=
    Except.exists_ok (by decide +kernel)
  obtain ⟨before, replayed, held, sends⟩ := replayed
  obtain ⟨after, stepped, reused, overwritten⟩ := Except.exists_ok sends
  exact ⟨before, after, replayed, stepped, reused, held, overwritten⟩

end DeltaCFS
