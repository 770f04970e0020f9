import DeltaCFS.Proofs.PendingWrites
import DeltaCFS.Proofs.VersionContent
import DeltaCFS.ToMathlib.Supply

/-! # The chain of versions

A message that names a base is queued when the base is the version of a path, and that version has
been sent or will be sent before. The nodes of the queue are a supplied list: each finds its base
among the versions the server holds and those that the nodes before it make. Dropping a pending node
is harmless as long as its version leaves the LevelDB with it; `xmp_truncate` to size 0 keeps it there.
-/

namespace DeltaCFS

variable {env : Env} {client after : Client} {path source target : Path} {res : ℤ} {nodes before rest : List SyncNode}
  {held held' : Set UInt64} {rel rel' : RelTable} {db db' : Path → Option UInt64} {limit : ℕ} {sn sn' : SyncNode}

/-! ## Nodes -/

/-- What the message of a node needs at the server, takes away there and makes there. -/
def versionSupply : Supply SyncNode UInt64 where
  needs sn := {version | sn.isDelete = false ∧
    (sn.op = .rename ∨ sn.op = .write ∨ sn.op = .truncate ∨ sn.op = .delta) ∧ sn.baseVer = version}
  takes sn := {version | sn.isDelete = false ∧ (sn.op = .rename ∨ sn.op = .write) ∧ sn.baseVer = version}
  gives sn := {version | sn.isDelete = false ∧ sn.newVersion? = some version}

/-- The nodes of the queue, with the versions the server holds: every base is supplied, the versions
of paths arrive, and nothing depends on a pending node but its own path. -/
structure Chain (held : Set UInt64) (rel : RelTable) (db : Path → Option UInt64) (limit : ℕ)
    (nodes : List SyncNode) : Prop where
  supplied : versionSupply.Supplied held nodes
  current : ∀ path version, db path = some version → version ∈ versionSupply.stock held nodes
  bound : ∀ version ∈ held, version.toNat ≤ limit
  ranked : Ranked [] limit nodes
  bases : OwnBases rel limit nodes
  own : ∀ sn ∈ nodes, sn.Pending → ∀ path, db path = some sn.time → path = sn.src
  unused : ∀ sn ∈ nodes, sn.Pending → ∀ other ∈ nodes, sn.time ∉ versionSupply.needs other
  older : ∀ sn ∈ nodes, sn.Pending → ∀ dst time, rel.Related sn.src dst time → time.toNat < sn.time.toNat

theorem SyncNode.Pending.newVersion? (pending : sn.Pending) : sn.newVersion? = some sn.time := by
  rcases pending.op_cases with newfile | write
  · simp [SyncNode.newVersion?, newfile]
  · simp [SyncNode.newVersion?, write]

theorem versionSupply_deleted (deleted : sn.isDelete = true) :
    versionSupply.needs sn = ∅ ∧ versionSupply.takes sn = ∅ := by
  simp [versionSupply, deleted]

namespace Chain

theorem gives_le (chain : Chain held rel db limit nodes) (member : sn ∈ nodes) :
    versionSupply.gives sn ⊆ {version | version.toNat ≤ limit} := by
  rintro version ⟨-, versioned⟩
  refine (chain.ranked.bounds version.toNat ?_).2
  exact List.mem_filterMap.mpr ⟨sn, member, by simp [versioned]⟩

/-- Bases are versions up to the limit. -/
theorem needs_le (chain : Chain held rel db limit nodes) (member : sn ∈ nodes) :
    versionSupply.needs sn ⊆ {version | version.toNat ≤ limit} :=
  chain.supplied.needs_subset chain.bound (fun _ inside => chain.gives_le inside) member

theorem stock_le (chain : Chain held rel db limit nodes) :
    versionSupply.stock held nodes ⊆ {version | version.toNat ≤ limit} :=
  Supply.stock_subset chain.bound fun _ inside => chain.gives_le inside

/-- Paths lose their versions. -/
theorem forget (chain : Chain held rel db limit nodes)
    (fewer : ∀ path version, db' path = some version → db path = some version) : Chain held rel db' limit nodes :=
  { chain with
    current := fun path version known => chain.current path version (fewer path version known)
    own := fun sn member waits path known => chain.own sn member waits path (fewer path _ known) }

/-- Relations go. -/
theorem unrelate (chain : Chain held rel db limit nodes)
    (fewer : ∀ src dst time, rel'.Related src dst time → rel.Related src dst time) : Chain held rel' db limit nodes :=
  { chain with
    bases := chain.bases.forget fewer
    older := fun sn member waits dst time related => chain.older sn member waits dst time (fewer _ _ _ related) }

/-- A node that is rewritten takes less and gives the same. -/
theorem replace (chain : Chain held rel db limit (before ++ sn :: rest))
    (needs : versionSupply.needs sn' ⊆ versionSupply.stock held before)
    (takes : versionSupply.takes sn' ⊆ versionSupply.takes sn)
    (gives : versionSupply.gives sn ⊆ versionSupply.gives sn') (versioned : sn'.newVersion? = sn.newVersion?)
    (base : sn'.op = .write ∨ sn'.op = .delta → sn'.baseVer ≠ sn'.time)
    (pending : sn'.Pending → sn.Pending ∧ sn'.time = sn.time ∧ sn'.src = sn.src)
    (unused : ∀ other ∈ before ++ sn :: rest, other.Pending → other.time ∉ versionSupply.needs sn') :
    Chain held rel db limit (before ++ sn' :: rest) := by
  have cases {other : SyncNode} (member : other ∈ before ++ sn' :: rest) :
      other = sn' ∨ other ∈ before ++ sn :: rest := by
    simp only [List.mem_append, List.mem_cons] at member ⊢
    tauto
  -- a pending node of the new list stands for one of the old list
  have waited {other : SyncNode} (member : other ∈ before ++ sn' :: rest) (waits : other.Pending) :
      ∃ old ∈ before ++ sn :: rest, old.Pending ∧ other.time = old.time ∧ other.src = old.src := by
    rcases cases member with rfl | kept
    · exact ⟨sn, by simp, pending waits⟩
    · exact ⟨other, kept, waits, rfl, rfl⟩
  refine ⟨chain.supplied.replace needs takes gives, fun path version known => ?_, chain.bound,
    chain.ranked.replace (.inl versioned), chain.bases.replace base fun waits => ?_, fun other member waits path => ?_,
    fun other member waits item inside => ?_, fun other member waits dst time => ?_⟩
  · exact Supply.stock_replace takes gives (chain.current path version known)
  · exact ⟨(pending waits).1, (pending waits).2.1⟩
  · obtain ⟨old, kept, waits', time, src⟩ := waited member waits
    rw [time, src]
    exact chain.own old kept waits' path
  · obtain ⟨old, kept, waits', time, -⟩ := waited member waits
    rw [time]
    rcases cases inside with rfl | inside
    · exact unused old kept waits'
    · exact chain.unused old kept waits' item inside
  · obtain ⟨old, kept, waits', time', src⟩ := waited member waits
    rw [time', src]
    exact chain.older old kept waits' dst time

/-- A node that is rewritten keeps what matters here. -/
theorem congr (chain : Chain held rel db limit (before ++ sn :: rest)) (op : sn'.op = sn.op) (src : sn'.src = sn.src)
    (time : sn'.time = sn.time) (base : sn'.baseVer = sn.baseVer) (alive : sn'.isDelete = sn.isDelete)
    (pending : sn'.Pending → sn.Pending) : Chain held rel db limit (before ++ sn' :: rest) := by
  have needs : versionSupply.needs sn' = versionSupply.needs sn := by simp [versionSupply, op, base, alive]
  obtain ⟨-, found, -⟩ := Supply.Supplied.append_iff.mp chain.supplied
  refine chain.replace (needs ▸ found) ?_ ?_ ?_ (fun kind => ?_) (fun waits => ⟨pending waits, time, src⟩)
    fun other member waits => ?_
  · simp [versionSupply, op, base, alive]
  · simp [versionSupply, SyncNode.newVersion?, op, time, alive]
  · simp [SyncNode.newVersion?, op, time]
  · rw [op] at kind
    rw [base, time]
    exact chain.bases.base sn (by simp) kind
  · rw [needs]
    exact chain.unused other member waits sn (by simp)

/-- A pending node is dropped whose version is that of no path. -/
theorem drop (chain : Chain held rel db limit (before ++ sn :: rest)) (waits : sn.Pending)
    (gone : db sn.src ≠ some sn.time) : Chain held rel db limit (before ++ { sn with isDelete := true } :: rest) := by
  obtain ⟨needs, takes⟩ := @versionSupply_deleted { sn with isDelete := true } rfl
  have gives : versionSupply.gives sn ⊆ {sn.time} := by
    rintro version ⟨-, versioned⟩
    exact (Option.some.inj (waits.newVersion?.symm.trans versioned)).symm
  have old {other : SyncNode} (member : other ∈ before ++ { sn with isDelete := true } :: rest) (pends : other.Pending) :
      other ∈ before ++ sn :: rest := by
    simp only [List.mem_append, List.mem_cons] at member ⊢
    rcases member with inside | rfl | inside
    · exact .inl inside
    · exact absurd pends (SyncNode.not_pending_of_deleted rfl)
    · exact .inr (.inr inside)
  refine ⟨chain.supplied.drop needs takes gives fun other member => ?_, fun path version known => ?_, chain.bound,
    chain.ranked.replace (.inl rfl), chain.bases.replace (fun kind => chain.bases.base sn (by simp) kind) fun pends => ?_,
    fun other member pends => chain.own other (old member pends) pends, fun other member pends item inside => ?_,
    fun other member pends => chain.older other (old member pends) pends⟩
  · exact chain.unused sn (by simp) waits other (by simp [member])
  · refine Supply.mem_stock_drop takes gives (chain.current path version known) ?_
    rintro rfl
    obtain rfl := chain.own sn (by simp) waits path known
    exact gone known
  · exact absurd pends (SyncNode.not_pending_of_deleted rfl)
  · simp only [List.mem_append, List.mem_cons] at inside
    rcases inside with inside | rfl | inside
    · exact chain.unused other (old member pends) pends item (by simp [inside])
    · simp [needs]
    · exact chain.unused other (old member pends) pends item (by simp [inside])

/-- A version below that of a pending node is made before it. -/
theorem stock_before (chain : Chain held rel db limit (before ++ sn :: rest)) (waits : sn.Pending) {version : UInt64}
    (here : version ∈ versionSupply.stock held (before ++ sn :: rest)) (less : version.toNat < sn.time.toNat) :
    version ∈ versionSupply.stock held before := by
  have increases := chain.ranked.increases
  simp only [List.nil_append, versions, List.filterMap_append, List.filterMap_cons, waits.newVersion?, Option.map_some,
    List.pairwise_append, List.pairwise_cons] at increases
  refine Supply.mem_stock_of_not_given here fun item member given => ?_
  obtain ⟨-, versioned⟩ := given
  rcases List.mem_cons.mp member with rfl | member
  · obtain rfl := Option.some.inj (waits.newVersion?.symm.trans versioned)
    exact lt_irrefl _ less
  · have greater := increases.2.1.1 version.toNat (List.mem_filterMap.mpr ⟨item, member, by simp [versioned]⟩)
    omega

/-- Packing turns a new file into a delta to a version that is older than its own. -/
theorem packKeeps (env : Env) (client : Client) (same : client.rel = rel)
    (known : ∀ src dst time, rel.Related src dst time → client.db dst = some time → db dst = some time) :
    PackKeeps env client (Chain held rel db limit) := by
  intro state after slot before rest sameDb sameRel waits one chain
  have settled {sn : SyncNode} (packed : sn.isPacked = true) (pends : sn.Pending) :
      (state.node slot).Pending ∧ sn.time = (state.node slot).time ∧ sn.src = (state.node slot).src :=
    absurd pends (SyncNode.not_pending_of_packed packed)
  have alive := waits.2.2
  obtain ⟨-, found, -⟩ := Supply.Supplied.append_iff.mp chain.supplied
  rcases one.node_cases with unchanged | ⟨newfile, content, packed⟩ | ⟨newfile, rh, deltaFile, related, version, packed⟩ |
    ⟨write, packed | ⟨deltaFile, packed⟩⟩
  · rwa [unchanged]
  · rw [packed]
    exact chain.congr rfl rfl rfl rfl rfl fun pends => (settled rfl pends).1
  · rw [packed]
    rw [sameRel, same] at related version ⊢
    have facts := RelTable.related_of_relFind related
    have needs : versionSupply.needs ((state.node slot).packedDelta deltaFile (rel.rq.node rh.loc).time 0) ⊆
        {(rel.rq.node rh.loc).time} := by
      rintro _ ⟨-, -, rfl⟩
      rfl
    refine chain.replace (fun base needed => ?_) ?_ ?_ ?_ (fun _ => ?_) (settled rfl) fun other member pends needed => ?_
    · obtain rfl := needs needed
      have arrives := chain.current _ _ (known _ _ _ facts (sameDb ▸ version))
      exact chain.stock_before waits arrives (chain.older _ (by simp) waits _ _ facts)
    · simp [versionSupply, SyncNode.packedDelta]
    · simp [versionSupply, SyncNode.packedDelta, SyncNode.newVersion?, newfile]
    · simp [SyncNode.packedDelta, SyncNode.newVersion?, newfile]
    · exact chain.bases.apart _ (by simp) waits _ _ _ facts
    · exact chain.bases.apart other member pends _ _ _ facts (needs needed).symm
  · rw [packed]
    exact chain.congr write.symm rfl rfl rfl rfl fun pends => (settled rfl pends).1
  · rw [packed]
    have needs : versionSupply.needs ((state.node slot).packedDelta deltaFile (state.node slot).baseVer
        (state.node slot).baseVer) = versionSupply.needs (state.node slot) := by
      simp [versionSupply, SyncNode.packedDelta, write]
    refine chain.replace (needs ▸ found) ?_ ?_ ?_ (fun _ => ?_) (settled rfl) fun other member pends => ?_
    · simp [versionSupply, SyncNode.packedDelta]
    · simp [versionSupply, SyncNode.packedDelta, SyncNode.newVersion?, write]
    · simp [SyncNode.packedDelta, SyncNode.newVersion?, write]
    · exact chain.bases.base (state.node slot) (by simp) (.inl write)
    · rw [needs]
      exact chain.unused other member pends _ (by simp)

/-- A new version goes to the end, with the changes of versions and relations that come with it. -/
theorem append (chain : Chain held rel db limit nodes) (positive : 0 < limit) (alive : sn.isDelete = false)
    (versioned : sn.newVersion? = some sn.time) (above : sn.time.toNat = limit + 1)
    (needs : versionSupply.needs sn ⊆ versionSupply.stock held nodes)
    (free : ∀ other ∈ nodes, other.Pending → other.time ∉ versionSupply.needs sn)
    (versions : ∀ path version, db' path = some version →
      version = sn.time ∨ db path = some version ∧ version ∉ versionSupply.takes sn)
    (relations : ∀ src dst time, rel'.Related src dst time →
      rel.Related src dst time ∨ time = sn.time ∧ Quiet src nodes)
    (pending : sn.Pending → (∀ path, db' path = some sn.time → path = sn.src) ∧
      ∀ src dst time, rel'.Related src dst time → time.toNat ≤ limit) :
    Chain held rel' db' (limit + 1) (nodes ++ [sn]) := by
  have base : ∀ version ∈ versionSupply.needs sn, version.toNat ≤ limit := fun version needed =>
    chain.stock_le (needs needed)
  have cases {other : SyncNode} (member : other ∈ nodes ++ [sn]) : other ∈ nodes ∨ other = sn := by
    simpa using member
  refine ⟨chain.supplied.concat needs, fun path version known => ?_, fun version inside => ?_,
    chain.ranked.fresh versioned above positive, ⟨fun other member kind => ?_, fun other member waits => ?_,
      fun other member waits src dst time related => ?_⟩,
    fun other member waits path known => ?_, fun other member waits item inside => ?_,
    fun other member waits dst time related => ?_⟩
  · rw [Supply.stock_concat]
    rcases versions path version known with rfl | ⟨old, kept⟩
    · exact .inr ⟨alive, versioned⟩
    · exact .inl ⟨chain.current path version old, kept⟩
  · exact (chain.bound version inside).trans (Nat.le_succ limit)
  · rcases cases member with old | rfl
    · exact chain.bases.base other old kind
    · intro same
      have := base other.baseVer ⟨alive, by tauto, rfl⟩
      rw [same] at this
      omega
  · rcases cases member with old | rfl
    · exact (chain.bases.bound other old waits).trans (Nat.le_succ limit)
    · exact above.le
  · rcases cases member with old | rfl
    · rcases relations src dst time related with kept | ⟨rfl, -⟩
      · exact chain.bases.apart other old waits src dst time kept
      · intro same
        have := chain.bases.bound other old waits
        rw [← same] at this
        omega
    · intro same
      have := (pending waits).2 src dst time related
      rw [same] at this
      omega
  · rcases cases member with old | rfl
    · rcases versions path _ known with same | ⟨before, -⟩
      · have := chain.bases.bound other old waits
        rw [same] at this
        omega
      · exact chain.own other old waits path before
    · exact (pending waits).1 path known
  · rcases cases member with old | rfl
    · rcases cases inside with first | rfl
      · exact chain.unused other old waits item first
      · exact free other old waits
    · intro needed
      have low : other.time.toNat ≤ limit := by
        rcases cases inside with first | rfl
        · exact chain.needs_le first needed
        · exact base _ needed
      omega
  · rcases cases member with old | rfl
    · rcases relations _ dst time related with kept | ⟨-, quiet⟩
      · exact chain.older other old waits dst time kept
      · exact absurd rfl (quiet other old waits)
    · have := (pending waits).2 _ dst time related
      omega

/-- A node that needs and makes nothing. -/
theorem plain (chain : Chain held rel db limit nodes) (versioned : sn.newVersion? = none)
    (needs : versionSupply.needs sn = ∅) (settled : ¬ sn.Pending) (op : sn.op ≠ .write ∧ sn.op ≠ .delta) :
    Chain held rel db limit (nodes ++ [sn]) := by
  have takes : versionSupply.takes sn = ∅ := by
    refine Set.eq_empty_of_subset_empty fun version taken => ?_
    rw [← needs]
    exact ⟨taken.1, by have := taken.2.1; tauto, taken.2.2⟩
  have cases {other : SyncNode} (member : other ∈ nodes ++ [sn]) (waits : other.Pending) : other ∈ nodes := by
    rcases List.mem_append.mp member with old | last
    · exact old
    · exact absurd waits (List.mem_singleton.mp last ▸ settled)
  refine ⟨chain.supplied.concat (by simp [needs]), fun path version known => ?_, chain.bound,
    chain.ranked.unversioned versioned, chain.bases.append settled (by tauto),
    fun other member waits => chain.own other (cases member waits) waits, fun other member waits item inside => ?_,
    fun other member waits => chain.older other (cases member waits) waits⟩
  · rw [Supply.stock_concat]
    exact .inl ⟨chain.current path version known, by simp [takes]⟩
  · rcases List.mem_append.mp inside with first | last
    · exact chain.unused other (cases member waits) waits item first
    · rw [List.mem_singleton.mp last, needs]
      exact Set.notMem_empty _

/-- No pending node has the version of a path with nothing pending. -/
theorem free (chain : Chain held rel db limit nodes) {version : UInt64} (known : db path = some version)
    (quiet : Quiet path nodes) (needs : versionSupply.needs sn ⊆ {version}) :
    ∀ other ∈ nodes, other.Pending → other.time ∉ versionSupply.needs sn := by
  intro other member waits needed
  rw [← needs needed] at known
  exact quiet other member waits (chain.own other member waits path known).symm

theorem needs_enqueued (old : SyncNode) (op : Op) (src dst : Path) (para : Option (Fin 5 → UInt64))
    (bn : Option (List BufInfo)) (localtime version : UInt64) :
    versionSupply.needs (old.enqueued op src dst para bn none localtime version) ⊆ {version} := by
  rintro _ ⟨-, -, rfl⟩
  rfl

theorem takes_enqueued (old : SyncNode) (op : Op) (src dst : Path) (para : Option (Fin 5 → UInt64))
    (bn : Option (List BufInfo)) (localtime version : UInt64) :
    versionSupply.takes (old.enqueued op src dst para bn none localtime version) ⊆ {version} := by
  rintro _ ⟨-, -, rfl⟩
  rfl

/-- A node that replaces the version of a path with nothing pending. -/
theorem succeeds (chain : Chain held rel db limit nodes) (positive : 0 < limit) (dated : Dated db limit)
    {version new : UInt64} (known : db source = some version) (quiet : Quiet source nodes)
    (above : new.toNat = limit + 1) (old : SyncNode) {op : Op} {src dst : Path} {para : Option (Fin 5 → UInt64)}
    {bn : Option (List BufInfo)}
    (versioned : (old.enqueued op src dst para bn none new version).newVersion? = some new)
    (versions : ∀ path found, db' path = some found → found = new ∨ path ≠ source ∧ db path = some found)
    (relations : ∀ src dst time, rel'.Related src dst time → rel.Related src dst time ∨ time = new ∧ src = source)
    (pending : (old.enqueued op src dst para bn none new version).Pending →
      (∀ path, db' path = some new → path = src) ∧ ∀ src dst time, rel'.Related src dst time → time.toNat ≤ limit) :
    Chain held rel' db' (limit + 1) (nodes ++ [old.enqueued op src dst para bn none new version]) := by
  refine chain.append positive rfl versioned above (fun base needed => ?_)
    (chain.free known quiet (needs_enqueued ..)) (fun path found known' => ?_) (fun src dst time related => ?_) pending
  · obtain rfl := needs_enqueued _ _ _ _ _ _ _ _ needed
    exact chain.current source _ known
  · refine (versions path found known').imp id fun ⟨different, kept⟩ => ⟨kept, fun taken => ?_⟩
    obtain rfl := takes_enqueued _ _ _ _ _ _ _ _ taken
    exact different (dated.distinct path source _ kept known)
  · refine (relations src dst time related).imp id fun ⟨new, same⟩ => ⟨new, ?_⟩
    rw [same]
    exact quiet

/-- The head of the queue has been handled. -/
theorem dequeue (chain : Chain held rel db limit (sn :: nodes)) (more : versionSupply.after held sn ⊆ held')
    (bound : ∀ version ∈ held', version.toNat ≤ limit) : Chain held' rel db limit nodes where
  supplied := chain.supplied.2.mono more
  current path version known := Supply.stock_mono more (chain.current path version known)
  bound := bound
  ranked := chain.ranked.sublist (List.Sublist.filterMap _ (by simp))
  bases := chain.bases.subset (List.subset_cons_self sn nodes)
  own other member := chain.own other (List.mem_cons_of_mem sn member)
  unused other member waits item inside :=
    chain.unused other (List.mem_cons_of_mem sn member) waits item (List.mem_cons_of_mem sn inside)
  older other member := chain.older other (List.mem_cons_of_mem sn member)

end Chain

/-! ## Queues -/

/-- With a complete table, a path without an entry has nothing pending. -/
theorem PendingTable.quiet {queue : SyncQueue} (table : PendingTable queue) (lists : queue.Lists nodes)
    (none : ∀ sh ∈ queue.shs, sh.path ≠ path) : Quiet path nodes := by
  intro sn member waits
  obtain ⟨slot, bound, rfl, occupied⟩ := lists.exists_slot member
  exact none _ (table.complete slot bound (by simp) occupied waits)

namespace SyncQueue.Holds

variable {P Q : List SyncNode → Prop} {queue : SyncQueue}

theorem quiet (holds : queue.Holds P) (table : PendingTable queue) (none : ∀ sh ∈ queue.shs, sh.path ≠ path) :
    queue.Holds fun nodes => P nodes ∧ Quiet path nodes := by
  obtain ⟨tidy, nodes, lists, property⟩ := holds
  exact ⟨tidy, nodes, lists, property, table.quiet lists none⟩

/-- After packing, nothing is pending for the path, unless its file could not be opened. -/
theorem packQuiet (packed : syncPackWritePath env path client = .ok after) (holds : client.queue.Holds P)
    (table : PendingTable client.queue) (keeps : PackKeeps env client P) :
    ((after.queue.Holds fun nodes => P nodes ∧ Quiet path nodes) ∧ PendingTable after.queue) ∨
      Stuck client path ∧ after.fs = client.fs := by
  obtain ⟨ready, none⟩ := packPath packed holds keeps
  rcases (PendingTable.packPath packed table).1 with complete | stuck
  · exact .inl ⟨ready.quiet complete none, complete⟩
  · exact .inr stuck

/-- After `sync_delete` nothing is pending for the path. -/
theorem deleteQuiet (holds : queue.Holds P) (table : PendingTable queue) (path : Path)
    (drops : ∀ before sn rest, sn.Pending → sn.src = path →
      P (before ++ sn :: rest) → P (before ++ { sn with isDelete := true } :: rest)) :
    (DeltaCFS.syncDelete path queue).Holds fun nodes => P nodes ∧ Quiet path nodes := by
  have deleted := holds.syncDelete path (fun _ => id) drops
  refine deleted.quiet (Indexed.syncDelete table path) ?_
  obtain ⟨ring, entries, looked, spec⟩ := holds.tidy.syncFind path
  simp only [DeltaCFS.syncDelete]
  split
  · next sh found hit =>
    simp only [hit] at entries spec looked
    intro other member same
    simp only [SyncQueue.modifyNode, hashDel, looked.mem_erase_iff] at member
    exact member.2 (looked.eq_of_path member.1 (entries ▸ spec.1) (same.trans spec.2.symm))
  · next found hit =>
    simp only [hit] at entries spec
    exact entries ▸ spec

end SyncQueue.Holds

/-! ## Handlers -/

/-- The versions the server has a file of. -/
def heldBy (dir : Dir) : Set UInt64 := {version | (dir (verToName version)).isSome}

/-- The queue of the client continues what the server holds. -/
structure Linked (dir : Dir) (client : Client) : Prop where
  queue : client.queue.Holds (Chain (heldBy dir) client.rel client.db client.recfsCnt.toNat)
  table : PendingTable client.queue
  positive : 0 < client.recfsCnt.toNat

namespace Linked

variable {dir : Dir}

/-- Under a version that is above all relations, packing follows the same relations. -/
theorem packKeeps (env : Env) {packing : Client} {version : UInt64} (related : RelDated rel limit)
    (same : packing.rel = rel) (above : version.toNat = limit + 1)
    (known : ∀ path found, packing.db path = some found → found = version ∨ db path = some found) :
    PackKeeps env packing (Chain held rel db limit) := by
  refine Chain.packKeeps env packing same fun src dst time rel version' => ?_
  rcases known dst time version' with rfl | kept
  · have := related.bound src dst _ rel
    omega
  · exact kept

/-- A call that has taken a version. -/
theorem of_counted (bound : client.recfsCnt.toNat + 1 < counterBound)
    (ready : after.queue.Holds (Chain (heldBy dir) rel db (client.recfsCnt.toNat + 1)))
    (table : PendingTable after.queue) (sameRel : after.rel = rel) (sameDb : after.db = db)
    (count : after.recfsCnt = client.recfsCnt + 1) : Linked dir after := by
  have counted : after.recfsCnt.toNat = client.recfsCnt.toNat + 1 := by rw [count, recfsCnt_toNat bound]
  refine ⟨?_, table, by omega⟩
  rw [sameRel, sameDb, counted]
  exact ready

/-- What a path gets the version for, and what it had before. -/
theorem update_cases {other : Path} {new version : UInt64}
    (known : Function.update db path (some new) other = some version) :
    (other = path ∧ version = new) ∨ other ≠ path ∧ db other = some version := by
  rw [Function.update_apply] at known
  split at known
  · next same => exact .inl ⟨same, (Option.some.inj known).symm⟩
  · next different => exact .inr ⟨different, known⟩

theorem delete_cases {other : Path} {version : UInt64} (known : Function.update db path none other = some version) :
    other ≠ path ∧ db other = some version := by
  rw [Function.update_apply] at known
  split at known
  · exact absurd known (by simp)
  · next different => exact ⟨different, known⟩

/-- A path has the new version only as the path it was taken for. -/
theorem only_new {other : Path} (based : Based client) (bound : client.recfsCnt.toNat + 1 < counterBound)
    (known : Function.update client.db path (some client.newVersion) other = some client.newVersion) :
    other = path := by
  rcases update_cases known with ⟨same, -⟩ | ⟨-, old⟩
  · exact same
  · have := based.dated.bound other _ old
    have := newVersion_toNat bound
    omega

theorem mknod {mode rdev : ℕ} (linked : Linked dir client) (based : Based client)
    (bound : client.recfsCnt.toNat + 1 < counterBound)
    (handled : xmpMknod env path mode rdev client = .ok (res, after)) (done : 0 ≤ res) : Linked dir after := by
  have table := linked.table.mknod handled
  have above := newVersion_toNat bound
  obtain ⟨db, count⟩ := xmpMknod_db linked.queue.tidy handled
  obtain ⟨stored, rfl, ⟨failed, -⟩ | ⟨fs, packed, queue, -, packing, queued, -, rfl⟩⟩ := xmpMknod_eq_ok handled
  · omega
  obtain ⟨-, rel, -⟩ := syncPackWritePath_frame packing linked.queue.tidy
  obtain ⟨holds, none⟩ := SyncQueue.Holds.packPath packing linked.queue
    (packKeeps env based.related (by rfl) above fun other version known => (update_cases known).imp And.right And.right)
  refine of_counted bound (holds.enqueue queued (fun _ => none) fun nodes old chain => ?_) table rel db count
  refine chain.append linked.positive rfl rfl above (by simp [versionSupply, SyncNode.enqueued])
    (by simp [versionSupply, SyncNode.enqueued]) (fun other version known => ?_) (fun _ _ _ => .inl)
    fun _ => ⟨fun other known => only_new based bound known, based.related.bound⟩
  rcases update_cases known with ⟨-, rfl⟩ | ⟨-, kept⟩
  · exact .inl rfl
  · exact .inr ⟨kept, by simp [versionSupply, SyncNode.enqueued]⟩

/-- A path that is opened was not stuck. -/
theorem not_stuck (plain : client.fs.Plain) (stuck : Stuck client source) {fs : FileSystem}
    (renamed : client.fs.rename source target = .ok fs) : False := by
  obtain ⟨content, found, -⟩ := plain.rename renamed
  obtain ⟨_, _, _, _, _, missing⟩ := stuck
  exact missing (FileSystem.regular_iff_read.mpr ⟨content, found⟩)

theorem unlink (linked : Linked dir client) (based : Based client) (plain : client.fs.Plain)
    (bound : client.recfsCnt.toNat + 1 < counterBound)
    (handled : xmpUnlink env path client = .ok (res, after)) (done : 0 ≤ res) : Linked dir after := by
  have above := newVersion_toNat bound
  obtain ⟨db, count⟩ := xmpUnlink_db linked.queue.tidy handled done
  obtain ⟨version, packed, rel, known, packing, forgotten, outcome⟩ := xmpUnlink_eq_ok handled
  obtain ⟨-, sameRel, sameCount⟩ := syncPackWritePath_frame packing linked.queue.tidy
  rcases outcome with ⟨failed, -⟩ | ⟨fs, queue, related, moved, queued, entering, -, rfl⟩
  · omega
  have new : packed.newVersion = client.newVersion := by simp only [Client.newVersion, sameCount]
  rw [new] at queued entering
  have fewer : rel.Sane ∧ ∀ src dst time, rel.Related src dst time → client.rel.Related src dst time := by
    obtain ⟨sane, first⟩ := based.related.sane.relDeleteDst path
    obtain ⟨sane', second⟩ := sane.relDeleteSrc path
    rw [forgotten, sameRel]
    exact ⟨sane', fun _ _ _ related => (first (second related).1).1⟩
  rcases SyncQueue.Holds.packQuiet packing linked.queue linked.table
    (Chain.packKeeps env client rfl fun _ _ _ _ => id) with ⟨holds, table⟩ | ⟨stuck, files⟩
  · refine of_counted bound (holds.enqueue queued (by simp [Op.isBuffered]) fun nodes old ready => ?_)
      (table.enqueue rfl queued) rfl db count
    refine ready.1.succeeds linked.positive based.dated known ready.2 above old rfl (fun other found known' => ?_)
      (fun src dst time related => ?_) (by simp [SyncNode.Pending, SyncNode.enqueued, Op.isBuffered])
    · obtain ⟨different, known'⟩ := delete_cases known'
      exact (update_cases known').imp And.right fun kept => ⟨different, kept.2⟩
    · rcases (fewer.1.relEnqueue entering).2 related with ⟨same, -, time⟩ | ⟨-, kept⟩
      · exact .inr ⟨time, same⟩
      · exact .inl (fewer.2 _ _ _ kept)
  · rw [files] at moved
    exact (not_stuck plain stuck moved).elim

/-- A lookup that finds nothing says that nothing is pending. -/
theorem quiet_of_miss (linked : Linked dir client) (miss : (syncFind path client.queue).1 = none) :
    (syncFind path client.queue).2.Holds fun nodes =>
      Chain (heldBy dir) client.rel client.db client.recfsCnt.toNat nodes ∧ Quiet path nodes := by
  refine (linked.queue.syncFind path).quiet (Indexed.syncFind linked.table path) ?_
  rw [(linked.queue.tidy.syncFind path).2.1]
  exact linked.queue.tidy.not_found miss

theorem writeSync {offset : ℕ} {data : Bytes} (linked : Linked dir client) (based : Based client)
    (bound : client.recfsCnt.toNat + 1 < counterBound) (synced : writeSync env path offset data client = .ok after) :
    Linked dir after := by
  have table := linked.table.writeSync synced
  rcases writeSync_eq_ok synced with ⟨sh, hit, rfl⟩ | ⟨miss, version, queue, known, queued, rfl⟩
  · refine ⟨linked.queue.appended path _ hit fun _ sn _ _ _ chain => ?_, table, linked.positive⟩
    obtain ⟨op, src, -, time, base, -, alive, -, pending⟩ := sn.appended_fields (writeRecord env path offset data client)
    exact chain.congr op src time base alive pending.mp
  · refine of_counted bound ((linked.quiet_of_miss miss).enqueue queued (fun _ => ?_) fun nodes old ready => ?_) table
      rfl rfl rfl
    · rw [(linked.queue.tidy.syncFind path).2.1]
      exact linked.queue.tidy.not_found miss
    · exact ready.1.succeeds linked.positive based.dated known ready.2 (newVersion_toNat bound) old rfl
        (fun other found known' => (update_cases known').imp And.right id) (fun _ _ _ => .inl)
        fun _ => ⟨fun other known' => only_new based bound known', based.related.bound⟩

/-- A truncate to size 0 must not find a pending node. -/
theorem truncateSync {size : ℕ} (linked : Linked dir client) (based : Based client)
    (bound : client.recfsCnt.toNat + 1 < counterBound) (kept : size = 0 → (syncFind path client.queue).1 = none)
    (synced : truncateSync path size client = .ok after) : Linked dir after := by
  have table := linked.table.truncateSync synced
  rcases truncateSync_eq_ok synced with
    ⟨zero, rfl⟩ | ⟨-, sh, hit, rfl⟩ | ⟨-, miss, version, queue, known, queued, rfl⟩
  · have same : syncDeleteWrite path client.queue = (syncFind path client.queue).2 := by
      have none := kept zero
      simp only [syncDeleteWrite]
      split
      · next sh found hit => simp [hit] at none
      · next found hit => simp [hit]
    refine ⟨?_, table, linked.positive⟩
    simp only [same]
    exact linked.queue.syncFind path
  · refine ⟨linked.queue.appended path _ hit fun _ sn _ _ _ chain => ?_, table, linked.positive⟩
    obtain ⟨op, src, -, time, base, -, alive, -, pending⟩ := sn.appended_fields (truncateRecord size)
    exact chain.congr op src time base alive pending.mp
  · refine of_counted bound ((linked.quiet_of_miss miss).enqueue queued (by simp [Op.isBuffered])
      fun nodes old ready => ?_) table rfl rfl rfl
    exact ready.1.succeeds linked.positive based.dated known ready.2 (newVersion_toNat bound) old rfl
      (fun other found known' => (update_cases known').imp And.right id) (fun _ _ _ => .inl)
      (by simp [SyncNode.Pending, SyncNode.enqueued, Op.isBuffered])

/-- The UNLINK and DELTA nodes of a rename, with the pending node of the source dropped between
them, when no pending node has the base of the delta. -/
theorem unlinkDelta {first second third : SyncQueue} {deltaFile : Path} {para : Fin 5 → UInt64}
    {version new base : UInt64}
    (holds : first.Holds fun nodes =>
      Chain held rel db limit nodes ∧ ∀ other ∈ nodes, other.Pending → other.time ≠ base)
    (table : PendingTable first) (positive : 0 < limit) (above : new.toNat = limit + 1)
    (arrives : path ≠ source ∧ db path = some base)
    (relations : ∀ src dst time, rel'.Related src dst time → rel.Related src dst time ∨ time = new ∧ src = source)
    (unlinked : syncEnqueue .unlink source [] none none none version 0 first = .ok second)
    (queued : syncEnqueue .delta deltaFile target (some para) none none new base (syncDelete source second) =
      .ok third) :
    third.Holds (Chain held rel' (Function.update (Function.update db source none) target (some new)) (limit + 1)) := by
  have gone : ∀ path found, Function.update db source none path = some found → db path = some found :=
    fun path found known => (delete_cases known).2
  have marked : second.Holds fun nodes => Chain held rel (Function.update db source none) limit nodes ∧
      ∀ other ∈ nodes, other.Pending → other.time ≠ base := by
    refine holds.enqueue unlinked (by simp [Op.isBuffered]) fun nodes old ready => ?_
    obtain ⟨chain, free⟩ := ready
    refine ⟨?_, fun other member => ?_⟩
    · exact (chain.forget gone).plain rfl (by simp [versionSupply, SyncNode.enqueued])
        (by simp [SyncNode.Pending, SyncNode.enqueued, Op.isBuffered]) (by simp [SyncNode.enqueued])
    · rcases List.mem_append.mp member with kept | last
      · exact free other kept
      · rw [List.mem_singleton.mp last]
        simp [SyncNode.Pending, SyncNode.enqueued, Op.isBuffered]
  have dropped := marked.deleteQuiet (table.enqueue rfl unlinked) source fun before sn rest waits named ready => by
    refine ⟨ready.1.drop waits (by rw [named, Function.update_self]; simp), fun other member pends => ?_⟩
    simp only [List.mem_append, List.mem_cons] at member
    rcases member with inside | rfl | inside
    · exact ready.2 other (by simp [inside]) pends
    · exact absurd pends (SyncNode.not_pending_of_deleted rfl)
    · exact ready.2 other (by simp [inside]) pends
  refine dropped.enqueue queued (by simp [Op.isBuffered]) fun nodes old ready => ?_
  obtain ⟨⟨chain, free⟩, quiet⟩ := ready
  refine chain.append positive rfl rfl above (fun version needed => ?_) (fun other member waits needed => ?_)
    (fun path found known => ?_) (fun src dst time related => ?_)
    (by simp [SyncNode.Pending, SyncNode.enqueued, Op.isBuffered])
  · obtain rfl := Chain.needs_enqueued _ _ _ _ _ _ _ _ needed
    exact chain.current path _ ((Function.update_of_ne arrives.1 _ _).trans arrives.2)
  · exact free other member waits (Chain.needs_enqueued _ _ _ _ _ _ _ _ needed)
  · exact (update_cases known).imp And.right fun kept => ⟨kept.2, by simp [versionSupply, SyncNode.enqueued]⟩
  · refine (relations src dst time related).imp id fun fresh => ⟨fresh.1, ?_⟩
    rw [fresh.2]
    exact quiet

/-- The branches of `xmp_rename`, when the source can be renamed in the end. -/
theorem renameSync {version : UInt64} {fs : FileSystem} (linked : Linked dir client) (based : Based client)
    (plain : client.fs.Plain) (bound : client.recfsCnt.toNat + 1 < counterBound)
    (known : client.db source = some version)
    (relations : ∀ src dst time, rel'.Related src dst time →
      client.rel.Related src dst time ∨ time = client.newVersion ∧ src = source)
    (synced : renameSync env source target version client.newVersion { client with
      recfsCnt := client.recfsCnt + 1, db := Function.update client.db source none } = .ok after)
    (moved : after.fs.rename source target = .ok fs) :
    after.queue.Holds (Chain (heldBy dir) rel' (Function.update (Function.update client.db source none) target
      (some client.newVersion)) (client.recfsCnt.toNat + 1)) ∧ PendingTable after.queue := by
  have above := newVersion_toNat bound
  -- a RENAME node, once the source is packed
  have renamed {queue queue' : SyncQueue}
      (holds : queue.Holds fun nodes =>
        Chain (heldBy dir) client.rel client.db client.recfsCnt.toNat nodes ∧ Quiet source nodes)
      (queued : syncEnqueue .rename source target none none none client.newVersion version queue = .ok queue') :
      queue'.Holds (Chain (heldBy dir) rel' (Function.update (Function.update client.db source none) target
        (some client.newVersion)) (client.recfsCnt.toNat + 1)) := by
    refine holds.enqueue queued (by simp [Op.isBuffered]) fun nodes old ready => ?_
    refine ready.1.succeeds linked.positive based.dated known ready.2 above old rfl (fun path found known' => ?_)
      relations (by simp [SyncNode.Pending, SyncNode.enqueued, Op.isBuffered])
    exact (update_cases known').imp And.right fun kept => delete_cases kept.2
  have deleted (other : Path) (found : UInt64) (known' : Function.update client.db source none other = some found) :
      found = client.newVersion ∨ client.db other = some found := .inr (delete_cases known').2
  simp only [DeltaCFS.renameSync] at synced
  split at synced
  · obtain ⟨packed, timestamp, deltaFile, computed, unlinked, queue, packing, base, computing, first, second, rfl⟩ :=
      renameOnto_eq_ok synced
    obtain ⟨db, -, -⟩ := syncPackWritePath_frame packing linked.queue.tidy
    obtain ⟨old, new, delta, facts⟩ := computeDelta_eq_ok computing
    have readable := facts.origin
    obtain ⟨_, _, _, _, _, _, _, rfl⟩ := facts.files
    have arrives := delete_cases ((congrFun db target).symm.trans base)
    rcases SyncQueue.Holds.packQuiet packing linked.queue linked.table
      (packKeeps env based.related (by rfl) above deleted) with ⟨holds, table⟩ | ⟨⟨_, _, _, _, _, missing⟩, files⟩
    · refine ⟨?_, table.unlinkDelta first second⟩
      refine unlinkDelta (holds.imp fun nodes ready => ⟨ready.1, fun other member waits same => ?_⟩) table linked.positive
        above arrives relations first second
      exact ready.2 other member waits (ready.1.own other member waits target (same ▸ arrives.2)).symm
    · rw [files] at readable
      exact absurd readable missing
  · split at synced
    · obtain ⟨packed, queue, packing, queued, rfl⟩ := renamePlain_eq_ok synced
      rcases SyncQueue.Holds.packQuiet packing linked.queue linked.table
        (packKeeps env based.related (by rfl) above deleted) with ⟨holds, table⟩ | ⟨stuck, files⟩
      · exact ⟨renamed holds queued, table.enqueue rfl queued⟩
      · simp only [files] at moved
        exact (not_stuck plain stuck moved).elim
    · next rh related =>
      obtain ⟨deltaFile, computed, check, computing, base, outcome⟩ := renameRelated_eq_ok synced
      obtain ⟨old, new, delta, facts⟩ := computeDelta_eq_ok computing
      have regular := facts.new_regular
      obtain ⟨_, _, _, _, _, _, _, rfl⟩ := facts.files
      rcases outcome with ⟨rfl, unlinked, queue, first, second, rfl⟩ | ⟨-, packed, queue, packing, queued, rfl⟩
      · refine ⟨?_, linked.table.unlinkDelta first second⟩
        refine unlinkDelta (linked.queue.imp fun nodes chain => ⟨chain, fun other member waits same => ?_⟩) linked.table
          linked.positive above (delete_cases base) relations first second
        exact chain.bases.apart other member waits _ _ _ (RelTable.related_of_relFind related) same.symm
      · rcases SyncQueue.Holds.packQuiet packing linked.queue linked.table
          (packKeeps env based.related (by rfl) above fun other found known' =>
            (update_cases known').imp And.right fun kept => (delete_cases kept.2).2) with
          ⟨holds, table⟩ | ⟨⟨_, _, _, _, _, missing⟩, -⟩
        · exact ⟨renamed holds queued, table.enqueue rfl queued⟩
        · exact absurd regular missing

theorem rename (linked : Linked dir client) (based : Based client) (plain : client.fs.Plain)
    (bound : client.recfsCnt.toNat + 1 < counterBound)
    (handled : xmpRename env source target client = .ok (res, after)) (done : 0 ≤ res) : Linked dir after := by
  obtain ⟨version, synced, rel, known, syncing, entering, outcome⟩ := xmpRename_eq_ok handled
  obtain ⟨same, count, db⟩ := renameSync_frame syncing linked.queue
  obtain ⟨sane, fewer⟩ := based.related.sane.replaced target same
  have relations : ∀ src dst time, rel.Related src dst time →
      client.rel.Related src dst time ∨ time = client.newVersion ∧ src = source := by
    intro src dst time related
    rcases (sane.relEnqueue entering).2 related with ⟨here, -, new⟩ | ⟨-, kept⟩
    · exact .inr ⟨new, here⟩
    · exact .inl (fewer kept).1
  rcases outcome with ⟨failed, -⟩ | ⟨fs, moved, -, rfl⟩
  · omega
  obtain ⟨ready, table⟩ := linked.renameSync based plain bound known relations syncing moved
  exact of_counted bound ready table rfl db count

theorem congr (linked : Linked dir client) (queue : after.queue = client.queue) (rel : after.rel = client.rel)
    (db : after.db = client.db) (count : after.recfsCnt = client.recfsCnt) : Linked dir after :=
  ⟨by rw [queue, rel, db, count]; exact linked.queue, queue ▸ linked.table, count ▸ linked.positive⟩

/-- A call other than a round of `sync_execute`. -/
theorem call {call : Call} {outcome : Outcome} (linked : Linked dir client) (based : Based client)
    (plain : client.fs.Plain) (onFiles : call.onFiles = true) (handler : call ≠ .syncExecute)
    (bound : call.counts = true → client.recfsCnt.toNat + 1 < counterBound)
    (kept : ∀ path, call = .truncate path 0 → (syncFind path client.queue).1 = none)
    (ran : client.step env call = .ok outcome) (done : 0 ≤ outcome.res) :
    Linked dir outcome.client ∧ outcome.sent = none := by
  cases call with
  | mknod path mode rdev =>
    obtain ⟨handled, none⟩ := ofHandled_eq_ok ran
    exact ⟨linked.mknod based (bound rfl) handled done, none⟩
  | unlink path =>
    obtain ⟨handled, none⟩ := ofHandled_eq_ok ran
    exact ⟨linked.unlink based plain (bound rfl) handled done, none⟩
  | rename source target =>
    obtain ⟨handled, none⟩ := ofHandled_eq_ok ran
    exact ⟨linked.rename based plain (bound rfl) handled done, none⟩
  | truncate path size =>
    obtain ⟨handled, none⟩ := ofHandled_eq_ok ran
    refine ⟨?_, none⟩
    obtain ⟨synced, syncing, outcome⟩ := xmpTruncate_eq_ok handled
    have ready := linked.truncateSync based (bound rfl) (fun zero => kept path (by rw [zero])) syncing
    rcases outcome with ⟨-, same⟩ | ⟨fs, -, -, same⟩
    · exact same ▸ ready
    · exact same ▸ ready.congr rfl rfl rfl rfl
  | write path offset data =>
    obtain ⟨handled, none⟩ := ofHandled_eq_ok ran
    refine ⟨?_, none⟩
    obtain ⟨synced, syncing, outcome⟩ := xmpWrite_eq_ok handled
    have ready := linked.writeSync based (bound rfl) syncing
    rcases outcome with ⟨-, same⟩ | ⟨fs, -, -, -, same⟩
    · exact same ▸ ready
    · exact same ▸ ready.congr rfl rfl rfl rfl
  | syncExecute => exact absurd rfl handler
  | relDequeue =>
    obtain rfl := Except.ok.inj ran
    obtain ⟨-, fewer⟩ := based.related.sane.relDequeue
    exact ⟨⟨linked.queue.imp fun _ chain => chain.unrelate fun _ _ _ => fewer, linked.table, linked.positive⟩, rfl⟩
  | _ => simp [Call.onFiles] at onFiles

/-- A round of `sync_execute` before its message: the rest of the queue continues from what the
message needs and makes. -/
theorem round {sent : Option SyncNode} (linked : Linked dir client)
    (executed : syncExecute env client = .ok (sent, after)) :
    (sent = none ∧ after = client) ∨ ∃ sn, sent = (if sn.isDelete then none else some sn) ∧
      after.queue.Holds (fun rest => Chain (heldBy dir) after.rel after.db after.recfsCnt.toNat (sn :: rest)) ∧
      PendingTable after.queue ∧ 0 < after.recfsCnt.toNat := by
  have table := linked.table.syncExecute executed
  rcases SyncQueue.Holds.syncExecute executed linked.queue (Chain.packKeeps env client rfl fun _ _ _ _ => id) with
    unchanged | ⟨⟨db, rel, count⟩, sn, sends, holds⟩
  · exact .inl unchanged
  · refine .inr ⟨sn, sends, ?_, table, count ▸ linked.positive⟩
    rw [db, rel, count]
    exact holds

end Linked

end DeltaCFS
