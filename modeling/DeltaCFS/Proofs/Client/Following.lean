import DeltaCFS.Proofs.Client.TemporaryFiles
import DeltaCFS.Proofs.Librsync.Pipeline

/-! # Packing without assertions

`sync_pack_write` asserts that `compute_delta` succeeds and that the target of a relation has a
version. Neither fails when the files of the pending nodes exist and every relation on the way leads
to a file with a version.
-/

namespace DeltaCFS

variable {env : Env} {client after : Client} {path source target : Path} {fs : FileSystem} {rel : RelTable}
  {queue queue' : SyncQueue} {slot fuel : ℕ} {stop : Stop}

/-! ## The relations on the way -/

/-- The relation that packing a node follows. -/
def relationOf (rel : RelTable) (sn : SyncNode) : Option RelNode :=
  if sn.op = .newfile then (relFind sn.src rel).map fun rh => rel.rq.node rh.loc else none

/-- The targets of the relations that `sync_pack_write` follows from the node of a slot. -/
def follows (rel : RelTable) : ℕ → ℕ → SyncQueue → List Path
  | 0, _, _ => []
  | fuel + 1, slot, queue =>
    match relationOf rel (queue.sq.node slot) with
    | none => []
    | some rn => rn.dst ::
      match syncFind rn.dst queue with
      | (some sh, queue) => follows rel fuel sh.loc queue
      | (none, _) => []

/-- The same for `sync_pack_write_path`. -/
def followsPath (rel : RelTable) (path : Path) (queue : SyncQueue) : List Path :=
  match syncFind path queue with
  | (some sh, queue) => follows rel packFuel sh.loc (hashDel sh queue)
  | (none, _) => []

/-- The temporary names that `sync_pack_write` removes. -/
def removes (fs : FileSystem) (rel : RelTable) : ℕ → ℕ → SyncQueue → List Path
  | 0, _, _ => []
  | fuel + 1, slot, queue =>
    let sn := queue.sq.node slot
    match relationOf rel sn with
    | some rn => sigPath rn.dst ::
      match syncFind rn.dst queue with
      | (some sh, queue) => removes fs rel fuel sh.loc queue
      | (none, _) => []
    | none =>
      if sn.op = .write ∧ sendsWrite (sn.bn.getD []) (fs.getFileSize sn.src) = false then
        [tmpPath sn.src, sigPath sn.src]
      else []

def removesPath (fs : FileSystem) (rel : RelTable) (path : Path) (queue : SyncQueue) : List Path :=
  match syncFind path queue with
  | (some sh, queue) => removes fs rel packFuel sh.loc (hashDel sh queue)
  | (none, _) => []

theorem relationOf_newfile {sn : SyncNode} {rh : RelHash} (newfile : sn.op = .newfile)
    (related : relFind sn.src rel = some rh) : relationOf rel sn = some (rel.rq.node rh.loc) := by
  simp [relationOf, newfile, related]

theorem relationOf_eq_some {sn : SyncNode} {rn : RelNode} (related : relationOf rel sn = some rn) :
    sn.op = .newfile ∧ ∃ rh, relFind sn.src rel = some rh ∧ rel.rq.node rh.loc = rn := by
  simp only [relationOf] at related
  split at related
  · next newfile => exact ⟨newfile, Option.map_eq_some_iff.mp related⟩
  · exact absurd related (by simp)

/-- A queue with fewer entries, whose nodes are as they were, leads to less. -/
theorem follows_subset (tidy : Tidy queue) (tidy' : Tidy queue')
    (fewer : ∀ sh ∈ queue'.shs, sh ∈ queue.shs ∧ queue'.sq.node sh.loc = queue.sq.node sh.loc)
    (same : queue'.sq.node slot = queue.sq.node slot) : follows rel fuel slot queue' ⊆ follows rel fuel slot queue := by
  induction fuel generalizing slot queue queue' with
  | zero => simp [follows]
  | succ fuel ih =>
    rw [follows, follows, same]
    split
    · exact List.Subset.refl _
    · next rn related =>
      refine List.cons_subset_cons _ ?_
      split
      · next sh looked' hit' =>
        obtain ⟨member', named'⟩ := tidy'.found (congrArg Prod.fst hit')
        obtain ⟨member, node⟩ := fewer sh member'
        obtain ⟨ring', entries', clean', -⟩ := tidy'.syncFind rn.dst
        obtain ⟨ring, entries, clean, -⟩ := tidy.syncFind rn.dst
        rw [hit'] at ring' entries' clean'
        split
        · next other looked hit =>
          obtain ⟨member'', named''⟩ := tidy.found (congrArg Prod.fst hit)
          obtain rfl := tidy.eq_of_path member member'' (named'.trans named''.symm)
          rw [hit] at ring entries clean
          refine ih clean clean' (fun entry kept => ?_) (by rw [ring, ring', node])
          rw [entries, ring, ring']
          exact fewer entry (entries' ▸ kept)
        · next looked miss => exact absurd named' (tidy.not_found (congrArg Prod.fst miss) sh member)
      · exact List.nil_subset _

theorem followsPath_subset (tidy : Tidy queue) (tidy' : Tidy queue')
    (fewer : ∀ sh ∈ queue'.shs, sh ∈ queue.shs ∧ queue'.sq.node sh.loc = queue.sq.node sh.loc) :
    followsPath rel path queue' ⊆ followsPath rel path queue := by
  simp only [followsPath]
  split
  · next sh looked' hit' =>
    obtain ⟨member', named'⟩ := tidy'.found (congrArg Prod.fst hit')
    obtain ⟨member, node⟩ := fewer sh member'
    obtain ⟨ring', entries', clean', -⟩ := tidy'.syncFind path
    obtain ⟨ring, entries, clean, -⟩ := tidy.syncFind path
    simp only [hit'] at ring' entries' clean'
    split
    · next other looked hit =>
      obtain ⟨member'', named''⟩ := tidy.found (congrArg Prod.fst hit)
      obtain rfl := tidy.eq_of_path member member'' (named'.trans named''.symm)
      simp only [hit] at ring entries clean
      refine follows_subset (clean.hashDel (entries.symm ▸ member) rfl fun _ _ => rfl)
        (clean'.hashDel (entries'.symm ▸ member') rfl fun _ _ => rfl) (fun entry kept => ?_)
        (by simp only [hashDel, ring, ring', node])
      simp only [hashDel, entries, entries', ring, ring', tidy.mem_erase_iff, tidy'.mem_erase_iff] at kept ⊢
      exact ⟨⟨(fewer entry kept.1).1, kept.2⟩, (fewer entry kept.1).2⟩
    · next looked miss => exact absurd named' (tidy.not_found (congrArg Prod.fst miss) sh member)
  · exact List.nil_subset _

/-! ## Files that exist -/

theorem Env.signature_eq (env : Env) (count : ℕ) (old : Bytes) :
    env.signature count old = some (sigHeader ++ sigEntries (env.sigStack count) old 0 (blockCount old)) := by
  have signed := rsSigFile_done (env.sigStack count) old (show _ < pipelineFuel old [] by rw [pipelineFuel]; omega)
  rw [Env.signature, signed]

/-- When both files exist and the new one is none of its own, `compute_delta` succeeds, or the file that it
signs has more blocks than an `int` can count. -/
theorem computeDelta_cases {originfile newfile : Path} (env : Env) (basefile : Path) (noDir : client.fs.NoDir)
    (old : client.fs.Regular originfile) (user : UserPath newfile) (new : client.fs.Regular newfile) :
    (∃ deltaFile after, computeDelta env originfile newfile basefile client = .ok (deltaFile, after)) ∨
      computeDelta env originfile newfile basefile client = .error .memory ∧ ∃ emptied content,
        client.fs.store (sigPath basefile) [] = some emptied ∧ emptied.read originfile = some content ∧
          2 ^ 31 ≤ blockCount content := by
  have rule := FileSystem.SameNames.temporary client.fs
  have sig := tmpDir_prefix_sigPath basefile
  have temporary := tmpDir_prefix_deltaPath env client.deltas basefile
  obtain ⟨_, there⟩ := FileSystem.regular_iff_read.mp old
  obtain ⟨emptied, opens⟩ := noDir.exists_store (sigPath basefile) []
  obtain ⟨content, oldRead⟩ := FileSystem.regular_iff_read.mp (old.store opens)
  obtain ⟨opened, sigOpened⟩ := noDir.exists_store (sigPath basefile)
    (sigHeader ++ sigEntries (env.sigStack client.deltas) content 0 (blockCount content))
  have cleared := rule.remove sig (rule.store sig sigOpened (.refl noDir))
  obtain ⟨created, deltaOpened⟩ := cleared.noDir.exists_store (deltaPath env client.deltas basefile) []
  have ready := rule.store temporary deltaOpened cleared
  obtain ⟨content', newRead⟩ := FileSystem.regular_iff_read.mp ((ready.regular_iff user).mpr new)
  simp only [computeDelta, there, opens, oldRead, env.signature_eq, FileSystem.store_store opens, sigOpened, deltaOpened,
    newRead, require, bind, Except.bind, pure, Except.pure, Env.pipeline]
  rcases deltaPipeline_ends (env.qsort client.deltas) (env.sigStack client.deltas) (env.searchStack client.deltas)
    content content' le_rfl with ⟨-, pipeline⟩ | ⟨many, pipeline⟩
  · obtain ⟨stored, deltaStored⟩ := ready.noDir.exists_store (deltaPath env client.deltas basefile)
      (deltaOctets (deltaEnv (env.qsort client.deltas) (env.sigStack client.deltas) (env.searchStack client.deltas)
        content) content')
    simp only [pipeline, deltaStored]
    exact .inl ⟨_, _, rfl⟩
  · simp only [pipeline]
    exact .inr ⟨trivial, emptied, content, rfl, oldRead, many⟩

/-- The names other than the signature are still there. -/
theorem DeltaComputed.regular {originfile newfile basefile other : Path} {old new delta : Bytes}
    (computed : DeltaComputed env originfile newfile basefile client path after old new delta)
    (regular : client.fs.Regular other) (apart : other ≠ sigPath basefile) : after.fs.Regular other := by
  obtain ⟨opened, created, stored, ⟨_, -, sigOpened⟩, deltaOpened, -, deltaStored, rfl⟩ := computed.files
  exact (((regular.store sigOpened).remove apart).store deltaOpened).store deltaStored

/-- The hash is tidy, there are no directories, and what waits is for files of the user. -/
structure PendingFiles (client : Client) : Prop where
  tidy : Tidy client.queue
  noDir : client.fs.NoDir
  waits : ∀ sh ∈ client.queue.shs, UserPath sh.path ∧ client.fs.Regular sh.path

namespace PendingFiles

/-- Fewer entries. -/
theorem of_subset (pending : PendingFiles client) (tidy : Tidy queue) (fewer : ∀ sh ∈ queue.shs, sh ∈ client.queue.shs) :
    PendingFiles { client with queue := queue } :=
  ⟨tidy, pending.noDir, fun sh member => pending.waits sh (fewer sh member)⟩

theorem syncFind (pending : PendingFiles client) (path : Path) :
    PendingFiles { client with queue := (syncFind path client.queue).2 } := by
  obtain ⟨-, entries, tidy, -⟩ := pending.tidy.syncFind path
  exact pending.of_subset tidy fun sh member => entries ▸ member

/-- Writes can be packed unless memory runs out. -/
theorem packWrite_cases (pending : PendingFiles client) (env : Env) (user : UserPath (client.node slot).src)
    (regular : client.fs.Regular (client.node slot).src) :
    (∃ after, packWrite env slot client = .ok after) ∨ packWrite env slot client = .error .memory := by
  simp only [packWrite]
  split
  · exact .inl ⟨_, rfl⟩
  · have rule := FileSystem.SameNames.temporary client.fs
    have temporary := tmpDir_prefix_tmpPath (client.node slot).src
    obtain ⟨created, opens⟩ := pending.noDir.exists_store (tmpPath (client.node slot).src) []
    have opened := rule.store temporary opens (.refl pending.noDir)
    obtain ⟨copied, copies⟩ := opened.noDir.exists_store (tmpPath (client.node slot).src)
      ((created.read (client.node slot).src).getD [])
    have full := rule.store temporary copies opened
    obtain ⟨undone, undoes⟩ := full.noDir.exists_store (tmpPath (client.node slot).src)
      (undoWrites ((client.node slot).bn.getD []) ((copied.read (tmpPath (client.node slot).src)).getD []))
    have rebuilt := rule.store temporary undoes full
    have origin : undone.Regular (tmpPath (client.node slot).src) := by
      obtain ⟨⟨ino, found, -⟩, -⟩ := FileSystem.entry_store undoes
      exact ⟨ino, found⟩
    simp only [copyfile, opens, copies, undoes, bind, Option.bind, Except.bind, require, pure, Except.pure]
    rcases @computeDelta_cases { client with fs := undone } _ _ env (client.node slot).src rebuilt.noDir origin user
      ((rebuilt.regular_iff user).mpr regular) with ⟨deltaFile, computed, computing⟩ | ⟨full, -⟩
    · rw [computing]
      exact .inl ⟨_, rfl⟩
    · rw [full]
      exact .inr rfl

/-! ## The recursion -/

/-- Packing the pending node that a relation leads to, before the node itself. -/
theorem packFound_frame {rn : RelNode} {inner : Client} (pending : PendingFiles client)
    (related : relationOf client.rel (client.node slot) = some rn)
    (packed : packFound (syncPackWrite env fuel) (DeltaCFS.syncFind rn.dst client.queue).1
      { client with queue := (DeltaCFS.syncFind rn.dst client.queue).2 } = .ok inner) :
    inner.node slot = client.node slot ∧ inner.db = client.db ∧ client.fs.SameNames inner.fs ∧
      (UserPath rn.dst ∨ inner.fs = client.fs) := by
  obtain ⟨newfile, rh, found, rfl⟩ := relationOf_eq_some related
  obtain ⟨ring, entries, tidy, -⟩ := pending.tidy.syncFind (client.rel.rq.node rh.loc).dst
  cases hit : (DeltaCFS.syncFind (client.rel.rq.node rh.loc).dst client.queue).1 with
  | none =>
    rw [hit] at packed
    obtain rfl := Except.ok.inj packed
    exact ⟨by simp only [Client.node, ring], rfl, .refl pending.noDir, .inr rfl⟩
  | some sh =>
    simp only [hit, packFound, Except.bind_eq_ok] at packed
    obtain ⟨deep, deeper, packed⟩ := packed
    obtain rfl := Except.ok.inj packed
    obtain ⟨member, named⟩ := pending.tidy.found hit
    have goes : packsNext client slot = some sh.loc := by simp [packsNext, newfile, found, hit]
    obtain ⟨bound, occupied, waits, -⟩ := tidy.refers sh (entries.symm ▸ member)
    obtain ⟨middle, touched, depth, run, apart, one, ends, below, -⟩ := @syncPackWrite_run env
      { client with queue := (DeltaCFS.syncFind (client.rel.rq.node rh.loc).dst client.queue).2 } deep sh.loc fuel
      tidy waits deeper
    rw [packsNext_congr client { client with queue := _ } pending.tidy tidy ring entries rfl] at ends below
    have untouched := ends.not_mem goes below
    rw [List.mem_append, List.mem_singleton, not_or] at untouched
    obtain ⟨-, db, -, -⟩ := run.frame tidy
    obtain ⟨db', -, -, ⟨sn, changed, -⟩, -⟩ := one.frame
    refine ⟨?_, db'.trans db, ?_, .inl (named ▸ (pending.waits sh member).1)⟩
    · have node := run.node_eq tidy untouched.1
      simp only [Client.node, ring] at node
      simp only [Client.node, hashDel, changed, SyncQueue.modifyNode, RingBuffer.modify_node, untouched.2, ↓reduceIte,
        node]
    · have rule := (FileSystem.SameNames.temporary client.fs).packRule env
      exact (rule.last tidy run apart one bound occupied waits (.refl pending.noDir) :)

/-- No assertion fails while a pending node is packed. -/
theorem syncPackWrite_ne_error (pending : PendingFiles client) (asserts : stop = .timestamp ∨ stop = .delta)
    (waits : (client.node slot).Pending) (user : UserPath (client.node slot).src)
    (regular : client.fs.Regular (client.node slot).src)
    (leads : ∀ dst ∈ follows client.rel fuel slot client.queue, client.fs.Regular dst ∧ (client.db dst).isSome) :
    syncPackWrite env fuel slot client ≠ .error stop := by
  induction fuel generalizing slot client with
  | zero => rcases asserts with rfl | rfl <;> simp [syncPackWrite]
  | succ fuel ih =>
    rw [syncPackWrite]
    rcases waits.op_cases with newfile | write
    · simp only [newfile]
      cases found : relFind (client.node slot).src client.rel with
      | none => simp
      | some rh =>
        have related := relationOf_newfile newfile found
        have step : follows client.rel (fuel + 1) slot client.queue = (client.rel.rq.node rh.loc).dst ::
            match DeltaCFS.syncFind (client.rel.rq.node rh.loc).dst client.queue with
            | (some sh, queue) => follows client.rel fuel sh.loc queue
            | (none, _) => [] := by
          rw [follows]
          simp only [Client.node] at related
          simp only [related]
        obtain ⟨there, known⟩ := leads _ (by rw [step]; exact List.mem_cons_self)
        refine Except.bind_ne_error ?_ fun inner packing => ?_
        · cases hit : DeltaCFS.syncFind (client.rel.rq.node rh.loc).dst client.queue with
          | mk result looked =>
            cases result with
            | none => simp [packFound]
            | some sh =>
              obtain ⟨ring, entries, tidy, -⟩ := pending.tidy.syncFind (client.rel.rq.node rh.loc).dst
              have next := pending.syncFind (client.rel.rq.node rh.loc).dst
              rw [hit] at ring entries tidy next
              obtain ⟨member, named⟩ := pending.tidy.found (congrArg Prod.fst hit)
              obtain ⟨-, -, waits', src⟩ := tidy.refers sh (entries.symm ▸ member)
              obtain ⟨user', regular'⟩ := pending.waits sh member
              have inner := @ih { client with queue := looked } sh.loc next waits' (src ▸ user') (src ▸ regular')
                fun dst inside => leads dst (by rw [step, hit]; exact List.mem_cons_of_mem _ inside)
              exact Except.bind_ne_error inner fun _ _ => by simp [pure, Except.pure]
        · obtain ⟨node, db, names, target⟩ := pending.packFound_frame related packing
          have there' : inner.fs.Regular (client.rel.rq.node rh.loc).dst := by
            rcases target with user' | same
            · exact (names.regular_iff user').mpr there
            · exact same ▸ there
          obtain ⟨version, known'⟩ := Option.isSome_iff_exists.mp known
          rcases computeDelta_cases env (client.rel.rq.node rh.loc).dst names.noDir there' (node ▸ user)
            (node ▸ (names.regular_iff user).mpr regular) with ⟨deltaFile, computed, computing⟩ | ⟨full, -⟩
          · obtain ⟨old, new, delta, facts⟩ := computeDelta_eq_ok computing
            rw [computing]
            obtain ⟨_, _, _, _, _, _, _, rfl⟩ := facts.files
            simp only [require, bind, Except.bind, recfsGetTimestamp, db, known']
            split <;> simp [pure, Except.pure]
          · rw [full]
            rcases asserts with rfl | rfl <;> simp [bind, Except.bind]
    · simp only [write]
      rcases pending.packWrite_cases env user regular with ⟨after, packed⟩ | full
      · rw [packed]
        simp
      · rw [full]
        rcases asserts with rfl | rfl <;> simp

/-- No assertion fails while the pending node of a path is packed. -/
theorem packPath_ne_error (pending : PendingFiles client) (asserts : stop = .timestamp ∨ stop = .delta)
    (leads : ∀ dst ∈ followsPath client.rel path client.queue, client.fs.Regular dst ∧ (client.db dst).isSome) :
    syncPackWritePath env path client ≠ .error stop := by
  rw [syncPackWritePath_eq]
  obtain ⟨ring, entries, tidy, -⟩ := pending.tidy.syncFind path
  split
  · next sh looked hit =>
    simp only [followsPath, hit] at leads ring entries tidy
    obtain ⟨member, -⟩ := pending.tidy.found (congrArg Prod.fst hit)
    obtain ⟨-, -, waits, src⟩ := pending.tidy.refers sh member
    obtain ⟨user, regular⟩ := pending.waits sh member
    have deleted : Tidy (hashDel sh looked) := tidy.hashDel (entries.symm ▸ member) rfl fun _ _ => rfl
    have fewer : PendingFiles { client with queue := hashDel sh looked } :=
      pending.of_subset deleted fun other kept => entries ▸ List.mem_of_mem_erase kept
    have node : Client.node { client with queue := hashDel sh looked } sh.loc = client.queue.sq.node sh.loc := by
      simp only [Client.node, hashDel, ring]
    exact fewer.syncPackWrite_ne_error asserts (node ▸ waits) (node ▸ src ▸ user) (node ▸ src ▸ regular) leads
  · simp

/-! ## What is left -/

/-- Other names in the temporary directory. -/
theorem of_names (pending : PendingFiles client) (queue : after.queue = client.queue)
    (names : client.fs.SameNames after.fs) : PendingFiles after := by
  refine ⟨queue ▸ pending.tidy, names.noDir, fun sh member => ?_⟩
  obtain ⟨user, regular⟩ := pending.waits sh (queue ▸ member)
  exact ⟨user, (names.regular_iff user).mpr regular⟩

theorem packPath (pending : PendingFiles client) (packed : syncPackWritePath env path client = .ok after) :
    PendingFiles after ∧ client.fs.SameNames after.fs := by
  have names := (FileSystem.SameNames.temporary client.fs).packPath packed pending.tidy (.refl pending.noDir)
  obtain ⟨tidy, fewer⟩ := syncPackWritePath_entries packed pending.tidy
  refine ⟨⟨tidy, names.noDir, fun sh member => ?_⟩, names⟩
  obtain ⟨user, regular⟩ := pending.waits sh (fewer sh member).1
  exact ⟨user, (names.regular_iff user).mpr regular⟩

/-- A file is still there after packing unless it has a name that packing removes. -/
theorem syncPackWrite_regular {other : Path} (pending : PendingFiles client) (waits : (client.node slot).Pending)
    (packed : syncPackWrite env fuel slot client = .ok after) (regular : client.fs.Regular other)
    (kept : other ∉ removes client.fs client.rel fuel slot client.queue) : after.fs.Regular other := by
  induction fuel generalizing slot client after with
  | zero => exact absurd packed (by simp [syncPackWrite])
  | succ fuel ih =>
    rw [syncPackWrite] at packed
    rw [removes] at kept
    rcases waits.op_cases with newfile | write
    · simp only [newfile] at packed
      cases found : relFind (client.node slot).src client.rel with
      | none =>
        simp only [found] at packed
        obtain rfl := Except.ok.inj packed
        simp only [packNewfile]
        split
        · exact regular
        · exact regular
      | some rh =>
        have related := relationOf_newfile newfile found
        simp only [Client.node] at related
        simp only [related, List.mem_cons, not_or] at kept
        simp only [found, Except.bind_eq_ok] at packed
        obtain ⟨inner, packing, ⟨deltaFile, computed⟩, computing, check, -, packed⟩ := packed
        obtain ⟨old, new, delta, facts⟩ := computeDelta_eq_ok computing
        have there : inner.fs.Regular other := by
          cases hit : DeltaCFS.syncFind (client.rel.rq.node rh.loc).dst client.queue with
          | mk result looked =>
            obtain ⟨ring, entries, tidy, -⟩ := pending.tidy.syncFind (client.rel.rq.node rh.loc).dst
            have next := pending.syncFind (client.rel.rq.node rh.loc).dst
            rw [hit] at ring entries tidy next packing
            cases result with
            | none =>
              obtain rfl := Except.ok.inj packing
              exact regular
            | some sh =>
              obtain ⟨deep, deeper, packing⟩ := Except.bind_eq_ok.mp packing
              obtain rfl := Except.ok.inj packing
              obtain ⟨member, -⟩ := pending.tidy.found (congrArg Prod.fst hit)
              obtain ⟨-, -, waits', -⟩ := tidy.refers sh (entries.symm ▸ member)
              have rest := kept.2
              simp only [hit] at rest
              exact (@ih { client with queue := looked } deep sh.loc next waits' deeper regular rest :)
        have final := facts.regular there kept.1
        split at packed
        · obtain rfl := Except.ok.inj packed
          exact final
        · obtain rfl := Except.ok.inj packed
          simp only [packNewfile]
          split
          · exact final
          · exact final
    · simp only [write] at packed
      have unrelated : relationOf client.rel (client.queue.sq.node slot) = none := by
        have notNew : (client.queue.sq.node slot).op ≠ .newfile := by
          rw [show (client.queue.sq.node slot).op = .write from write]
          simp
        simp [relationOf, notNew]
      simp only [unrelated] at kept
      cases packWrite_eq_ok write packed with
      | unopened newfile => simp [write] at newfile
      | whole newfile => simp [write] at newfile
      | stale newfile => simp [write] at newfile
      | related newfile => simp [write] at newfile
      | writes => exact regular
      | rebuilt _ large copies undoes computing =>
        rw [if_pos ⟨write, large⟩, List.mem_pair, not_or] at kept
        obtain ⟨old, new, delta, facts⟩ := computeDelta_eq_ok computing
        obtain ⟨opened, creates, copies⟩ := Option.bind_eq_some_iff.mp copies
        have final := facts.regular (((regular.store creates).store copies).store undoes) kept.2
        exact final.remove kept.1

theorem packPath_regular {other : Path} (pending : PendingFiles client)
    (packed : syncPackWritePath env path client = .ok after) (regular : client.fs.Regular other)
    (kept : other ∉ removesPath client.fs client.rel path client.queue) : after.fs.Regular other := by
  rw [syncPackWritePath_eq] at packed
  obtain ⟨ring, entries, tidy, -⟩ := pending.tidy.syncFind path
  split at packed
  · next sh looked hit =>
    simp only [removesPath, hit] at kept ring entries tidy
    obtain ⟨member, -⟩ := pending.tidy.found (congrArg Prod.fst hit)
    have waits := (pending.tidy.refers sh member).pending
    have deleted : Tidy (hashDel sh looked) := tidy.hashDel (entries.symm ▸ member) rfl fun _ _ => rfl
    have fewer : PendingFiles { client with queue := hashDel sh looked } :=
      pending.of_subset deleted fun other kept => entries ▸ List.mem_of_mem_erase kept
    have node : Client.node { client with queue := hashDel sh looked } sh.loc = client.queue.sq.node sh.loc := by
      simp only [Client.node, hashDel, ring]
    exact fewer.syncPackWrite_regular (node ▸ waits) packed regular kept
  · exact Except.ok.inj packed ▸ regular

end PendingFiles

end DeltaCFS
