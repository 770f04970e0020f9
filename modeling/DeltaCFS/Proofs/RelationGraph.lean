import DeltaCFS.Proofs.Client.RegularFiles
import DeltaCFS.ToMathlib.Acyclic

/-! # The graph of relations

The live relations lead from each path to at most one other, and never back: `xmp_rename` enters a
relation to a target whose own one it has deleted, `xmp_unlink` one to a temporary name, which never
has a relation. So the recursion of `sync_pack_write`, which follows them, ends.
-/

namespace DeltaCFS

open Relation

variable {env : Env} {client after : Client} {path source target src dst : Path} {rel rel' : RelTable} {slot : ℕ}
  {time : UInt64} {res : ℤ}

/-! ## Edges -/

/-- The node of a slot is that of a live relation. -/
def RelTable.Live (rel : RelTable) (slot : ℕ) : Prop :=
  slot < queueSize ∧ (rel.rq.node slot).isEmpty = false ∧ (rel.rq.node slot).isDelete = false

instance (rel : RelTable) (slot : ℕ) : Decidable (rel.Live slot) := inferInstanceAs (Decidable (_ ∧ _))

/-- There is a live relation from `src` to `dst`. -/
def RelTable.Edge (rel : RelTable) (src dst : Path) : Prop :=
  ∃ slot, rel.Live slot ∧ (rel.rq.node slot).src = src ∧ (rel.rq.node slot).dst = dst

namespace RelTable.Sane

/-- A path has at most one live relation. -/
theorem live_unique (sane : rel.Sane) {slot slot' : ℕ} (live : rel.Live slot) (live' : rel.Live slot')
    (same : (rel.rq.node slot).src = (rel.rq.node slot').src) : slot = slot' := by
  obtain ⟨fifo, consistent⟩ := sane
  obtain ⟨bound, occupied, alive⟩ := live
  obtain ⟨bound', occupied', alive'⟩ := live'
  exact consistent.slot_unique ((consistent.queued.flags _ bound).mp occupied)
    ((consistent.queued.flags _ bound').mp occupied') alive alive' same

/-- The edges are what lookups find. -/
theorem edge_iff (sane : rel.Sane) : rel.Edge src dst ↔ ∃ time, rel.Related src dst time := by
  obtain ⟨fifo, consistent⟩ := sane
  constructor
  · rintro ⟨slot, ⟨bound, occupied, alive⟩, rfl, rfl⟩
    have entry := (consistent.entries ⟨(rel.rq.node slot).src, slot⟩).mpr
      ⟨(consistent.queued.flags slot bound).mp occupied, alive, rfl⟩
    exact ⟨_, ⟨_, slot⟩, consistent.relFind_eq_some.mpr ⟨entry, rfl⟩, rfl, rfl⟩
  · rintro ⟨time, rh, found, rfl, rfl⟩
    obtain ⟨member, rfl⟩ := consistent.relFind_eq_some.mp found
    obtain ⟨inFifo, alive, named⟩ := (consistent.entries rh).mp member
    have bound := consistent.queued.slot_lt inFifo
    exact ⟨rh.loc, ⟨bound, (consistent.queued.flags _ bound).mpr inFifo, alive⟩, named, rfl⟩

end RelTable.Sane

/-- The relations of user paths form no cycle, and no other path has one. -/
structure Rooted (rel : RelTable) : Prop where
  sane : rel.Sane
  user : ∀ src dst, rel.Edge src dst → UserPath src
  acyclic : Acyclic rel.Edge

namespace Rooted

theorem initial (garbage : ℕ → RelNode) : Rooted (RelTable.initial garbage) := by
  have none : ∀ src dst, ¬ (RelTable.initial garbage).Edge src dst := by
    rintro src dst edge
    obtain ⟨time, related⟩ := (RelTable.Sane.initial garbage).edge_iff.mp edge
    exact RelTable.Sane.not_related_initial garbage related
  refine ⟨.initial garbage, fun src dst edge => absurd edge (none src dst), fun vertex cycle => ?_⟩
  obtain ⟨next, edge, -⟩ := TransGen.head'_iff.mp cycle
  exact none vertex next edge

/-- Relations go. -/
theorem forget (rooted : Rooted rel) (sane : rel'.Sane)
    (fewer : ∀ {src dst time}, rel'.Related src dst time → rel.Related src dst time) : Rooted rel' := by
  have edges : ∀ src dst, rel'.Edge src dst → rel.Edge src dst := by
    intro src dst edge
    obtain ⟨time, related⟩ := sane.edge_iff.mp edge
    exact rooted.sane.edge_iff.mpr ⟨time, fewer related⟩
  exact ⟨sane, fun src dst edge => rooted.user src dst (edges src dst edge), rooted.acyclic.mono edges⟩

/-- A relation to a path that has none. -/
theorem relEnqueue (rooted : Rooted rel) (entered : relEnqueue source target time rel = .ok rel')
    (user : UserPath source) (different : source ≠ target) (sink : ∀ dst, ¬ rel.Edge target dst) : Rooted rel' := by
  obtain ⟨sane, related⟩ := rooted.sane.relEnqueue entered
  have edges : ∀ src dst, rel'.Edge src dst → (src = source ∧ dst = target) ∨ rel.Edge src dst := by
    intro src dst edge
    obtain ⟨version, found⟩ := sane.edge_iff.mp edge
    rcases related found with ⟨here, there, -⟩ | ⟨-, old⟩
    · exact .inl ⟨here, there⟩
    · exact .inr (rooted.sane.edge_iff.mpr ⟨version, old⟩)
  refine ⟨sane, fun src dst edge => ?_, rooted.acyclic.insert edges fun dst edge => ?_⟩
  · rcases edges src dst edge with ⟨rfl, -⟩ | old
    · exact user
    · exact rooted.user src dst old
  · rcases edges target dst edge with ⟨same, -⟩ | old
    · exact different same.symm
    · exact sink dst old

end Rooted

/-! ## Calls -/

/-- The calls on files, on paths outside of `TMP_DIR`, with `source` and `target` different. -/
def OnUserPaths (event : Event) (_ : Client) : Prop :=
  match event.call with
  | .mknod path _ _ | .write path _ _ | .truncate path _ | .unlink path => UserPath path
  | .rename source target | .link source target => UserPath source ∧ UserPath target ∧ source ≠ target
  | .syncExecute | .relDequeue => True
  | _ => False

/-- The unlinked path loses the relations from it and to it before it gets one. -/
theorem Rooted.unlink (rooted : Rooted client.rel) (formed : client.WellFormed) (user : UserPath path)
    (handled : xmpUnlink env path client = .ok (res, after)) : Rooted after.rel := by
  obtain ⟨version, packed, rel, -, packing, forgotten, outcome⟩ := xmpUnlink_eq_ok handled
  obtain ⟨-, same, -⟩ := syncPackWritePath_frame packing formed.queue.tidy
  have left : Rooted rel := by
    obtain ⟨sane, fewer⟩ := rooted.sane.relDeleteDst path
    obtain ⟨sane', fewer'⟩ := sane.relDeleteSrc path
    rw [forgotten, same]
    exact rooted.forget sane' fun related => (fewer (fewer' related).1).1
  rcases outcome with ⟨-, rfl⟩ | ⟨fs, queue, related, -, -, entering, -, rfl⟩
  · exact left
  · exact left.relEnqueue entering user (user.ne_of_prefix (tmpDir_prefix_tmpPath path))
      fun dst edge => left.user _ dst edge (tmpDir_prefix_tmpPath path)

/-- The target loses its relation before there is one to it. -/
theorem Rooted.rename (rooted : Rooted client.rel) (formed : client.WellFormed) (user : UserPath source)
    (different : source ≠ target) (handled : xmpRename env source target client = .ok (res, after)) :
    Rooted after.rel := by
  obtain ⟨version, synced, rel, -, syncing, entering, outcome⟩ := xmpRename_eq_ok handled
  obtain ⟨same, -, -⟩ := renameSync_frame syncing formed.queue
  obtain ⟨sane, fewer⟩ := rooted.sane.replaced target same
  have left := rooted.forget sane fun related => (fewer related).1
  have ready : Rooted rel := by
    refine left.relEnqueue entering user different fun dst edge => ?_
    obtain ⟨time, related⟩ := sane.edge_iff.mp edge
    exact (fewer related).2 rfl
  rcases outcome with ⟨-, rfl⟩ | ⟨fs, -, -, rfl⟩
  · exact ready
  · exact ready

theorem Rooted.step {event : Event} (rooted : Rooted client.rel) (formed : client.WellFormed)
    (allowed : OnUserPaths event client) (stepped : client.next event = .ok after) : Rooted after.rel := by
  obtain ⟨env, call⟩ := event
  obtain ⟨outcome, ran, rfl⟩ := next_eq_ok stepped
  cases call with
  | mknod path mode rdev =>
    obtain ⟨stored, rfl, ⟨-, same⟩ | ⟨fs, packed, queue, -, packing, -, -, same⟩⟩ := xmpMknod_eq_ok (ofHandled_eq_ok ran).1
    · exact same ▸ rooted
    · obtain ⟨-, rel, -⟩ := syncPackWritePath_frame packing formed.queue.tidy
      rw [same]
      exact rel ▸ rooted
  | unlink path => exact rooted.unlink formed allowed (ofHandled_eq_ok ran).1
  | rename source target => exact rooted.rename formed allowed.1 allowed.2.2 (ofHandled_eq_ok ran).1
  | link source target =>
    obtain ⟨version, synced, queue, -, syncing, -, outcome⟩ := xmpLink_eq_ok (ofHandled_eq_ok ran).1
    obtain ⟨rel, -⟩ := linkSync_frame syncing formed.queue
    rcases outcome with ⟨-, same⟩ | ⟨fs, -, -, same⟩
    · rw [same]
      exact rel ▸ rooted
    · rw [same]
      exact rel ▸ rooted
  | truncate path size =>
    obtain ⟨synced, syncing, outcome⟩ := xmpTruncate_eq_ok (ofHandled_eq_ok ran).1
    have rel : synced.rel = client.rel := by
      rcases truncateSync_eq_ok syncing with ⟨-, rfl⟩ | ⟨-, sh, -, rfl⟩ | ⟨-, -, version, queue, -, -, rfl⟩ <;> rfl
    rcases outcome with ⟨-, same⟩ | ⟨fs, -, -, same⟩
    · rw [same]
      exact rel ▸ rooted
    · rw [same]
      exact rel ▸ rooted
  | write path offset data =>
    obtain ⟨synced, syncing, outcome⟩ := xmpWrite_eq_ok (ofHandled_eq_ok ran).1
    have rel : synced.rel = client.rel := by
      rcases writeSync_eq_ok syncing with ⟨sh, -, rfl⟩ | ⟨-, version, queue, -, -, rfl⟩ <;> rfl
    rcases outcome with ⟨-, same⟩ | ⟨fs, -, -, -, same⟩
    · rw [same]
      exact rel ▸ rooted
    · rw [same]
      exact rel ▸ rooted
  | syncExecute =>
    rcases SyncQueue.Holds.syncExecute (step_syncExecute ran).1 formed.queue (Formed.packKeeps env _) with
      ⟨-, same⟩ | ⟨⟨-, rel, -⟩, -⟩
    · exact same ▸ rooted
    · exact rel ▸ rooted
  | relDequeue =>
    obtain rfl := Except.ok.inj ran
    obtain ⟨sane, fewer⟩ := rooted.sane.relDequeue
    exact rooted.forget sane fewer
  | mkdir => exact absurd allowed id
  | rmdir => exact absurd allowed id
  | chmod => exact absurd allowed id
  | chown => exact absurd allowed id
  | utimens => exact absurd allowed id

/-! ## The recursion -/

/-- A client whose relations form no cycle and whose hash refers to pending nodes. -/
structure Grounded (client : Client) : Prop where
  rooted : Rooted client.rel
  tidy : Tidy client.queue

/-- Packing goes to the pending node of the target of a relation. -/
theorem Grounded.edge_of_packsNext (grounded : Grounded client) {next : ℕ} (goes : packsNext client slot = some next) :
    client.rel.Edge (client.node slot).src (client.node next).src ∧ next < queueSize := by
  simp only [packsNext] at goes
  split at goes
  · obtain ⟨rh, found, waiting⟩ := Option.bind_eq_some_iff.mp goes
    obtain ⟨sh, hit, rfl⟩ := Option.map_eq_some_iff.mp waiting
    obtain ⟨member, named⟩ := grounded.tidy.found hit
    obtain ⟨bound, -, -, src⟩ := grounded.tidy.refers sh member
    have edge := grounded.rooted.sane.edge_iff.mpr ⟨_, RelTable.related_of_relFind found⟩
    rw [← named, ← src] at edge
    exact ⟨edge, bound⟩
  · exact absurd goes (by simp)

/-- Following the relations from pending node to pending node ends. -/
theorem Grounded.ends (grounded : Grounded client) (bound : slot < queueSize) :
    ∃ depth < queueSize, Ends (packsNext client) slot depth := by
  have acyclic : Acyclic fun here next => packsNext client here = some next :=
    grounded.rooted.acyclic.comap (fun slot => (client.node slot).src) fun _ _ goes => (grounded.edge_of_packsNext goes).1
  have inside : ∀ other, ReflTransGen (fun here next => packsNext client here = some next) slot other →
      other ∈ Finset.range queueSize := by
    intro other reached
    rw [Finset.mem_range]
    cases reached with
    | refl => exact bound
    | tail _ goes => exact (grounded.edge_of_packsNext goes).2
  have counted := acyclic.induction_on_reach (fun _ stops => Ends.here stops) (fun _ _ _ goes rest => Ends.there goes rest)
    (Finset.range queueSize) slot inside
  rwa [Finset.card_range] at counted

theorem require_ne_diverges {α : Type} {result : Option α} {stop : Stop} (other : stop ≠ .diverges) :
    require stop result ≠ .error .diverges := by
  intro failed
  exact other (require_eq_error.mp failed).2.symm

theorem computeDelta_ne_diverges {originfile newfile basefile : Path} :
    computeDelta env originfile newfile basefile client ≠ .error .diverges := by
  simp only [computeDelta]
  repeat refine Except.bind_ne_error (require_ne_diverges (by decide)) fun _ _ => ?_
  split
  · exact Except.bind_ne_error (require_ne_diverges (by decide)) fun _ _ => by simp [pure, Except.pure]
  · simp

theorem packWrite_ne_diverges : packWrite env slot client ≠ .error .diverges := by
  simp only [packWrite]
  split
  · simp [pure, Except.pure]
  · refine Except.bind_ne_error (require_ne_diverges (by decide)) fun _ _ => ?_
    refine Except.bind_ne_error (require_ne_diverges (by decide)) fun _ _ => ?_
    refine Except.bind_ne_error computeDelta_ne_diverges fun _ _ => ?_
    simp [pure, Except.pure]

/-- With as much fuel as there are nodes on the way `sync_pack_write` comes back. -/
theorem syncPackWrite_ne_diverges {depth fuel : ℕ} (tidy : Tidy client.queue)
    (ends : Ends (packsNext client) slot depth) (enough : depth < fuel) :
    syncPackWrite env fuel slot client ≠ .error .diverges := by
  induction fuel generalizing slot client depth with
  | zero => exact absurd enough (Nat.not_lt_zero _)
  | succ fuel ih =>
    rw [syncPackWrite]
    split
    · next newfile =>
      split
      · simp
      · next rh found =>
        refine Except.bind_ne_error ?_ fun inner _ => ?_
        · obtain ⟨ring, entries, tidy', -⟩ := tidy.syncFind (client.rel.rq.node rh.loc).dst
          cases hit : (syncFind (client.rel.rq.node rh.loc).dst client.queue).1 with
          | none => simp [packFound]
          | some sh =>
            have goes : packsNext client slot = some sh.loc := by simp [packsNext, newfile, found, hit]
            cases ends with
            | here stops => exact absurd (stops.symm.trans goes) (by simp)
            | there goes' rest =>
              obtain rfl := Option.some.inj (goes.symm.trans goes')
              rw [← packsNext_congr client { client with queue := _ } tidy tidy' ring entries rfl] at rest
              have deeper := @ih { client with queue := (syncFind (client.rel.rq.node rh.loc).dst client.queue).2 }
                sh.loc _ tidy' rest (by omega)
              exact Except.bind_ne_error deeper fun _ _ => by simp [pure, Except.pure]
        · refine Except.bind_ne_error computeDelta_ne_diverges fun _ _ => ?_
          refine Except.bind_ne_error (require_ne_diverges (by decide)) fun _ _ => ?_
          split <;> simp [pure, Except.pure]
    · exact packWrite_ne_diverges
    · simp

/-- The recursion of `sync_pack_write` ends at every node. -/
theorem Grounded.syncPackWrite (grounded : Grounded client) (bound : slot < queueSize) :
    syncPackWrite env packFuel slot client ≠ .error .diverges := by
  obtain ⟨depth, few, ends⟩ := grounded.ends bound
  exact syncPackWrite_ne_diverges grounded.tidy ends (by simp only [packFuel]; omega)

/-- A packed node has no entry, so it is not packed again. -/
theorem PackRun.nodup {first last : Client} {touched : List ℕ} (run : PackRun env first last touched)
    (tidy : Tidy first.queue) : touched.Nodup ∧ ∀ sh ∈ last.queue.shs, sh.loc ∉ touched := by
  induction run with
  | refl => exact ⟨List.nodup_nil, fun sh _ => List.not_mem_nil⟩
  | find path before ih =>
    obtain ⟨unique, gone⟩ := ih
    rw [((before.frame tidy).1.syncFind path).2.1]
    exact ⟨unique, gone⟩
  | @pack state packed touched sh before member one _ ih =>
    obtain ⟨unique, gone⟩ := ih
    have good := (before.frame tidy).1
    obtain ⟨-, -, -, ⟨sn, queue, -⟩, -⟩ := one.frame
    refine ⟨List.nodup_append.mpr ⟨unique, List.nodup_singleton _, ?_⟩, fun other kept => ?_⟩
    · rintro slot inside other last rfl
      rw [List.mem_singleton.mp last] at inside
      exact gone sh member inside
    · simp only [hashDel, queue, SyncQueue.modifyNode, good.mem_erase_iff] at kept
      rw [List.mem_append, List.mem_singleton, not_or]
      exact ⟨gone other kept.1, fun same => kept.2 (good.eq_of_loc kept.1 member same)⟩

/-! ## Handlers -/

/-- A function that does not run into an endless recursion. -/
structure Returns {α : Type} (result : Except Stop α) : Prop where
  ne : result ≠ .error .diverges

namespace Returns

theorem ok {α : Type} (value : α) : Returns (.ok value : Except Stop α) := ⟨nofun⟩

theorem bind {α β : Type} {first : Except Stop α} {rest : α → Except Stop β} (head : Returns first)
    (tail : ∀ value, first = .ok value → Returns (rest value)) : Returns (first >>= rest) :=
  ⟨Except.bind_ne_error head.ne fun value ran => (tail value ran).ne⟩

theorem require {α : Type} {stop : Stop} (result : Option α) (other : stop ≠ .diverges) :
    Returns (require stop result) := ⟨require_ne_diverges other⟩

theorem computeDelta (originfile newfile basefile : Path) : Returns (computeDelta env originfile newfile basefile client) :=
  ⟨computeDelta_ne_diverges⟩

theorem enqueue (op : Op) (src dst : Path) (para : Option (Fin 5 → UInt64)) (bn : Option (List BufInfo))
    (localtime baseVersion : UInt64) (client : Client) :
    Returns (client.enqueue op src dst para bn localtime baseVersion) := by
  refine bind ⟨?_⟩ fun _ _ => ok _
  simp only [syncEnqueue]
  split <;> simp

theorem relEnqueue (src dst : Path) (localtime : UInt64) (client : Client) :
    Returns (client.relEnqueue src dst localtime) := by
  refine bind ⟨?_⟩ fun _ _ => ok _
  simp only [DeltaCFS.relEnqueue]
  split <;> simp

end Returns

namespace Grounded

/-- The rest of the client does not matter. -/
theorem congr (grounded : Grounded client) (rel : after.rel = client.rel) (queue : after.queue = client.queue) :
    Grounded after :=
  ⟨rel ▸ grounded.rooted, queue ▸ grounded.tidy⟩

theorem packPath (grounded : Grounded client) (path : Path) : Returns (syncPackWritePath env path client) := by
  rw [syncPackWritePath_eq]
  obtain ⟨-, entries, tidy, -⟩ := grounded.tidy.syncFind path
  split
  · next sh looked hit =>
    simp only [hit] at entries tidy
    obtain ⟨member, -⟩ := grounded.tidy.found (congrArg Prod.fst hit)
    have deleted : Grounded { client with queue := hashDel sh looked } :=
      ⟨grounded.rooted, tidy.hashDel (entries.symm ▸ member) rfl fun _ _ => rfl⟩
    exact ⟨deleted.syncPackWrite (grounded.tidy.refers sh member).bound⟩
  · exact Returns.ok _

theorem packed (grounded : Grounded client) (packed : syncPackWritePath env path client = .ok after) :
    Grounded after := by
  obtain ⟨-, rel, -⟩ := syncPackWritePath_frame packed grounded.tidy
  exact ⟨rel ▸ grounded.rooted, (syncPackWritePath_entries packed grounded.tidy).1⟩

theorem computed {originfile newfile basefile deltaFile : Path} (grounded : Grounded client)
    (computing : computeDelta env originfile newfile basefile client = .ok (deltaFile, after)) : Grounded after := by
  obtain ⟨old, new, delta, facts⟩ := computeDelta_eq_ok computing
  obtain ⟨_, _, _, _, _, _, _, rfl⟩ := facts.files
  exact grounded.congr rfl rfl

theorem packHead (grounded : Grounded client) (bound : client.queue.sq.head < queueSize) :
    Returns (packHead env client) := by
  simp only [DeltaCFS.packHead]
  split
  · obtain ⟨-, entries, tidy, -⟩ := grounded.tidy.syncFind (client.node client.queue.sq.head).src
    cases hit : (syncFind (client.node client.queue.sq.head).src client.queue).1 with
    | none =>
      have looked : Grounded { client with queue := (syncFind (client.node client.queue.sq.head).src client.queue).2 } :=
        ⟨grounded.rooted, tidy⟩
      exact ⟨looked.syncPackWrite bound⟩
    | some sh =>
      have member := (grounded.tidy.found hit).1
      have deleted : Grounded { client with
          queue := hashDel sh (syncFind (client.node client.queue.sq.head).src client.queue).2 } :=
        ⟨grounded.rooted, tidy.hashDel (entries.symm ▸ member) rfl fun _ _ => rfl⟩
      exact ⟨deleted.syncPackWrite bound⟩
  · exact Returns.ok _

theorem renameSync {fromVersion newTimestamp : UInt64} (grounded : Grounded client) :
    Returns (renameSync env source target fromVersion newTimestamp client) := by
  simp only [DeltaCFS.renameSync]
  split
  · refine (grounded.packPath target).bind fun packed _ => ?_
    refine (Returns.require _ (by decide)).bind fun _ _ => (Returns.computeDelta ..).bind fun _ _ => ?_
    exact (Returns.enqueue ..).bind fun _ _ => Returns.enqueue ..
  · split
    · exact (grounded.packPath source).bind fun _ _ => Returns.enqueue ..
    · next rh _ =>
      refine (Returns.computeDelta ..).bind fun value computing => ?_
      obtain ⟨deltaFile, computed⟩ := value
      refine (Returns.require _ (by decide)).bind fun _ _ => ?_
      have ready := grounded.computed computing
      dsimp only
      split
      · exact (Returns.enqueue ..).bind fun _ _ => Returns.enqueue ..
      · have stamped : Grounded (recfsUpdateTimestamp target newTimestamp computed) := ready.congr rfl rfl
        exact (stamped.packPath source).bind fun _ _ => Returns.enqueue ..

theorem linkSync {fromVersion : UInt64} (grounded : Grounded client) :
    Returns (linkSync env source target fromVersion client) := by
  simp only [DeltaCFS.linkSync]
  split
  · refine (grounded.packPath _).bind fun first packing => ?_
    refine ((grounded.packed packing).packPath source).bind fun second _ => ?_
    refine (Returns.computeDelta ..).bind fun _ _ => (Returns.require _ (by decide)).bind fun _ _ => ?_
    split
    · exact (Returns.enqueue ..).bind fun _ _ => Returns.ok _
    · exact Returns.ok _
  · exact Returns.ok _

theorem mknod {mode rdev : ℕ} (grounded : Grounded client) : Returns (xmpMknod env path mode rdev client) := by
  have stored : Grounded (recfsUpdateTimestamp path (increaseRecfsCnt client).1 (increaseRecfsCnt client).2) :=
    grounded.congr rfl rfl
  rcases syscall_cases env (·.openExcl path) 0
    (recfsUpdateTimestamp path (increaseRecfsCnt client).1 (increaseRecfsCnt client).2) with
    ⟨errno, called⟩ | ⟨-, fs, -, called⟩
  · simp only [xmpMknod, called, errno.neg_code, ↓reduceIte]
    exact Returns.ok _
  · simp only [xmpMknod, called, lt_irrefl, ↓reduceIte]
    refine (packPath ?_ path).bind fun _ _ => (Returns.enqueue ..).bind fun _ _ => Returns.ok _
    exact stored.congr rfl rfl

theorem unlink (grounded : Grounded client) : Returns (xmpUnlink env path client) := by
  refine (Returns.require _ (by decide)).bind fun version _ => (grounded.packPath path).bind fun packed _ => ?_
  rcases syscall_cases env (·.rename path (tmpPath path)) 0 { packed with
    rel := relDeleteSrc path (relDeleteDst path packed.rel) } with ⟨errno, called⟩ | ⟨-, fs, -, called⟩
  · simp only [called, errno.neg_code, ↓reduceIte]
    exact Returns.ok _
  · simp only [called, lt_irrefl, ↓reduceIte]
    exact (Returns.enqueue ..).bind fun _ _ => (Returns.relEnqueue ..).bind fun _ _ => Returns.ok _

theorem rename (grounded : Grounded client) : Returns (xmpRename env source target client) := by
  refine (Returns.require _ (by decide)).bind fun version _ => ?_
  have begun : Grounded (increaseRecfsCnt (recfsDelTimestamp source client)).2 := grounded.congr rfl rfl
  refine begun.renameSync.bind fun _ _ => ?_
  exact (Returns.relEnqueue ..).bind fun _ _ => Returns.ok _

theorem link (grounded : Grounded client) : Returns (xmpLink env source target client) := by
  refine (Returns.require _ (by decide)).bind fun version _ => grounded.linkSync.bind fun _ _ => ?_
  exact (Returns.enqueue ..).bind fun _ _ => Returns.ok _

theorem truncate {size : ℕ} : Returns (xmpTruncate env path size client) := by
  refine Returns.bind ?_ fun _ _ => Returns.ok _
  simp only [truncateSync]
  split
  · exact Returns.ok _
  · split
    · split <;> exact Returns.ok _
    · exact (Returns.require _ (by decide)).bind fun _ _ => Returns.enqueue ..

theorem write {offset : ℕ} {data : Bytes} : Returns (xmpWrite env path offset data client) := by
  refine Returns.bind ?_ fun _ _ => Returns.ok _
  simp only [writeSync]
  split
  · split <;> exact Returns.ok _
  · exact (Returns.require _ (by decide)).bind fun _ _ => Returns.enqueue ..

end Grounded

/-- No call runs into an endless recursion. -/
theorem Grounded.next {event : Event} (grounded : Grounded client) (bound : client.queue.sq.head < queueSize)
    (allowed : OnUserPaths event client) : Returns (client.next event) := by
  obtain ⟨env, call⟩ := event
  refine Returns.bind ?_ fun _ _ => Returns.ok _
  cases call with
  | mknod path mode rdev => exact grounded.mknod.bind fun _ _ => Returns.ok _
  | unlink path => exact grounded.unlink.bind fun _ _ => Returns.ok _
  | rename source target => exact grounded.rename.bind fun _ _ => Returns.ok _
  | link source target => exact grounded.link.bind fun _ _ => Returns.ok _
  | truncate path size => exact Grounded.truncate.bind fun _ _ => Returns.ok _
  | write path offset data => exact Grounded.write.bind fun _ _ => Returns.ok _
  | syncExecute =>
    refine Returns.bind ?_ fun _ _ => Returns.ok _
    simp only [syncExecute]
    split
    · exact Returns.ok _
    · exact (grounded.packHead bound).bind fun _ _ => Returns.ok _
  | relDequeue => exact Returns.ok _
  | mkdir => exact absurd allowed id
  | rmdir => exact absurd allowed id
  | chmod => exact absurd allowed id
  | chown => exact absurd allowed id
  | utimens => exact absurd allowed id

/-! ## Runs -/

theorem Rooted.of_run {memory : Memory} {dirSize : Path → ℕ}
    (run : Transition.Run Client.next OnUserPaths (Client.initial memory dirSize) client) : Rooted client.rel := by
  have both : Rooted client.rel ∧ client.WellFormed :=
    run.invariant (fun state => Rooted state.rel ∧ state.WellFormed)
      (fun good allowed stepped => ⟨good.1.step good.2 allowed stepped, good.2.step stepped⟩)
      ⟨.initial memory.relNode, .initial memory dirSize⟩
  exact both.1

/-- In every state that calls on files outside of `TMP_DIR` lead to, no path has two live relations and
they form no cycle. Wherever a call packs a pending node of that state, whatever entries it has already
removed, `sync_pack_write` comes back, having packed no node twice, and so every call does. -/
theorem relations_acyclic (memory : Memory) (dirSize : Path → ℕ) (client : Client)
    (run : Transition.Run Client.next OnUserPaths (Client.initial memory dirSize) client) :
    (∀ slot slot', client.rel.Live slot → client.rel.Live slot' →
      (client.rel.rq.node slot).src = (client.rel.rq.node slot').src → slot = slot') ∧
    (∀ path, ¬ TransGen client.rel.Edge path path) ∧
    Tidy client.queue ∧
    (∀ env state slot, state.rel = client.rel → Tidy state.queue → slot < queueSize → (state.node slot).Pending →
      syncPackWrite env packFuel slot state ≠ .error .diverges ∧
      ∀ after, syncPackWrite env packFuel slot state = .ok after → ∃ middle touched,
        PackRun env state middle touched ∧ PackedOne env slot middle after ∧ (touched ++ [slot]).Nodup) ∧
    ∀ event, OnUserPaths event client → client.next event ≠ .error .diverges := by
  have rooted := Rooted.of_run run
  have formed := Client.WellFormed.of_run run
  have grounded : Grounded client := ⟨rooted, formed.queue.tidy⟩
  refine ⟨fun slot slot' => rooted.sane.live_unique, rooted.acyclic, formed.queue.tidy,
    fun env state slot rel tidy bound pending => ⟨?_, fun after packed => ?_⟩, fun event allowed => ?_⟩
  · exact Grounded.syncPackWrite ⟨rel ▸ rooted, tidy⟩ bound
  · obtain ⟨middle, touched, -, steps, apart, one, -⟩ := syncPackWrite_run tidy pending packed
    refine ⟨middle, touched, steps, one, List.nodup_append.mpr ⟨(steps.nodup tidy).1, List.nodup_singleton _, ?_⟩⟩
    rintro other inside last here rfl
    exact apart (List.mem_singleton.mp here ▸ inside)
  · obtain ⟨nodes, ⟨fifo, queued, -⟩, -⟩ := formed.queue.lists
    exact (grounded.next queued.head_lt allowed).ne

/-- A file is renamed and written to, and there is a new one under its old name: packing that one goes
to the written one. -/
def renamedAndReplaced : List Event :=
  [⟨.plain, .mknod [47, 97] 33188 0⟩, ⟨.plain, .rename [47, 97] [47, 98]⟩, ⟨.plain, .write [47, 98] 0 [1]⟩,
    ⟨.plain, .mknod [47, 97] 33188 0⟩]

theorem relations_acyclic_replaced :
    ∃ client, Transition.replay Client.next renamedAndReplaced Client.empty = .ok client ∧
      packsNext client 3 = some 2 ∧ syncPackWrite .plain packFuel 3 client ≠ .error .diverges := by
  have replayed : ∃ client, Transition.replay Client.next renamedAndReplaced Client.empty = .ok client ∧
      (packsNext client 3 = some 2 ∧ (client.node 3).Pending) := Except.exists_ok (by decide +kernel)
  obtain ⟨client, replayed, next, pending⟩ := replayed
  have allowed : Transition.AllAllowed Client.next OnUserPaths renamedAndReplaced Client.empty := by
    refine ⟨?_, fun _ _ => ⟨?_, fun _ _ => ⟨?_, fun _ _ => ⟨?_, fun _ _ => trivial⟩⟩⟩⟩ <;> simp only [OnUserPaths] <;> decide
  have run := Transition.Run.of_replay renamedAndReplaced allowed replayed
  obtain ⟨-, -, tidy, packs, -⟩ := relations_acyclic _ _ client run
  exact ⟨client, replayed, next, (packs .plain client 3 rfl tidy (by decide) pending).1⟩

end DeltaCFS
