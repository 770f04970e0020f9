import DeltaCFS.Proofs.Client.Backed

/-! # Assertions of the client

`recfs_get_timestamp` asserts that its key is there, and the callers of `compute_delta` that it
succeeded. On calls that the kernel lets through, neither fails as long as a relation that is followed
leads to a file: relations outlive their targets, and one of them may lead to the very file whose
version `xmp_rename` has just deleted.
-/

namespace DeltaCFS

variable {env : Env} {client after : Client} {path source target dst : Path} {rel : RelTable} {queue : SyncQueue}
  {slot fuel : ℕ}

instance (fs : FileSystem) (path : Path) : Decidable (fs.Regular path) :=
  decidable_of_iff ((fs.read path).isSome = true) (Option.isSome_iff_exists.trans FileSystem.regular_iff_read.symm)

/-! ## Calls -/

/-- What the kernel makes sure of before it calls a handler for a regular file, with system calls that
succeed on files that exist. -/
def Granted (event : Event) (client : Client) : Prop :=
  (event.env.openFails = false ∧ event.env.callFails = none) ∧
    match event.call with
    | .mknod path _ _ => UserPath path ∧ client.fs.entry path = none
    | .write path _ _ | .truncate path _ | .unlink path => UserPath path ∧ client.fs.Regular path
    | .rename source target => UserPath source ∧ UserPath target ∧ source ≠ target ∧ client.fs.Regular source
    | .link source target =>
      UserPath source ∧ UserPath target ∧ client.fs.Regular source ∧ client.fs.entry target = none
    | .syncExecute | .relDequeue => True
    | _ => False

/-- The relations that packing the node of the path follows lead to files. -/
def Client.Leads (client : Client) (path : Path) (spared : Path → Prop) : Prop :=
  ∀ dst ∈ followsPath client.rel path client.queue, client.fs.Regular dst ∧ spared dst

/-- A rename to a name that does not exist, after the lookup of its relation. -/
def Client.RenameHolds (client : Client) (source : Path) : Option RelHash → Prop
  | none => client.Leads source fun dst => dst ≠ source
  | some rh =>
    let rn := client.rel.rq.node rh.loc
    (client.fs.Regular rn.dst ∧ rn.dst ≠ source) ∧
      (client.db rn.dst = some rn.time ∨ client.Leads source fun dst => dst ≠ source ∧ dst ≠ sigPath rn.dst)

/-- A link, after the lookup of the relation of its name. -/
def Client.LinkHolds (client : Client) (source : Path) : Option RelHash → Prop
  | none => True
  | some rh =>
    let rn := client.rel.rq.node rh.loc
    (client.fs.Regular rn.dst ∧ rn.dst ∉ removesPath client.fs client.rel source (syncFind rn.dst client.queue).2) ∧
      client.Leads rn.dst (fun _ => True) ∧
      client.Leads source fun dst => dst ∉ removesPath client.fs client.rel rn.dst client.queue

/-- The relations that the call follows lead to files that it neither renames nor removes itself, and
it moves no file onto another name of its own inode. -/
def RelationsHold (event : Event) (client : Client) : Prop :=
  match event.call with
  | .unlink path => ¬ client.fs.Same path (tmpPath path) ∧ client.Leads path fun _ => True
  | .rename source target =>
    ¬ client.fs.Same source target ∧
      if client.opens event.env target then client.Leads target fun dst => dst ≠ source
      else client.RenameHolds source (relFind target client.rel)
  | .link source target => client.LinkHolds source (relFind target client.rel)
  | .syncExecute =>
    (client.node client.queue.sq.head).isEmpty = true ∨ ¬ (client.node client.queue.sq.head).Pending ∨
      client.Leads (client.node client.queue.sq.head).src fun _ => True
  | _ => True

instance (event : Event) (client : Client) : Decidable (Granted event client) :=
  match event with
  | ⟨_, .mknod ..⟩ | ⟨_, .write ..⟩ | ⟨_, .truncate ..⟩ | ⟨_, .unlink ..⟩ => inferInstanceAs (Decidable (_ ∧ _ ∧ _))
  | ⟨_, .rename ..⟩ | ⟨_, .link ..⟩ => inferInstanceAs (Decidable (_ ∧ _ ∧ _ ∧ _ ∧ _))
  | ⟨_, .syncExecute⟩ | ⟨_, .relDequeue⟩ => inferInstanceAs (Decidable (_ ∧ True))
  | ⟨_, .mkdir ..⟩ | ⟨_, .rmdir ..⟩ | ⟨_, .chmod ..⟩ | ⟨_, .chown ..⟩ | ⟨_, .utimens ..⟩ =>
    inferInstanceAs (Decidable (_ ∧ False))

instance (client : Client) (path : Path) (spared : Path → Prop) [DecidablePred spared] :
    Decidable (client.Leads path spared) :=
  inferInstanceAs (Decidable (∀ _ ∈ _, _ ∧ _))

instance (client : Client) (source : Path) : ∀ found, Decidable (client.RenameHolds source found)
  | none => inferInstanceAs (Decidable (client.Leads _ _))
  | some _ => inferInstanceAs (Decidable ((_ ∧ _) ∧ (_ ∨ client.Leads _ _)))

instance (client : Client) (source : Path) : ∀ found, Decidable (client.LinkHolds source found)
  | none => isTrue trivial
  | some _ => inferInstanceAs (Decidable ((_ ∧ _) ∧ client.Leads _ _ ∧ client.Leads _ _))

instance (event : Event) (client : Client) : Decidable (RelationsHold event client) :=
  match event with
  | ⟨_, .unlink _⟩ => inferInstanceAs (Decidable (_ ∧ client.Leads _ _))
  | ⟨_, .rename ..⟩ => inferInstanceAs (Decidable (_ ∧ ite _ _ _))
  | ⟨_, .link ..⟩ => inferInstanceAs (Decidable (client.LinkHolds _ _))
  | ⟨_, .syncExecute⟩ => inferInstanceAs (Decidable (_ ∨ _ ∨ client.Leads _ _))
  | ⟨_, .mknod ..⟩ | ⟨_, .write ..⟩ | ⟨_, .truncate ..⟩ | ⟨_, .relDequeue⟩ | ⟨_, .mkdir ..⟩ | ⟨_, .rmdir ..⟩
  | ⟨_, .chmod ..⟩ | ⟨_, .chown ..⟩ | ⟨_, .utimens ..⟩ => isTrue trivial

/-! ## The relations on the way -/

theorem related_of_mem_follows (member : dst ∈ follows rel fuel slot queue) : ∃ src time, rel.Related src dst time := by
  induction fuel generalizing slot queue with
  | zero => exact absurd member List.not_mem_nil
  | succ fuel ih =>
    rw [follows] at member
    split at member
    · exact absurd member List.not_mem_nil
    · next rn related =>
      obtain ⟨-, rh, found, rfl⟩ := relationOf_eq_some related
      rcases List.mem_cons.mp member with rfl | deeper
      · exact ⟨_, _, RelTable.related_of_relFind found⟩
      · split at deeper
        · exact ih deeper
        · exact absurd deeper List.not_mem_nil

theorem related_of_mem_followsPath (member : dst ∈ followsPath rel path queue) : ∃ src time, rel.Related src dst time := by
  simp only [followsPath] at member
  split at member
  · exact related_of_mem_follows member
  · exact absurd member List.not_mem_nil

/-- A relation on the way to a file leads to a version. -/
theorem Backed.version_of_follows (backed : Backed client) (member : dst ∈ followsPath client.rel path client.queue)
    (regular : client.fs.Regular dst) : (client.db dst).isSome := by
  obtain ⟨src, time, related⟩ := related_of_mem_followsPath member
  exact backed.version_of_related related regular

/-! ## Handlers -/

/-- A function in which no lookup of a version and no `compute_delta` fails. -/
structure AssertsHold {α : Type} (result : Except Stop α) : Prop where
  timestamp : result ≠ .error .timestamp
  delta : result ≠ .error .delta

namespace AssertsHold

theorem ok {α : Type} (value : α) : AssertsHold (.ok value : Except Stop α) := ⟨nofun, nofun⟩

theorem bind {α β : Type} {first : Except Stop α} {rest : α → Except Stop β} (head : AssertsHold first)
    (tail : ∀ value, first = .ok value → AssertsHold (rest value)) : AssertsHold (first >>= rest) where
  timestamp := Except.bind_ne_error head.timestamp fun value ran => (tail value ran).timestamp
  delta := Except.bind_ne_error head.delta fun value ran => (tail value ran).delta

theorem require {α : Type} {stop : Stop} {result : Option α} (present : result.isSome) :
    AssertsHold (require stop result) := by
  obtain ⟨value, rfl⟩ := Option.isSome_iff_exists.mp present
  exact ok value

theorem enqueue (op : Op) (src dst : Path) (para : Option (Fin 5 → UInt64)) (bn : Option (List BufInfo))
    (localtime baseVersion : UInt64) (client : Client) :
    AssertsHold (client.enqueue op src dst para bn localtime baseVersion) := by
  refine bind ?_ fun _ _ => ok _
  simp only [syncEnqueue]
  split
  · exact ok _
  · exact ⟨by simp, by simp⟩

theorem relEnqueue (src dst : Path) (localtime : UInt64) (client : Client) :
    AssertsHold (client.relEnqueue src dst localtime) := by
  refine bind ?_ fun _ _ => ok _
  simp only [DeltaCFS.relEnqueue]
  split
  · exact ok _
  · exact ⟨by simp, by simp⟩

/-- `compute_delta` of two files that exist. -/
theorem computeDelta {originfile newfile : Path} (env : Env) (basefile : Path) (noDir : client.fs.NoDir)
    (old : client.fs.Regular originfile) (user : UserPath newfile) (new : client.fs.Regular newfile) :
    AssertsHold (DeltaCFS.computeDelta env originfile newfile basefile client) := by
  rcases computeDelta_cases env basefile noDir old user new with ⟨deltaFile, after, computing⟩ | ⟨full, -⟩
  · rw [computing]
    exact ok _
  · rw [full]
    exact ⟨by simp, by simp⟩

end AssertsHold

namespace Backed

theorem packPath (pending : PendingFiles client)
    (leads : ∀ dst ∈ followsPath client.rel path client.queue, client.fs.Regular dst ∧ (client.db dst).isSome) :
    AssertsHold (syncPackWritePath env path client) :=
  ⟨pending.packPath_ne_error (.inl rfl) leads, pending.packPath_ne_error (.inr rfl) leads⟩

theorem version_of_leads {spared : Path → Prop} (backed : Backed client) (leads : client.Leads path spared) :
    ∀ dst ∈ followsPath client.rel path client.queue, client.fs.Regular dst ∧ (client.db dst).isSome := by
  intro dst member
  obtain ⟨regular, -⟩ := leads dst member
  exact ⟨regular, backed.version_of_follows member regular⟩

/-- Nothing waits for a name in the temporary directory. -/
theorem packPath_temporary (backed : Backed client) (temporary : tmpDir <+: path)
    (packed : syncPackWritePath env path client = .ok after) :
    after = { client with queue := (syncFind path client.queue).2 } := by
  rcases syncPackWritePath_run packed backed.table.tidy with ⟨-, rfl⟩ | ⟨sh, -, -, member, named, -⟩
  · rfl
  · exact absurd temporary (backed.waits path ⟨sh, member, named⟩).1

theorem assert_mknod {mode rdev : ℕ} (backed : Backed client) (absent : client.fs.entry path = none) :
    AssertsHold (xmpMknod env path mode rdev client) := by
  rcases syscall_cases env (·.openExcl path) 0
    (recfsUpdateTimestamp path (increaseRecfsCnt client).1 (increaseRecfsCnt client).2) with
    ⟨errno, called⟩ | ⟨-, fs, -, called⟩
  · simp only [xmpMknod, called, errno.neg_code, ↓reduceIte]
    exact .ok _
  · simp only [xmpMknod, called, lt_irrefl, ↓reduceIte]
    refine AssertsHold.bind ?_ fun _ _ => (AssertsHold.enqueue ..).bind fun _ _ => .ok _
    -- nothing waits for a file that did not exist
    rw [syncPackWritePath_eq]
    split
    · next sh looked hit =>
      obtain ⟨member, named⟩ := backed.table.tidy.found (congrArg Prod.fst hit)
      obtain ⟨-, ino, found⟩ := backed.waits path ⟨sh, member, named⟩
      exact absurd (absent.symm.trans found) (by simp)
    · exact .ok _

theorem assert_unlink {spared : Path → Prop} (backed : Backed client) (user : UserPath path)
    (regular : client.fs.Regular path) (leads : client.Leads path spared) : AssertsHold (xmpUnlink env path client) := by
  refine (AssertsHold.require (backed.known path user regular)).bind fun version _ => ?_
  refine (packPath backed.pending (backed.version_of_leads leads)).bind fun packed _ => ?_
  rcases syscall_cases env (·.rename path (tmpPath path)) 0 { packed with
    rel := relDeleteSrc path (relDeleteDst path packed.rel) } with ⟨errno, called⟩ | ⟨-, fs, -, called⟩
  · simp only [called, errno.neg_code, ↓reduceIte]
    exact .ok _
  · simp only [called, lt_irrefl, ↓reduceIte]
    exact (AssertsHold.enqueue ..).bind fun _ _ => (AssertsHold.relEnqueue ..).bind fun _ _ => .ok _

/-- The branches of `xmp_rename`, when the version of the source is gone. -/
theorem assert_renameSync {fromVersion newTimestamp cnt : UInt64} (backed : Backed client) (user : UserPath source)
    (user' : UserPath target) (different : source ≠ target) (regular : client.fs.Regular source)
    (holds : if client.opens env target then client.Leads target fun dst => dst ≠ source
      else client.RenameHolds source (relFind target client.rel)) :
    AssertsHold (renameSync env source target fromVersion newTimestamp
      { client with recfsCnt := cnt, db := Function.update client.db source none }) := by
  have pending : PendingFiles { client with recfsCnt := cnt, db := Function.update client.db source none } :=
    ⟨backed.pending.tidy, backed.pending.noDir, backed.pending.waits⟩
  have tidy := backed.pending.tidy
  have known (dst : Path) (version : (client.db dst).isSome) (here : dst ≠ source) :
      (Function.update client.db source none dst).isSome := by
    rwa [Function.update_of_ne here]
  have leads {path : Path} (leads : client.Leads path fun dst => dst ≠ source) (dst : Path)
      (member : dst ∈ followsPath client.rel path client.queue) :
      client.fs.Regular dst ∧ (Function.update client.db source none dst).isSome := by
    obtain ⟨there, here⟩ := leads dst member
    exact ⟨there, known dst (backed.version_of_follows member there) here⟩
  simp only [renameSync]
  split
  · next opened =>
    have opened : client.opens env target = true := opened
    rw [if_pos opened] at holds
    have there : client.fs.Regular target := by
      simp only [Client.opens, Bool.and_eq_true] at opened
      rcases backed.noDir.entry_cases target with absent | there
      · exact absurd opened.2 (by simp [absent])
      · exact there
    refine (packPath pending (leads holds)).bind fun packed packing => ?_
    obtain ⟨-, names⟩ := pending.packPath packing
    obtain ⟨db, -, -⟩ := syncPackWritePath_frame packing tidy
    have version : (packed.db target).isSome := by
      rw [db]
      exact known target (backed.known target user' there) different.symm
    refine (AssertsHold.require version).bind fun _ _ => ?_
    refine (AssertsHold.computeDelta env target names.noDir ((names.regular_iff user').mpr there) user
      ((names.regular_iff user).mpr regular)).bind fun _ _ => ?_
    exact (AssertsHold.enqueue ..).bind fun _ _ => .enqueue ..
  · next closed =>
    have closed : ¬ client.opens env target = true := closed
    rw [if_neg closed] at holds
    split
    · next unrelated =>
      have unrelated : relFind target client.rel = none := unrelated
      rw [unrelated] at holds
      exact (packPath pending (leads holds)).bind fun _ _ => .enqueue ..
    · next rh related =>
      have related : relFind target client.rel = some rh := related
      rw [related] at holds
      obtain ⟨⟨there, here⟩, follows⟩ := holds
      have version := known _ (backed.version_of_related (RelTable.related_of_relFind related) there) here
      refine (AssertsHold.computeDelta env _ pending.noDir there user regular).bind fun value computing => ?_
      obtain ⟨deltaFile, computed⟩ := value
      have names := (FileSystem.SameNames.temporary _).computeDelta computing (.refl pending.noDir)
      obtain ⟨old, new, delta, facts⟩ := computeDelta_eq_ok computing
      have stays {dst : Path} (there : client.fs.Regular dst) (kept : dst ≠ sigPath (client.rel.rq.node rh.loc).dst) :
          computed.fs.Regular dst := facts.regular there kept
      obtain ⟨_, _, _, _, _, _, _, rfl⟩ := facts.files
      refine (AssertsHold.require version).bind fun check found => ?_
      dsimp only
      split
      · exact (AssertsHold.enqueue ..).bind fun _ _ => .enqueue ..
      · next changed =>
        refine (packPath ?_ fun dst member => ?_).bind fun _ _ => .enqueue ..
        · exact pending.of_names rfl names
        · rcases follows with current | follows
          · have found := require_eq_ok.mp found
            simp only [Function.update_of_ne here, current] at found
            exact absurd (Option.some.inj found).symm changed
          · obtain ⟨there, here, kept⟩ := follows dst member
            refine ⟨stays there kept, isSome_update ?_⟩
            exact known dst (backed.version_of_follows member there) here

theorem assert_rename (backed : Backed client) (user : UserPath source) (user' : UserPath target)
    (different : source ≠ target) (regular : client.fs.Regular source)
    (holds : if client.opens env target then client.Leads target fun dst => dst ≠ source
      else client.RenameHolds source (relFind target client.rel)) : AssertsHold (xmpRename env source target client) := by
  refine (AssertsHold.require (backed.known source user regular)).bind fun version _ => ?_
  refine (backed.assert_renameSync user user' different regular holds :).bind fun _ _ => ?_
  exact (AssertsHold.relEnqueue ..).bind fun _ _ => .ok _

theorem assert_link (backed : Backed client) (user : UserPath source) (regular : client.fs.Regular source)
    (holds : client.LinkHolds source (relFind target client.rel)) : AssertsHold (xmpLink env source target client) := by
  refine (AssertsHold.require (backed.known source user regular)).bind fun version _ => AssertsHold.bind ?_
    fun _ _ => (AssertsHold.enqueue ..).bind fun _ _ => .ok _
  simp only [linkSync]
  split
  · next rh related =>
    rw [related] at holds
    obtain ⟨⟨there, kept⟩, leads, leads'⟩ := holds
    have tidy := backed.table.tidy
    refine (packPath backed.pending (backed.version_of_leads leads)).bind fun first packing => ?_
    obtain ⟨pending, names⟩ := backed.pending.packPath packing
    obtain ⟨db, rel, -⟩ := syncPackWritePath_frame packing tidy
    refine (packPath pending fun dst member => ?_).bind fun second packing' => ?_
    · rw [rel] at member
      have fewer := syncPackWritePath_kept packing backed.pending.tidy
      have member := followsPath_subset tidy pending.tidy fewer member
      obtain ⟨there, kept⟩ := leads' dst member
      exact ⟨backed.pending.packPath_regular packing there kept, db ▸ backed.version_of_follows member there⟩
    · obtain ⟨-, names'⟩ := pending.packPath packing'
      obtain ⟨db', -, -⟩ := syncPackWritePath_frame packing' pending.tidy
      have still : second.fs.Regular (client.rel.rq.node rh.loc).dst := by
        by_cases temporary : tmpDir <+: (client.rel.rq.node rh.loc).dst
        · -- nothing waits for a name in the temporary directory, so only the source was packed
          obtain rfl := backed.packPath_temporary temporary packing
          exact pending.packPath_regular packing' there kept
        · exact (names'.regular_iff temporary).mpr ((names.regular_iff temporary).mpr there)
      have source' : second.fs.Regular source :=
        (names'.regular_iff user).mpr ((names.regular_iff user).mpr regular)
      refine (AssertsHold.computeDelta env _ names'.noDir still user source').bind fun value computing => ?_
      obtain ⟨deltaFile, computed⟩ := value
      obtain ⟨old, new, delta, facts⟩ := computeDelta_eq_ok computing
      obtain ⟨_, _, _, _, _, _, _, rfl⟩ := facts.files
      have version : (second.db (client.rel.rq.node rh.loc).dst).isSome := by
        rw [db', db]
        exact backed.version_of_related (RelTable.related_of_relFind related) there
      refine (AssertsHold.require version).bind fun _ _ => ?_
      split
      · exact (AssertsHold.enqueue ..).bind fun _ _ => .ok _
      · exact .ok _
  · exact .ok _

theorem assert_truncate {size : ℕ} (backed : Backed client) (user : UserPath path) (regular : client.fs.Regular path) :
    AssertsHold (xmpTruncate env path size client) := by
  refine AssertsHold.bind ?_ fun _ _ => .ok _
  simp only [truncateSync]
  split
  · exact .ok _
  · split
    · split <;> exact .ok _
    · exact (AssertsHold.require (backed.known path user regular)).bind fun _ _ => .enqueue ..

theorem assert_write {offset : ℕ} {data : Bytes} (backed : Backed client) (user : UserPath path)
    (regular : client.fs.Regular path) : AssertsHold (xmpWrite env path offset data client) := by
  refine AssertsHold.bind ?_ fun _ _ => .ok _
  simp only [writeSync]
  split
  · split <;> exact .ok _
  · exact (AssertsHold.require (backed.known path user regular)).bind fun _ _ => .enqueue ..

/-- The head is packed as the pending node of its path. -/
theorem packHead_eq (backed : Backed client) (occupied : (client.node client.queue.sq.head).isEmpty = false)
    (pending : (client.node client.queue.sq.head).Pending) :
    packHead env client = syncPackWritePath env (client.node client.queue.sq.head).src client := by
  obtain ⟨fifo, queued⟩ := backed.table.queued
  have entry := backed.table.complete client.queue.sq.head queued.head_lt (by simp) occupied pending
  obtain ⟨buffered, unpacked, alive⟩ := pending
  simp only [packHead, buffered, unpacked, alive, Bool.not_false, Bool.and_self, ↓reduceIte]
  rw [syncPackWritePath_eq]
  cases hit : syncFind (client.node client.queue.sq.head).src client.queue with
  | mk result looked =>
    cases result with
    | none => exact absurd rfl (backed.table.tidy.not_found (congrArg Prod.fst hit) _ entry)
    | some sh =>
      obtain ⟨member, named⟩ := backed.table.tidy.found (congrArg Prod.fst hit)
      obtain rfl := backed.table.tidy.eq_of_path member entry named
      rfl

theorem assert_syncExecute {spared : Path → Prop} (backed : Backed client)
    (leads : (client.node client.queue.sq.head).isEmpty = true ∨ ¬ (client.node client.queue.sq.head).Pending ∨
      client.Leads (client.node client.queue.sq.head).src spared) : AssertsHold (DeltaCFS.syncExecute env client) := by
  simp only [DeltaCFS.syncExecute]
  split
  · exact .ok _
  · next occupied =>
    refine AssertsHold.bind ?_ fun _ _ => .ok _
    by_cases pending : (client.node client.queue.sq.head).Pending
    · rw [backed.packHead_eq (by simpa using occupied) pending]
      rcases leads with empty | settled | leads
      · exact absurd empty occupied
      · exact absurd pending settled
      · exact packPath backed.pending (backed.version_of_leads leads)
    · simp only [packHead]
      split
      · next waits =>
        refine absurd ?_ pending
        simpa only [Bool.and_eq_true, Bool.not_eq_true', SyncNode.Pending, and_assoc, and_comm, and_left_comm] using waits
      · exact .ok _

end Backed

/-- No assertion fails in a call that follows relations to files. -/
theorem Backed.next {event : Event} (backed : Backed client) (granted : Granted event client)
    (holds : RelationsHold event client) : AssertsHold (client.next event) := by
  obtain ⟨env, call⟩ := event
  obtain ⟨⟨opens, -⟩, granted⟩ := granted
  refine AssertsHold.bind ?_ fun _ _ => .ok _
  cases call with
  | mknod path mode rdev => exact (backed.assert_mknod granted.2).bind fun _ _ => .ok _
  | unlink path => exact (backed.assert_unlink granted.1 granted.2 holds.2).bind fun _ _ => .ok _
  | rename source target =>
    obtain ⟨user, user', different, regular⟩ := granted
    exact (backed.assert_rename user user' different regular holds.2).bind fun _ _ => .ok _
  | link source target => exact (backed.assert_link granted.1 granted.2.2.1 holds).bind fun _ _ => .ok _
  | truncate path size => exact (backed.assert_truncate granted.1 granted.2).bind fun _ _ => .ok _
  | write path offset data => exact (backed.assert_write granted.1 granted.2).bind fun _ _ => .ok _
  | syncExecute => exact (backed.assert_syncExecute holds).bind fun _ _ => .ok _
  | relDequeue => exact .ok _
  | mkdir => exact absurd granted id
  | rmdir => exact absurd granted id
  | chmod => exact absurd granted id
  | chown => exact absurd granted id
  | utimens => exact absurd granted id

/-! ## Runs -/

/-- The condition on the calls of a run. -/
def Follows (event : Event) (client : Client) : Prop := Granted event client ∧ RelationsHold event client

instance (event : Event) (client : Client) : Decidable (Follows event client) := inferInstanceAs (Decidable (_ ∧ _))

theorem Backed.step {event : Event} (backed : Backed client) (allowed : Follows event client)
    (stepped : client.next event = .ok after) : Backed after := by
  have formed := backed.formed.step stepped
  have allocated := backed.allocated.step backed.formed stepped
  have still (packs : PacksFiles event client) (keeps : Keeps (fun _ => False) client after) : Backed after :=
    backed.of_keeps keeps (fun _ => False.elim) formed (backed.table.step packs stepped) allocated
  obtain ⟨env, call⟩ := event
  obtain ⟨⟨⟨opens, grants⟩, granted⟩, holds⟩ := allowed
  have table (packs : PacksFiles ⟨env, call⟩ client) := backed.table.step packs stepped
  obtain ⟨outcome, ran, rfl⟩ := next_eq_ok stepped
  cases call with
  | mknod path mode rdev => exact still trivial (backed.mknod granted.1 (ofHandled_eq_ok ran).1)
  | unlink path =>
    have keeps := backed.unlink granted.1 granted.2 holds.1 (ofHandled_eq_ok ran).1
    exact backed.of_keeps keeps (fun _ same => same ▸ granted.1) formed (table (backed.not_stuck path)) allocated
  | rename source target =>
    obtain ⟨user, user', -, regular⟩ := granted
    have keeps := backed.rename grants user user' regular holds.1 (ofHandled_eq_ok ran).1
    exact backed.of_keeps keeps (fun _ same => same ▸ user) formed (table fun _ _ => backed.not_stuck source) allocated
  | link source target =>
    exact still (fun _ _ => ⟨backed.not_stuck _, granted.1⟩) (backed.link (ofHandled_eq_ok ran).1)
  | truncate path size => exact still trivial (backed.truncate (ofHandled_eq_ok ran).1)
  | write path offset data => exact still trivial (backed.write granted.1 granted.2 (ofHandled_eq_ok ran).1)
  | syncExecute => exact still trivial (backed.syncExecute (step_syncExecute ran).1)
  | relDequeue =>
    obtain rfl := Except.ok.inj ran
    exact still trivial backed.relDequeue
  | mkdir => exact absurd granted id
  | rmdir => exact absurd granted id
  | chmod => exact absurd granted id
  | chown => exact absurd granted id
  | utimens => exact absurd granted id

/-- From an empty mount no assertion fails as long as every relation that a call follows leads to a file,
one that the call neither renames nor removes itself. -/
theorem no_assertion_fails (memory : Memory) (dirSize : Path → ℕ) (client : Client)
    (run : Transition.Run Client.next Follows (Client.initial memory dirSize) client) (event : Event)
    (granted : Granted event client) (holds : RelationsHold event client) :
    client.next event ≠ .error .timestamp ∧ client.next event ≠ .error .delta := by
  have backed := run.invariant Backed (fun kept allowed stepped => kept.step allowed stepped) (.initial memory dirSize)
  obtain ⟨timestamp, delta⟩ := backed.next granted holds
  exact ⟨timestamp, delta⟩

/-- `/a` is renamed to `/b`, so there is a relation from `/a` to `/b`. -/
def renamesAway : List Event := [⟨.plain, .mknod [47, 97] 33188 0⟩, ⟨.plain, .rename [47, 97] [47, 98]⟩]

/-- The rename back looks up the version of `/b`, which it has deleted. -/
theorem assertion_fails_renamed_back :
    ∃ client, Transition.Run Client.next Granted Client.empty client ∧ Granted ⟨.plain, .rename [47, 98] [47, 97]⟩ client ∧
      client.next ⟨.plain, .rename [47, 98] [47, 97]⟩ = .error .timestamp := by
  have replayed : ∃ client, Transition.replay Client.next renamesAway Client.empty = .ok client ∧
      (Granted ⟨.plain, .rename [47, 98] [47, 97]⟩ client ∧
        (client.next ⟨.plain, .rename [47, 98] [47, 97]⟩).fails .timestamp = true) :=
    Except.exists_ok (by decide +kernel)
  obtain ⟨client, replayed, granted, fails⟩ := replayed
  have allowed : Transition.AllAllowed Client.next Granted renamesAway Client.empty := by decide +kernel
  exact ⟨client, .of_replay renamesAway allowed replayed, granted, Except.eq_error fails⟩

/-- The relation is followed to `/b` when there is a new `/a`. -/
theorem no_assertion_fails_replaced :
    ∃ client, Transition.replay Client.next
        (renamesAway ++ [⟨.plain, .write [47, 98] 0 [1]⟩, ⟨.plain, .mknod [47, 97] 33188 0⟩]) Client.empty = .ok client ∧
      followsPath client.rel [47, 97] client.queue = [[47, 98]] ∧
      client.next ⟨.plain, .unlink [47, 97]⟩ ≠ .error .timestamp ∧
      client.next ⟨.plain, .unlink [47, 97]⟩ ≠ .error .delta := by
  have replayed : ∃ client, Transition.replay Client.next
      (renamesAway ++ [⟨.plain, .write [47, 98] 0 [1]⟩, ⟨.plain, .mknod [47, 97] 33188 0⟩]) Client.empty = .ok client ∧
      (followsPath client.rel [47, 97] client.queue = [[47, 98]] ∧ Granted ⟨.plain, .unlink [47, 97]⟩ client ∧
        RelationsHold ⟨.plain, .unlink [47, 97]⟩ client) := Except.exists_ok (by decide +kernel)
  obtain ⟨client, replayed, follows, granted, holds⟩ := replayed
  have allowed : Transition.AllAllowed Client.next Follows
      (renamesAway ++ [⟨.plain, .write [47, 98] 0 [1]⟩, ⟨.plain, .mknod [47, 97] 33188 0⟩]) Client.empty := by
    decide +kernel
  exact ⟨client, replayed, follows, no_assertion_fails _ _ client (.of_replay _ allowed replayed) _ granted holds⟩

end DeltaCFS
