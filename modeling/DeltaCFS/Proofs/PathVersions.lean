import DeltaCFS.Proofs.Client.RegularFiles
import DeltaCFS.Proofs.VersionNumbers
import DeltaCFS.ToMathlib.Numbering

/-! # The versions of paths

Whatever the handlers do, with or without success, they take versions away from paths and give the next
version to at most one. So a version belongs to one path for ever, and its versions increase.
-/

namespace DeltaCFS

variable {env : Env} {client after : Client} {path source target : Path} {res : ℤ}

/-- The versions of the paths. -/
def Client.numbering (client : Client) : Numbering Path where
  number path := (client.db path).map UInt64.toNat
  limit := client.recfsCnt.toNat

/-- The calls that take a version find the counter below its mask. -/
def CountsBelow (event : Event) (client : Client) : Prop :=
  event.call.counts = true → client.recfsCnt.toNat + 1 < counterBound

instance (event : Event) (client : Client) : Decidable (CountsBelow event client) := inferInstanceAs (Decidable (_ → _))

namespace Client

/-- Nothing about versions changes. -/
theorem issues_of_same (db : after.db = client.db) (count : after.recfsCnt = client.recfsCnt) :
    Numbering.Issues client.numbering after.numbering :=
  .kept (by rw [numbering, numbering, count]) fun key n => by rw [numbering, numbering, db]; exact id

/-- A path gets the new version, and others may lose theirs. -/
theorem issues_of_new (bound : client.recfsCnt.toNat + 1 < counterBound) (count : after.recfsCnt = client.recfsCnt + 1)
    (issued : Path) (cases : ∀ path version, after.db path = some version →
      (path = issued ∧ version = client.newVersion) ∨ client.db path = some version) :
    Numbering.Issues client.numbering after.numbering := by
  refine .issued issued ?_ fun key n numbered => ?_
  · rw [numbering, numbering, count, recfsCnt_toNat bound]
  · obtain ⟨version, known, rfl⟩ := Option.map_eq_some_iff.mp numbered
    rcases cases key version known with ⟨here, rfl⟩ | before
    · exact .inl ⟨here, newVersion_toNat bound⟩
    · exact .inr (by simp only [numbering, before, Option.map_some])

theorem issues_of_update (bound : client.recfsCnt.toNat + 1 < counterBound) (count : after.recfsCnt = client.recfsCnt + 1)
    (db : after.db = Function.update client.db path (some client.newVersion)) :
    Numbering.Issues client.numbering after.numbering := by
  refine issues_of_new bound count path fun other version known => ?_
  rw [db, Function.update_apply] at known
  split at known
  · next here => exact .inl ⟨here, (Option.some.inj known).symm⟩
  · exact .inr known

theorem unlink_issues (formed : client.WellFormed) (bound : client.recfsCnt.toNat + 1 < counterBound)
    (handled : xmpUnlink env path client = .ok (res, after)) : Numbering.Issues client.numbering after.numbering := by
  by_cases done : 0 ≤ res
  · obtain ⟨db, count⟩ := xmpUnlink_db formed.queue.tidy handled done
    refine issues_of_new bound count (tmpPath path) fun other version known => ?_
    rw [db, Function.update_apply] at known
    split at known
    · exact absurd known (by simp)
    rw [Function.update_apply] at known
    split at known
    · next here => exact .inl ⟨here, (Option.some.inj known).symm⟩
    · exact .inr known
  · obtain ⟨version, packed, rel, -, packing, -, ⟨-, rfl⟩ | ⟨fs, queue, related, -, -, -, succeeded, -⟩⟩ :=
      xmpUnlink_eq_ok handled
    · obtain ⟨db, -, count⟩ := syncPackWritePath_frame packing formed.queue.tidy
      exact issues_of_same db count
    · exact absurd succeeded.ge done

theorem rename_issues (formed : client.WellFormed) (bound : client.recfsCnt.toNat + 1 < counterBound)
    (handled : xmpRename env source target client = .ok (res, after)) :
    Numbering.Issues client.numbering after.numbering := by
  obtain ⟨db, count⟩ := xmpRename_db formed.queue handled
  refine issues_of_new bound count target fun other version known => ?_
  rw [db, Function.update_apply] at known
  split at known
  · next here => exact .inl ⟨here, (Option.some.inj known).symm⟩
  rw [Function.update_apply] at known
  split at known
  · exact absurd known (by simp)
  · exact .inr known

theorem link_issues (formed : client.WellFormed) (bound : client.recfsCnt.toNat + 1 < counterBound)
    (handled : xmpLink env source target client = .ok (res, after)) :
    Numbering.Issues client.numbering after.numbering := by
  obtain ⟨version, synced, queue, -, syncing, -, outcome⟩ := xmpLink_eq_ok handled
  have holds : client.queue.Holds fun _ => True := formed.queue.imp fun _ _ => trivial
  obtain ⟨-, -, count, db⟩ := SyncQueue.Holds.linkSync syncing holds (fun _ _ _ _ _ => trivial) (fun _ => id)
    (fun _ _ _ _ _ _ _ _ => trivial) (fun _ => id) fun _ _ _ _ _ _ => trivial
  have same : synced.newVersion = client.newVersion := by rw [newVersion, newVersion, count]
  rcases outcome with ⟨-, rfl⟩ | ⟨fs, -, -, rfl⟩
  · exact issues_of_update bound (by rw [← count]) (by rw [← same, ← db])
  · exact issues_of_update bound (by rw [← count]) (by rw [← same, ← db])

/-- Every call gives out versions in their order. -/
theorem next_issues {event : Event} (formed : client.WellFormed) (below : CountsBelow event client)
    (stepped : client.next event = .ok after) : Numbering.Issues client.numbering after.numbering := by
  obtain ⟨env, call⟩ := event
  obtain ⟨outcome, ran, rfl⟩ := next_eq_ok stepped
  cases call with
  | mknod path mode rdev =>
    obtain ⟨db, count⟩ := xmpMknod_db formed.queue.tidy (ofHandled_eq_ok ran).1
    exact issues_of_update (below rfl) count db
  | mkdir path mode =>
    rcases xmpMkdir_eq_ok (ofHandled_eq_ok ran).1 with ⟨-, same⟩ | ⟨fs, queue, -, -, -, same⟩
    · exact issues_of_same (by rw [same]) (by rw [same])
    · exact issues_of_update (below rfl) (by rw [same]) (by rw [same])
  | unlink path => exact unlink_issues formed (below rfl) (ofHandled_eq_ok ran).1
  | rmdir path =>
    obtain ⟨version, queue, -, -, ⟨-, same⟩ | ⟨fs, -, -, same⟩⟩ := xmpRmdir_eq_ok (ofHandled_eq_ok ran).1
    all_goals exact issues_of_same (by rw [same]) (by rw [same])
  | rename source target => exact rename_issues formed (below rfl) (ofHandled_eq_ok ran).1
  | link source target => exact link_issues formed (below rfl) (ofHandled_eq_ok ran).1
  | chmod path mode | chown path uid gid | utimens path accessed modified =>
    obtain ⟨queue, -, ⟨-, same⟩ | ⟨fs, -, -, same⟩⟩ := xmpSetattr_eq_ok (ofHandled_eq_ok ran).1
    all_goals exact issues_of_same (by rw [same]) (by rw [same])
  | truncate path size =>
    obtain ⟨synced, syncing, outcome⟩ := xmpTruncate_eq_ok (ofHandled_eq_ok ran).1
    have issues : Numbering.Issues client.numbering synced.numbering := by
      rcases truncateSync_eq_ok syncing with
        ⟨-, rfl⟩ | ⟨-, sh, -, rfl⟩ | ⟨-, -, version, queue, -, -, rfl⟩
      · exact issues_of_same rfl rfl
      · exact issues_of_same rfl rfl
      · exact issues_of_update (below rfl) rfl rfl
    rcases outcome with ⟨-, same⟩ | ⟨fs, -, -, same⟩
    · exact same ▸ issues
    · exact same ▸ issues
  | write path offset data =>
    obtain ⟨synced, syncing, outcome⟩ := xmpWrite_eq_ok (ofHandled_eq_ok ran).1
    have issues : Numbering.Issues client.numbering synced.numbering := by
      rcases writeSync_eq_ok syncing with ⟨sh, -, rfl⟩ | ⟨-, version, queue, -, -, rfl⟩
      · exact issues_of_same rfl rfl
      · exact issues_of_update (below rfl) rfl rfl
    rcases outcome with ⟨-, same⟩ | ⟨fs, -, -, -, same⟩
    · exact same ▸ issues
    · exact same ▸ issues
  | syncExecute =>
    rcases SyncQueue.Holds.syncExecute (step_syncExecute ran).1 formed.queue (Formed.packKeeps env _) with
      ⟨-, same⟩ | ⟨⟨db, -, count⟩, -⟩
    · exact same ▸ issues_of_same rfl rfl
    · exact issues_of_same db count
  | relDequeue =>
    obtain rfl := Except.ok.inj ran
    exact issues_of_same rfl rfl

end Client

/-- Along every run below the mask no version is above the counter, a version that a path has or has had is
no other path's, and a path has its versions in increasing order. -/
theorem versions_of_paths (memory : Memory) (dirSize : Path → ℕ) (first second : Client)
    (run : Transition.Run Client.next CountsBelow (Client.initial memory dirSize) first)
    (later : Transition.Run Client.next CountsBelow first second) :
    (∀ path version, second.db path = some version → version.toNat ≤ second.recfsCnt.toNat) ∧
      (∀ path other version, first.db path = some version → second.db other = some version → path = other) ∧
      ∀ path version version', first.db path = some version → second.db path = some version' → version ≤ version' := by
  have start : (Client.initial memory dirSize).numbering.Proper := ⟨by simp [Client.numbering, Client.initial],
    by simp [Client.numbering, Client.initial]⟩
  obtain ⟨formed, proper⟩ := run.invariant (fun client => client.WellFormed ∧ client.numbering.Proper)
    (fun kept below stepped => ⟨kept.1.step stepped, (Client.next_issues kept.1 below stepped).proper kept.2⟩)
    ⟨.initial memory dirSize, start⟩
  obtain ⟨-, proper', continues⟩ := later.invariant
    (fun client => client.WellFormed ∧ client.numbering.Proper ∧ first.numbering.Continues client.numbering)
    (fun kept below stepped =>
      have issues := Client.next_issues kept.1 below stepped
      ⟨kept.1.step stepped, issues.proper kept.2.1, kept.2.2.trans issues.continues⟩)
    ⟨formed, proper, .refl _⟩
  have numbered {client : Client} {path : Path} {version : UInt64} (known : client.db path = some version) :
      client.numbering.number path = some version.toNat := by
    simp only [Client.numbering, known, Option.map_some]
  refine ⟨fun path version known => proper'.bound path _ (numbered known), fun path other version before after => ?_,
    fun path version version' before after => ?_⟩
  · exact continues.eq_key proper (numbered before) (numbered after)
  · exact UInt64.le_iff_toNat_le.mpr (continues.le proper (numbered before) (numbered after))

/-- A directory is made, a file linked and renamed, and a call fails. -/
def linkedAndRenamed : List Event :=
  [⟨.plain, .link [47, 97] [47, 98]⟩, ⟨.plain, .mkdir [47, 100] 493⟩, ⟨.plain, .mknod [47, 98] 33188 0⟩,
    ⟨.plain, .rename [47, 97] [47, 99]⟩, ⟨.plain, .truncate [47, 99] 3⟩]

theorem versions_of_paths_linked :
    ∃ first second, Transition.replay Client.next [⟨.plain, .mknod [47, 97] 33188 0⟩] Client.empty = .ok first ∧
      Transition.replay Client.next linkedAndRenamed first = .ok second ∧ first.db [47, 97] = some 2 ∧
      ∀ path, second.db path = some 2 → [47, 97] = path := by
  have replayed : ∃ first, Transition.replay Client.next [⟨.plain, .mknod [47, 97] 33188 0⟩] Client.empty = .ok first ∧
      (first.db [47, 97] = some 2 ∧ Transition.AllAllowed Client.next CountsBelow linkedAndRenamed first ∧
        (Transition.replay Client.next linkedAndRenamed first).passes (fun _ => True) = true) :=
    Except.exists_ok (by decide +kernel)
  obtain ⟨first, replayed, known, below, goes⟩ := replayed
  obtain ⟨second, goes, -⟩ := Except.exists_ok goes
  have start : Transition.AllAllowed Client.next CountsBelow [⟨.plain, .mknod [47, 97] 33188 0⟩] Client.empty := by
    decide +kernel
  refine ⟨first, second, replayed, goes, known, fun path after => ?_⟩
  exact (versions_of_paths _ _ first second (.of_replay _ start replayed) (.of_replay _ below goes)).2.1 [47, 97] path 2
    known after

end DeltaCFS
