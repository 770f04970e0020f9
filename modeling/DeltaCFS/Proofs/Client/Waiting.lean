import DeltaCFS.Proofs.Client.WellFormed

/-! # Which paths have a buffered node

What every operation on the queue does to the keys of the hash. A path gets an entry with its buffered
node; packing, dropping and renaming take entries away.
-/

namespace DeltaCFS

variable {env : Env} {client after : Client} {path other source target : Path} {queue queue' : SyncQueue}

/-- There is an entry for the path. -/
def SyncQueue.Waits (queue : SyncQueue) (path : Path) : Prop := ∃ sh ∈ queue.shs, sh.path = path

namespace SyncQueue.Waits

theorem of_subset (waits : queue'.Waits path) (fewer : ∀ sh ∈ queue'.shs, sh ∈ queue.shs) : queue.Waits path := by
  obtain ⟨sh, member, named⟩ := waits
  exact ⟨sh, fewer sh member, named⟩

theorem of_syncFind (waits : (syncFind other queue).2.Waits path) (tidy : Tidy queue) : queue.Waits path := by
  obtain ⟨-, entries, -⟩ := tidy.syncFind other
  exact waits.of_subset fun sh member => entries ▸ member

/-- Only a buffered node adds an entry. -/
theorem of_enqueue {op : Op} {src dst : Path} {para : Option (Fin 5 → UInt64)} {bn : Option (List BufInfo)}
    {fileBuf : Option Bytes} {localtime baseVersion : UInt64} (waits : queue'.Waits path)
    (enqueued : syncEnqueue op src dst para bn fileBuf localtime baseVersion queue = .ok queue') :
    queue.Waits path ∨ op.isBuffered = true ∧ path = src := by
  simp only [syncEnqueue] at enqueued
  split at enqueued
  · obtain rfl := Except.ok.inj enqueued
    obtain ⟨sh, member, named⟩ := waits
    simp only at member
    split at member
    · next buffered =>
      rcases List.mem_cons.mp member with rfl | old
      · exact .inr ⟨buffered, named.symm⟩
      · exact .inl ⟨sh, old, named⟩
    · exact .inl ⟨sh, member, named⟩
  · exact absurd enqueued (by simp)

theorem of_enqueue_plain {op : Op} {src dst : Path} {para : Option (Fin 5 → UInt64)} {bn : Option (List BufInfo)}
    {fileBuf : Option Bytes} {localtime baseVersion : UInt64} (waits : queue'.Waits path)
    (enqueued : syncEnqueue op src dst para bn fileBuf localtime baseVersion queue = .ok queue')
    (plain : op.isBuffered = false) : queue.Waits path := by
  rcases waits.of_enqueue enqueued with old | ⟨buffered, -⟩
  · exact old
  · exact absurd buffered (by simp [plain])

/-- The entry a lookup found is removed. -/
theorem of_hashDel {sh : SyncHash} {looked : SyncQueue} (waits : (hashDel sh looked).Waits path) (tidy : Tidy queue)
    (hit : syncFind other queue = (some sh, looked)) : queue.Waits path ∧ path ≠ other := by
  obtain ⟨-, entries, clean, -⟩ := tidy.syncFind other
  obtain ⟨member, named⟩ := tidy.found (congrArg Prod.fst hit)
  simp only [hit] at entries clean
  obtain ⟨entry, kept, rfl⟩ := waits
  obtain ⟨inside, different⟩ := clean.mem_erase_iff.mp kept
  rw [entries] at inside
  exact ⟨⟨entry, inside, rfl⟩, fun same => different (tidy.eq_of_path inside member (same.trans named.symm))⟩

theorem of_miss {looked : SyncQueue} (waits : looked.Waits path) (tidy : Tidy queue)
    (miss : syncFind other queue = (none, looked)) : queue.Waits path ∧ path ≠ other := by
  obtain ⟨-, entries, -⟩ := tidy.syncFind other
  rw [miss] at entries
  obtain ⟨entry, kept, rfl⟩ := waits
  rw [entries] at kept
  exact ⟨⟨entry, kept, rfl⟩, tidy.not_found (congrArg Prod.fst miss) entry kept⟩

theorem of_syncDelete (waits : (syncDelete other queue).Waits path) (tidy : Tidy queue) :
    queue.Waits path ∧ path ≠ other := by
  simp only [syncDelete] at waits
  split at waits
  · next sh looked hit => exact of_hashDel waits tidy hit
  · next looked miss => exact waits.of_miss tidy miss

theorem of_syncDeleteWrite (waits : (syncDeleteWrite other queue).Waits path) (tidy : Tidy queue) :
    queue.Waits path ∧ path ≠ other := by
  simp only [syncDeleteWrite] at waits
  split at waits
  · next sh looked hit => exact of_hashDel waits tidy hit
  · next looked miss => exact waits.of_miss tidy miss

theorem of_packPath (waits : after.queue.Waits path) (packed : syncPackWritePath env other client = .ok after)
    (tidy : Tidy client.queue) : client.queue.Waits path ∧ path ≠ other := by
  obtain ⟨sh, kept, rfl⟩ := waits
  obtain ⟨member, different⟩ := (syncPackWritePath_entries packed tidy).2 sh kept
  exact ⟨⟨sh, member, rfl⟩, different⟩

/-- The renamed file has no entry under its old name. -/
theorem of_renameSync {fromVersion newTimestamp : UInt64} (waits : after.queue.Waits path)
    (synced : renameSync env source target fromVersion newTimestamp client = .ok after)
    (holds : client.queue.Holds Formed) : client.queue.Waits path ∧ path ≠ source := by
  have unlinkDelta {first second third : SyncQueue} {deltaFile : Path} {para : Option (Fin 5 → UInt64)} {base : UInt64}
      (waits : third.Waits path) (holds : first.Holds Formed)
      (unlinked : syncEnqueue .unlink source [] none none none fromVersion 0 first = .ok second)
      (queued : syncEnqueue .delta deltaFile target para none none newTimestamp base
        (syncDelete source second) = .ok third) : first.Waits path ∧ path ≠ source := by
    have ready := Client.WellFormed.enqueue holds unlinked rfl
    obtain ⟨left, different⟩ := (waits.of_enqueue_plain queued rfl).of_syncDelete ready.tidy
    exact ⟨left.of_enqueue_plain unlinked rfl, different⟩
  simp only [renameSync] at synced
  split at synced
  · obtain ⟨packed, timestamp, deltaFile, computed, unlinked, queue, packing, -, computing, first, second, rfl⟩ :=
      renameOnto_eq_ok synced
    obtain ⟨old, new, delta, facts⟩ := computeDelta_eq_ok computing
    obtain ⟨_, _, _, _, _, _, _, rfl⟩ := facts.files
    obtain ⟨ready, -⟩ := SyncQueue.Holds.packPath packing holds (Formed.packKeeps env _)
    obtain ⟨left, different⟩ := unlinkDelta waits ready first second
    exact ⟨(left.of_packPath packing holds.tidy).1, different⟩
  · split at synced
    · obtain ⟨packed, queue, packing, queued, rfl⟩ := renamePlain_eq_ok synced
      exact of_packPath (waits.of_enqueue_plain queued rfl) packing holds.tidy
    · obtain ⟨deltaFile, computed, check, computing, -, outcome⟩ := renameRelated_eq_ok synced
      obtain ⟨old, new, delta, facts⟩ := computeDelta_eq_ok computing
      obtain ⟨_, _, _, _, _, _, _, rfl⟩ := facts.files
      rcases outcome with ⟨-, unlinked, queue, first, second, rfl⟩ | ⟨-, packed, queue, packing, queued, rfl⟩
      · exact unlinkDelta waits holds first second
      · have left := waits.of_enqueue_plain queued rfl
        exact (left.of_packPath packing holds.tidy :)

theorem of_linkSync {fromVersion : UInt64} (waits : after.queue.Waits path)
    (synced : linkSync env source target fromVersion client = .ok after) (holds : client.queue.Holds Formed) :
    client.queue.Waits path := by
  simp only [linkSync] at synced
  split at synced
  · obtain ⟨first, packed, deltaFile, computed, check, packing, packing', computing, -, outcome⟩ :=
      linkRelated_eq_ok synced
    obtain ⟨old, new, delta, facts⟩ := computeDelta_eq_ok computing
    obtain ⟨_, _, _, _, _, _, _, rfl⟩ := facts.files
    obtain ⟨ready, -⟩ := SyncQueue.Holds.packPath packing holds (Formed.packKeeps env _)
    obtain ⟨ready', -⟩ := SyncQueue.Holds.packPath packing' ready (Formed.packKeeps env _)
    have left : packed.queue.Waits path := by
      rcases outcome with ⟨-, queue, queued, rfl⟩ | ⟨-, rfl⟩
      · have enqueued := Client.WellFormed.enqueue ready' queued rfl
        exact (of_syncDelete waits enqueued.tidy).1.of_enqueue_plain queued rfl
      · exact waits
    exact ((left.of_packPath packing' ready.tidy).1.of_packPath packing holds.tidy).1
  · exact Except.ok.inj synced ▸ waits

theorem of_truncateSync {size : ℕ} (waits : after.queue.Waits path) (tidy : Tidy client.queue)
    (synced : truncateSync other size client = .ok after) : client.queue.Waits path := by
  rcases truncateSync_eq_ok synced with ⟨-, rfl⟩ | ⟨-, sh, -, rfl⟩ | ⟨-, -, version, queue, -, queued, rfl⟩
  · exact (of_syncDeleteWrite waits tidy).1
  · exact of_syncFind waits tidy
  · exact (waits.of_enqueue_plain queued rfl).of_syncFind tidy

theorem of_writeSync {offset : ℕ} {data : Bytes} (waits : after.queue.Waits path) (tidy : Tidy client.queue)
    (synced : writeSync env other offset data client = .ok after) : client.queue.Waits path ∨ path = other := by
  rcases writeSync_eq_ok synced with ⟨sh, -, rfl⟩ | ⟨-, version, queue, -, queued, rfl⟩
  · exact .inl (of_syncFind waits tidy)
  · exact (waits.of_enqueue queued).imp (fun old => old.of_syncFind tidy) And.right

theorem of_syncExecute {sent : Option SyncNode} (waits : after.queue.Waits path) (tidy : Tidy client.queue)
    (executed : syncExecute env client = .ok (sent, after)) : client.queue.Waits path := by
  rcases syncExecute_eq_ok executed with ⟨-, -, rfl⟩ | ⟨-, packed, packing, -, rfl⟩
  · exact waits
  · have left : packed.queue.Waits path := by
      simp only [syncDequeue] at waits
      split at waits
      · exact waits
      · exact waits
    rcases packHead_run tidy packing with ⟨-, rfl⟩ | ⟨-, queue, middle, touched, -, clean, entries, run, -, one⟩
    · exact left
    · obtain ⟨-, -, -, ⟨sn, changed, -⟩, -⟩ := one.frame
      rw [changed] at left
      exact of_subset left fun sh member => ((entries sh).mp (run.subset clean member)).1

end SyncQueue.Waits

end DeltaCFS
