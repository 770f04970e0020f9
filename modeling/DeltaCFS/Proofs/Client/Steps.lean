import DeltaCFS.Model.System
import DeltaCFS.Proofs.Client.Packing

/-! # What a handler that returns has done

One inversion lemma for every handler: the lookups, packings and enqueues it went through, whether
its system call failed, and the client it leaves.
-/

namespace DeltaCFS

variable {env : Env} {client after : Client} {path source target : Path} {res : ℤ}

theorem Errno.code_pos (errno : Errno) : 0 < errno.code := by
  cases errno <;> decide

/-- The version the next `INCREASE_RECFS_CNT` gives. -/
def Client.newVersion (client : Client) : UInt64 := (client.recfsCnt + 1) &&& clientId

/-- The call fails and changes nothing, or it is granted and changes the files. -/
theorem syscall_cases (env : Env) (call : FileSystem → Except Errno FileSystem) (done : ℤ) (client : Client) :
    (∃ errno : Errno, client.syscall env call done = (-(errno.code : ℤ), client)) ∨
      env.callFails = none ∧ ∃ fs, call client.fs = .ok fs ∧
        client.syscall env call done = (done, { client with fs := fs }) := by
  simp only [Client.syscall]
  split
  · next errno _ => exact .inl ⟨errno, rfl⟩
  · next granted =>
    split
    · next fs ok => exact .inr ⟨granted, fs, ok, rfl⟩
    · next errno _ => exact .inl ⟨errno, rfl⟩

theorem Errno.neg_code (errno : Errno) : -(errno.code : ℤ) < 0 := by
  have := errno.code_pos
  omega

theorem enqueue_eq_ok {op : Op} {src dst : Path} {para : Option (Fin 5 → UInt64)} {bn : Option (List BufInfo)}
    {localtime baseVersion : UInt64}
    (enqueued : client.enqueue op src dst para bn localtime baseVersion = .ok after) :
    ∃ queue, syncEnqueue op src dst para bn none localtime baseVersion client.queue = .ok queue ∧
      after = { client with queue := queue } := by
  obtain ⟨queue, ran, same⟩ := Except.bind_eq_ok.mp enqueued
  exact ⟨queue, ran, (Except.ok.inj same).symm⟩

theorem relEnqueue_eq_ok {localtime : UInt64} (enqueued : client.relEnqueue source target localtime = .ok after) :
    ∃ rel, relEnqueue source target localtime client.rel = .ok rel ∧ after = { client with rel := rel } := by
  obtain ⟨rel, ran, same⟩ := Except.bind_eq_ok.mp enqueued
  exact ⟨rel, ran, (Except.ok.inj same).symm⟩

/-- `xmp_mknod`: the version is stored, and if the file can be created its node is queued. -/
theorem xmpMknod_eq_ok {mode rdev : ℕ} (handled : xmpMknod env path mode rdev client = .ok (res, after)) :
    ∃ numbered : Client,
      numbered = { client with
        recfsCnt := client.recfsCnt + 1, db := Function.update client.db path (some client.newVersion) } ∧
      ((res < 0 ∧ after = numbered) ∨
        ∃ fs packed queue, client.fs.openExcl path = .ok fs ∧
          syncPackWritePath env path { numbered with fs := fs } = .ok packed ∧
          syncEnqueue .newfile path [] (some (paraOf [0, intPara mode, intPara rdev])) none none client.newVersion 0
            packed.queue = .ok queue ∧ res = 0 ∧ after = { packed with queue := queue }) := by
  refine ⟨_, rfl, ?_⟩
  simp only [xmpMknod, increaseRecfsCnt, recfsUpdateTimestamp] at handled
  rcases syscall_cases env (·.openExcl path) 0 { client with
      recfsCnt := client.recfsCnt + 1, db := Function.update client.db path (some client.newVersion) } with
    ⟨errno, called⟩ | ⟨-, fs, opened, called⟩
  · rw [Client.newVersion] at called
    simp only [called, errno.neg_code, ↓reduceIte] at handled
    obtain ⟨rfl, rfl⟩ := Prod.mk.inj (Except.ok.inj handled)
    exact .inl ⟨errno.neg_code, rfl⟩
  · rw [Client.newVersion] at called
    simp only [called, lt_irrefl, ↓reduceIte, Except.bind_eq_ok] at handled
    obtain ⟨packed, packing, enqueued, enqueuing, same⟩ := handled
    obtain ⟨queue, queued, rfl⟩ := enqueue_eq_ok enqueuing
    obtain ⟨rfl, rfl⟩ := Prod.mk.inj (Except.ok.inj same)
    exact .inr ⟨fs, packed, queue, opened, packing, queued, rfl, rfl⟩

/-- `xmp_mkdir`: the system call comes first. -/
theorem xmpMkdir_eq_ok {mode : ℕ} (handled : xmpMkdir env path mode client = .ok (res, after)) :
    (res < 0 ∧ after = client) ∨
      ∃ fs queue, client.fs.mkdir path = .ok fs ∧
        syncEnqueue .mkdir path [] (some (paraOf [intPara mode])) none none client.newVersion 0 client.queue =
          .ok queue ∧ res = 0 ∧
        after = { client with
          fs := fs, recfsCnt := client.recfsCnt + 1, queue := queue
          db := Function.update client.db path (some client.newVersion) } := by
  simp only [xmpMkdir, increaseRecfsCnt, recfsUpdateTimestamp] at handled
  rcases syscall_cases env (·.mkdir path) 0 client with ⟨errno, called⟩ | ⟨-, fs, made, called⟩
  · simp only [called, errno.neg_code, ↓reduceIte] at handled
    obtain ⟨rfl, rfl⟩ := Prod.mk.inj (Except.ok.inj handled)
    exact .inl ⟨errno.neg_code, rfl⟩
  · simp only [called, lt_irrefl, ↓reduceIte, Except.bind_eq_ok] at handled
    obtain ⟨enqueued, enqueuing, same⟩ := handled
    obtain ⟨queue, queued, rfl⟩ := enqueue_eq_ok enqueuing
    obtain ⟨rfl, rfl⟩ := Prod.mk.inj (Except.ok.inj same)
    exact .inr ⟨fs, queue, made, queued, rfl, rfl⟩

/-- `xmp_unlink`: packing and forgetting relations come before the system call. -/
theorem xmpUnlink_eq_ok (handled : xmpUnlink env path client = .ok (res, after)) :
    ∃ version packed rel, client.db path = some version ∧ syncPackWritePath env path client = .ok packed ∧
      rel = relDeleteSrc path (relDeleteDst path packed.rel) ∧
      ((res < 0 ∧ after = { packed with rel := rel }) ∨
        ∃ fs queue related, packed.fs.rename path (tmpPath path) = .ok fs ∧
          syncEnqueue .rename path (tmpPath path) none none none packed.newVersion version packed.queue = .ok queue ∧
          relEnqueue path (tmpPath path) packed.newVersion rel = .ok related ∧ res = 0 ∧
          after = { packed with
            fs := fs, recfsCnt := packed.recfsCnt + 1, queue := queue, rel := related
            db := Function.update (Function.update packed.db (tmpPath path) (some packed.newVersion)) path none }) := by
  simp only [xmpUnlink, increaseRecfsCnt, recfsUpdateTimestamp, recfsDelTimestamp, recfsGetTimestamp,
    Except.bind_eq_ok, require_eq_ok] at handled
  obtain ⟨version, known, packed, packing, handled⟩ := handled
  refine ⟨version, packed, _, known, packing, rfl, ?_⟩
  rcases syscall_cases env (·.rename path (tmpPath path)) 0 { packed with
    rel := relDeleteSrc path (relDeleteDst path packed.rel) } with ⟨errno, called⟩ | ⟨-, fs, moved, called⟩
  · simp only [called, errno.neg_code, ↓reduceIte] at handled
    obtain ⟨rfl, rfl⟩ := Prod.mk.inj (Except.ok.inj handled)
    exact .inl ⟨errno.neg_code, rfl⟩
  · simp only [called, lt_irrefl, ↓reduceIte, Except.bind_eq_ok] at handled
    obtain ⟨enqueued, enqueuing, related, relating, same⟩ := handled
    obtain ⟨queue, queued, rfl⟩ := enqueue_eq_ok enqueuing
    obtain ⟨rel, entered, rfl⟩ := relEnqueue_eq_ok relating
    obtain ⟨rfl, rfl⟩ := Prod.mk.inj (Except.ok.inj same)
    exact .inr ⟨fs, queue, rel, moved, queued, entered, rfl, rfl⟩

/-- The system call at the end of a handler. -/
theorem syscall_eq {call : FileSystem → Except Errno FileSystem} {done : ℤ}
    (handled : (pure (client.syscall env call done) : Handled) = .ok (res, after)) :
    (res < 0 ∧ after = client) ∨ ∃ fs, call client.fs = .ok fs ∧ res = done ∧ after = { client with fs := fs } := by
  have same := Except.ok.inj handled
  rcases syscall_cases env call done client with ⟨errno, called⟩ | ⟨-, fs, ok, called⟩
  · obtain ⟨rfl, rfl⟩ := Prod.mk.inj (called.symm.trans same)
    exact .inl ⟨errno.neg_code, rfl⟩
  · obtain ⟨rfl, rfl⟩ := Prod.mk.inj (called.symm.trans same)
    exact .inr ⟨fs, ok, rfl, rfl⟩

theorem xmpRmdir_eq_ok (handled : xmpRmdir env path client = .ok (res, after)) :
    ∃ version queue, client.db path = some version ∧
      syncEnqueue .rmdir path [] none none none version 0 client.queue = .ok queue ∧
      ((res < 0 ∧ after = { client with queue := queue }) ∨
        ∃ fs, client.fs.rmdir path = .ok fs ∧ res = 0 ∧ after = { client with queue := queue, fs := fs }) := by
  simp only [xmpRmdir, recfsGetTimestamp, Except.bind_eq_ok, require_eq_ok] at handled
  obtain ⟨version, known, enqueued, enqueuing, handled⟩ := handled
  obtain ⟨queue, queued, rfl⟩ := enqueue_eq_ok enqueuing
  exact ⟨version, queue, known, queued, syscall_eq handled⟩

/-- `xmp_rename` up to its branches: the source loses its version, and the relation of the target is
replaced by one of the source. -/
theorem xmpRename_eq_ok (handled : xmpRename env source target client = .ok (res, after)) :
    ∃ version synced rel, client.db source = some version ∧
      renameSync env source target version client.newVersion { client with
        recfsCnt := client.recfsCnt + 1, db := Function.update client.db source none } = .ok synced ∧
      relEnqueue source target client.newVersion
        (match relFind target client.rel with
          | some rh => relDelete rh synced.rel
          | none => synced.rel) = .ok rel ∧
      ((res < 0 ∧ after = { synced with rel := rel }) ∨
        ∃ fs, synced.fs.rename source target = .ok fs ∧ res = 0 ∧
          after = { synced with rel := rel, fs := fs }) := by
  simp only [xmpRename, increaseRecfsCnt, recfsDelTimestamp, recfsGetTimestamp, Except.bind_eq_ok,
    require_eq_ok] at handled
  obtain ⟨version, known, synced, syncing, related, relating, handled⟩ := handled
  obtain ⟨rel, entered, rfl⟩ := relEnqueue_eq_ok relating
  refine ⟨version, synced, rel, known, syncing, ?_, ?_⟩
  · rw [Client.newVersion]
    cases found : relFind target client.rel <;> simpa only [found] using entered
  · cases found : relFind target client.rel <;> simp only [found] at handled <;> exact syscall_eq handled

theorem renamePlain_eq_ok {fromVersion newTimestamp : UInt64}
    (synced : renamePlain env source target fromVersion newTimestamp client = .ok after) :
    ∃ packed queue, syncPackWritePath env source client = .ok packed ∧
      syncEnqueue .rename source target none none none newTimestamp fromVersion packed.queue = .ok queue ∧
      after = { packed with queue := queue, db := Function.update packed.db target (some newTimestamp) } := by
  simp only [renamePlain, recfsUpdateTimestamp, Except.bind_eq_ok] at synced
  obtain ⟨packed, packing, enqueuing⟩ := synced
  obtain ⟨queue, queued, rfl⟩ := enqueue_eq_ok enqueuing
  exact ⟨packed, queue, packing, queued, rfl⟩

theorem renameOnto_eq_ok {fromVersion newTimestamp : UInt64}
    (synced : renameOnto env source target fromVersion newTimestamp client = .ok after) :
    ∃ packed timestamp deltaFile computed unlinked queue, syncPackWritePath env target client = .ok packed ∧
      packed.db target = some timestamp ∧ computeDelta env target source target packed = .ok (deltaFile, computed) ∧
      syncEnqueue .unlink source [] none none none fromVersion 0 computed.queue = .ok unlinked ∧
      syncEnqueue .delta deltaFile target (some (paraAt env timestamp)) none none newTimestamp timestamp
        (syncDelete source unlinked) = .ok queue ∧
      after = { computed with queue := queue, db := Function.update computed.db target (some newTimestamp) } := by
  simp only [renameOnto, recfsUpdateTimestamp, recfsGetTimestamp, Except.bind_eq_ok, require_eq_ok] at synced
  obtain ⟨packed, packing, timestamp, known, ⟨deltaFile, computed⟩, computing, enqueued, enqueuing, last⟩ := synced
  obtain ⟨unlinked, first, rfl⟩ := enqueue_eq_ok enqueuing
  obtain ⟨queue, second, rfl⟩ := enqueue_eq_ok last
  exact ⟨packed, timestamp, deltaFile, computed, unlinked, queue, packing, known, computing, first, second, rfl⟩

theorem renameRelated_eq_ok {rn : RelNode} {fromVersion newTimestamp : UInt64}
    (synced : renameRelated env source target rn fromVersion newTimestamp client = .ok after) :
    ∃ deltaFile computed check, computeDelta env rn.dst source rn.dst client = .ok (deltaFile, computed) ∧
      computed.db rn.dst = some check ∧
      ((check = rn.time ∧ ∃ unlinked queue,
          syncEnqueue .unlink source [] none none none fromVersion 0 computed.queue = .ok unlinked ∧
          syncEnqueue .delta deltaFile target (some (paraAt env 0)) none none newTimestamp check
            (syncDelete source unlinked) = .ok queue ∧
          after = { computed with queue := queue, db := Function.update computed.db target (some newTimestamp) }) ∨
        (check ≠ rn.time ∧ ∃ packed queue,
          syncPackWritePath env source { computed with
            db := Function.update computed.db target (some newTimestamp) } = .ok packed ∧
          syncEnqueue .rename source target none none none newTimestamp fromVersion packed.queue = .ok queue ∧
          after = { packed with queue := queue })) := by
  simp only [renameRelated, recfsUpdateTimestamp, recfsGetTimestamp, Except.bind_eq_ok, require_eq_ok] at synced
  obtain ⟨⟨deltaFile, computed⟩, computing, check, known, synced⟩ := synced
  refine ⟨deltaFile, computed, check, computing, known, ?_⟩
  split at synced
  · next current =>
    simp only [Except.bind_eq_ok] at synced
    obtain ⟨enqueued, enqueuing, last⟩ := synced
    obtain ⟨unlinked, first, rfl⟩ := enqueue_eq_ok enqueuing
    obtain ⟨queue, second, rfl⟩ := enqueue_eq_ok last
    exact .inl ⟨current, unlinked, queue, first, second, rfl⟩
  · next changed =>
    simp only [Except.bind_eq_ok] at synced
    obtain ⟨packed, packing, last⟩ := synced
    obtain ⟨queue, queued, rfl⟩ := enqueue_eq_ok last
    exact .inr ⟨changed, packed, queue, packing, queued, rfl⟩

theorem linkRelated_eq_ok {rn : RelNode} {fromVersion : UInt64}
    (synced : linkRelated env source rn fromVersion client = .ok after) :
    ∃ target packed deltaFile computed check, syncPackWritePath env rn.dst client = .ok target ∧
      syncPackWritePath env source target = .ok packed ∧
      computeDelta env rn.dst source rn.dst packed = .ok (deltaFile, computed) ∧
      computed.db rn.dst = some check ∧
      ((check = rn.time ∧ ∃ queue,
          syncEnqueue .delta deltaFile source (some (paraAt env 0)) none none fromVersion check computed.queue =
            .ok queue ∧ after = { computed with queue := syncDelete source queue }) ∨
        (check ≠ rn.time ∧ after = computed)) := by
  simp only [linkRelated, recfsGetTimestamp, Except.bind_eq_ok, require_eq_ok] at synced
  obtain ⟨first, packing, packed, packing', ⟨deltaFile, computed⟩, computing, check, known, synced⟩ := synced
  refine ⟨first, packed, deltaFile, computed, check, packing, packing', computing, known, ?_⟩
  split at synced
  · next current =>
    obtain ⟨enqueued, enqueuing, same⟩ := Except.bind_eq_ok.mp synced
    obtain ⟨queue, queued, rfl⟩ := enqueue_eq_ok enqueuing
    exact .inl ⟨current, queue, queued, (Except.ok.inj same).symm⟩
  · next changed => exact .inr ⟨changed, (Except.ok.inj synced).symm⟩

theorem xmpLink_eq_ok (handled : xmpLink env source target client = .ok (res, after)) :
    ∃ version synced queue, client.db source = some version ∧
      linkSync env source target version client = .ok synced ∧
      syncEnqueue .link source target none none none synced.newVersion version synced.queue = .ok queue ∧
      ((res < 0 ∧ after = { synced with
          recfsCnt := synced.recfsCnt + 1, queue := queue
          db := Function.update synced.db target (some synced.newVersion) }) ∨
        ∃ fs, synced.fs.link source target = .ok fs ∧ res = 0 ∧ after = { synced with
          recfsCnt := synced.recfsCnt + 1, queue := queue, fs := fs
          db := Function.update synced.db target (some synced.newVersion) }) := by
  simp only [xmpLink, increaseRecfsCnt, recfsUpdateTimestamp, recfsGetTimestamp, Except.bind_eq_ok,
    require_eq_ok] at handled
  obtain ⟨version, known, synced, syncing, enqueued, enqueuing, handled⟩ := handled
  obtain ⟨queue, queued, rfl⟩ := enqueue_eq_ok enqueuing
  exact ⟨version, synced, queue, known, syncing, queued, syscall_eq handled⟩

/-- `xmp_chmod`, `xmp_chown` and `xmp_utimens` queue a node whatever the system call says. -/
theorem xmpSetattr_eq_ok {op : Op} {para : List UInt64}
    (handled : xmpSetattr env op path para client = .ok (res, after)) :
    ∃ queue, syncEnqueue op path [] (some (paraOf para)) none none 0 0 client.queue = .ok queue ∧
      ((res < 0 ∧ after = { client with queue := queue }) ∨
        ∃ fs, client.fs.setattr path = .ok fs ∧ res = 0 ∧ after = { client with queue := queue, fs := fs }) := by
  simp only [xmpSetattr, Except.bind_eq_ok] at handled
  obtain ⟨enqueued, enqueuing, handled⟩ := handled
  obtain ⟨queue, queued, rfl⟩ := enqueue_eq_ok enqueuing
  exact ⟨queue, queued, syscall_eq handled⟩

/-- A node takes a record unless it is the node of a new file. -/
def SyncNode.appended (record : BufInfo) (sn : SyncNode) : SyncNode :=
  if sn.isNewfile then sn else { sn with bn := sn.bn.map (· ++ [record]) }

/-- The record is all that is new. -/
theorem SyncNode.appended_fields (record : BufInfo) (sn : SyncNode) :
    (sn.appended record).op = sn.op ∧ (sn.appended record).src = sn.src ∧ (sn.appended record).dst = sn.dst ∧
      (sn.appended record).time = sn.time ∧ (sn.appended record).baseVer = sn.baseVer ∧
      (sn.appended record).isPacked = sn.isPacked ∧ (sn.appended record).isDelete = sn.isDelete ∧
      (sn.appended record).isEmpty = sn.isEmpty ∧ ((sn.appended record).Pending ↔ sn.Pending) := by
  simp only [SyncNode.appended]
  split
  · exact ⟨rfl, rfl, rfl, rfl, rfl, rfl, rfl, rfl, Iff.rfl⟩
  · exact ⟨rfl, rfl, rfl, rfl, rfl, rfl, rfl, rfl, Iff.rfl⟩

theorem appended_eq (client : Client) (slot : ℕ) (record : BufInfo) :
    (if (client.node slot).isNewfile then .ok client else .ok (client.appendRecord slot record) :
      Except Stop Client) = .ok (client.modifyNode slot fun sn => sn.appended record) := by
  split
  · next isNew =>
    have same : (client.node slot).appended record = client.node slot := by simp [SyncNode.appended, isNew]
    simp only [Client.node] at same
    simp [Client.modifyNode, SyncQueue.modifyNode, RingBuffer.modify, same]
  · next old =>
    have same : (client.node slot).appended record =
        { client.node slot with bn := (client.node slot).bn.map (· ++ [record]) } := by
      simp [SyncNode.appended, old]
    simp only [Client.node] at same
    simp [Client.appendRecord, Client.modifyNode, SyncQueue.modifyNode, RingBuffer.modify, same]

/-- The queue and the versions after a truncate. -/
theorem truncateSync_eq_ok {size : ℕ} (synced : truncateSync path size client = .ok after) :
    (size = 0 ∧ after = { client with queue := syncDeleteWrite path client.queue }) ∨
      (size ≠ 0 ∧ ∃ sh, (syncFind path client.queue).1 = some sh ∧
        after = { client with
          queue := (syncFind path client.queue).2.modifyNode sh.loc (SyncNode.appended (truncateRecord size)) }) ∨
      (size ≠ 0 ∧ (syncFind path client.queue).1 = none ∧ ∃ version queue, client.db path = some version ∧
        syncEnqueue .truncate path [] (some (paraOf [intPara size])) none none client.newVersion version
          (syncFind path client.queue).2 = .ok queue ∧
        after = { client with
          recfsCnt := client.recfsCnt + 1, queue := queue
          db := Function.update client.db path (some client.newVersion) }) := by
  simp only [truncateSync] at synced
  split at synced
  · next zero => exact .inl ⟨zero, (Except.ok.inj synced).symm⟩
  · next positive =>
    refine .inr ?_
    split at synced
    · next sh hit =>
      rw [appended_eq] at synced
      exact .inl ⟨positive, sh, hit, (Except.ok.inj synced).symm⟩
    · next miss =>
      simp only [increaseRecfsCnt, recfsUpdateTimestamp, recfsGetTimestamp, Except.bind_eq_ok,
        require_eq_ok] at synced
      obtain ⟨version, known, enqueuing⟩ := synced
      obtain ⟨queue, queued, rfl⟩ := enqueue_eq_ok enqueuing
      exact .inr ⟨positive, miss, version, queue, known, queued, rfl⟩

theorem xmpTruncate_eq_ok {size : ℕ} (handled : xmpTruncate env path size client = .ok (res, after)) :
    ∃ synced, truncateSync path size client = .ok synced ∧
      ((res < 0 ∧ after = synced) ∨
        ∃ fs, synced.fs.truncate path size = .ok fs ∧ res = 0 ∧ after = { synced with fs := fs }) := by
  simp only [xmpTruncate, Except.bind_eq_ok] at handled
  obtain ⟨synced, syncing, handled⟩ := handled
  exact ⟨synced, syncing, syscall_eq handled⟩

/-- The queue and the versions after a write. -/
theorem writeSync_eq_ok {offset : ℕ} {data : Bytes} (synced : writeSync env path offset data client = .ok after) :
    (∃ sh, (syncFind path client.queue).1 = some sh ∧
        after = { client with
          queue := (syncFind path client.queue).2.modifyNode sh.loc
            (SyncNode.appended (writeRecord env path offset data client)) }) ∨
      ((syncFind path client.queue).1 = none ∧ ∃ version queue, client.db path = some version ∧
        syncEnqueue .write path [] none (some [writeRecord env path offset data client]) none client.newVersion version
          (syncFind path client.queue).2 = .ok queue ∧
        after = { client with
          recfsCnt := client.recfsCnt + 1, queue := queue
          db := Function.update client.db path (some client.newVersion) }) := by
  simp only [writeSync] at synced
  split at synced
  · next sh hit =>
    rw [appended_eq] at synced
    exact .inl ⟨sh, hit, (Except.ok.inj synced).symm⟩
  · next miss =>
    simp only [increaseRecfsCnt, recfsUpdateTimestamp, recfsGetTimestamp, Except.bind_eq_ok,
      require_eq_ok] at synced
    obtain ⟨version, known, enqueuing⟩ := synced
    obtain ⟨queue, queued, rfl⟩ := enqueue_eq_ok enqueuing
    exact .inr ⟨miss, version, queue, known, queued, rfl⟩

theorem xmpWrite_eq_ok {offset : ℕ} {data : Bytes} (handled : xmpWrite env path offset data client = .ok (res, after)) :
    ∃ synced, writeSync env path offset data client = .ok synced ∧
      ((res < 0 ∧ after = synced) ∨
        ∃ fs, env.openFails = false ∧ synced.fs.pwriteAt path offset data = .ok fs ∧ res = data.length ∧
          after = { synced with fs := fs }) := by
  simp only [xmpWrite, Except.bind_eq_ok] at handled
  obtain ⟨synced, syncing, handled⟩ := handled
  refine ⟨synced, syncing, ?_⟩
  rcases syscall_eq handled with failed | ⟨fs, ok, rest⟩
  · exact .inl failed
  · split at ok
    · exact absurd ok (by simp)
    · next opened => exact .inr ⟨fs, by simpa using opened, ok, rest⟩

/-! ## Rounds of `sync_execute` -/

/-- The start of a round: a pending head is packed after its entry is removed. -/
theorem packHead_run (tidy : Tidy client.queue) (packed : packHead env client = .ok after) :
    (¬ (client.node client.queue.sq.head).Pending ∧ after = client) ∨
      (client.node client.queue.sq.head).Pending ∧ ∃ queue middle touched,
        queue.sq = client.queue.sq ∧ Tidy queue ∧
        (∀ sh, sh ∈ queue.shs ↔ sh ∈ client.queue.shs ∧ sh.path ≠ (client.node client.queue.sq.head).src) ∧
        PackRun env { client with queue := queue } middle touched ∧ client.queue.sq.head ∉ touched ∧
        PackedOne env client.queue.sq.head middle after := by
  simp only [packHead] at packed
  split at packed
  · next waits =>
    have pending : (client.node client.queue.sq.head).Pending := by
      simpa only [Bool.and_eq_true, Bool.not_eq_true', SyncNode.Pending, and_assoc, and_comm, and_left_comm] using waits
    refine .inr ⟨pending, ?_⟩
    obtain ⟨ring, entries, tidy', -⟩ := tidy.syncFind (client.node client.queue.sq.head).src
    have still : ((syncFind (client.node client.queue.sq.head).src client.queue).2.sq.node
        client.queue.sq.head).Pending := by
      rw [ring]
      exact pending
    cases hit : (syncFind (client.node client.queue.sq.head).src client.queue).1 with
    | none =>
      simp only [hit] at packed
      obtain ⟨middle, touched, -, run, apart, one, -⟩ := @syncPackWrite_run env
        { client with queue := (syncFind (client.node client.queue.sq.head).src client.queue).2 } after
        client.queue.sq.head packFuel tidy' still packed
      refine ⟨_, middle, touched, ring, tidy', fun sh => ?_, run, apart, one⟩
      rw [entries]
      exact ⟨fun member => ⟨member, tidy.not_found hit sh member⟩, fun kept => kept.1⟩
    | some sh =>
      simp only [hit] at packed
      obtain ⟨member, named⟩ := tidy.found hit
      have deleted := tidy'.hashDel (entries.symm ▸ member) rfl fun _ _ => rfl
      obtain ⟨middle, touched, -, run, apart, one, -⟩ := @syncPackWrite_run env
        { client with queue := hashDel sh (syncFind (client.node client.queue.sq.head).src client.queue).2 } after
        client.queue.sq.head packFuel deleted still packed
      refine ⟨hashDel sh _, middle, touched, ring, deleted, fun other => ?_, run, apart, one⟩
      simp only [hashDel, entries, tidy.mem_erase_iff]
      refine and_congr_right fun also => not_congr ⟨fun same => same ▸ named, fun same => ?_⟩
      exact tidy.eq_of_path also member (same.trans named.symm)
  · next settled =>
    refine .inl ⟨fun pending => settled ?_, (Except.ok.inj packed).symm⟩
    simp [pending.1, pending.2.1, pending.2.2]

/-- A round takes the head out of the queue, packed if it was pending. -/
theorem syncExecute_eq_ok {sent : Option SyncNode} (executed : syncExecute env client = .ok (sent, after)) :
    ((client.node client.queue.sq.head).isEmpty = true ∧ sent = none ∧ after = client) ∨
      (client.node client.queue.sq.head).isEmpty = false ∧ ∃ packed, packHead env client = .ok packed ∧
        sent = (if (packed.node client.queue.sq.head).isDelete then none
          else some (packed.node client.queue.sq.head)) ∧
        after = { packed with queue := syncDequeue packed.queue } := by
  simp only [syncExecute] at executed
  split at executed
  · next empty =>
    obtain ⟨rfl, rfl⟩ := Prod.mk.inj (Except.ok.inj executed)
    exact .inl ⟨empty, rfl, rfl⟩
  · next occupied =>
    obtain ⟨packed, packing, same⟩ := Except.bind_eq_ok.mp executed
    obtain ⟨rfl, rfl⟩ := Prod.mk.inj (Except.ok.inj same)
    exact .inr ⟨by simpa using occupied, packed, packing, rfl, rfl⟩

theorem PackInvariant.packHead {Inv : Client → Prop} (rule : PackInvariant env Inv)
    (packed : packHead env client = .ok after) (tidy : Tidy client.queue)
    (bound : client.queue.sq.head < queueSize) (occupied : (client.node client.queue.sq.head).isEmpty = false)
    (start : Inv client) : Inv after := by
  rcases packHead_run tidy packed with ⟨-, rfl⟩ | ⟨pending, queue, middle, touched, ring, tidy', -, run, apart, one⟩
  · exact start
  · have same : Client.node { client with queue := queue } client.queue.sq.head = client.node client.queue.sq.head := by
      simp only [Client.node, ring]
    exact rule.last tidy' run apart one bound (same ▸ occupied) (same ▸ pending) (rule.hash ring start)

/-! ## Calls -/

theorem next_eq_ok {event : Event} (stepped : client.next event = .ok after) :
    ∃ outcome, client.step event.env event.call = .ok outcome ∧ outcome.client = after := by
  obtain ⟨outcome, ran, same⟩ := Except.bind_eq_ok.mp stepped
  exact ⟨outcome, ran, Except.ok.inj same⟩

theorem ofHandled_eq_ok {handled : Handled} {outcome : Outcome} (returned : Outcome.ofHandled handled = .ok outcome) :
    handled = .ok (outcome.res, outcome.client) ∧ outcome.sent = none := by
  obtain ⟨⟨res, client⟩, ran, same⟩ := Except.bind_eq_ok.mp returned
  obtain rfl := Except.ok.inj same
  exact ⟨ran, rfl⟩

theorem step_syncExecute {outcome : Outcome} (stepped : client.step env .syncExecute = .ok outcome) :
    syncExecute env client = .ok (outcome.sent, outcome.client) ∧ outcome.res = 0 := by
  obtain ⟨⟨sent, after⟩, ran, same⟩ := Except.bind_eq_ok.mp stepped
  obtain rfl := Except.ok.inj same
  exact ⟨ran, rfl⟩

end DeltaCFS
