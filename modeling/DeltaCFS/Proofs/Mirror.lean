import DeltaCFS.Proofs.Convergence
import DeltaCFS.Spec.Files

/-! # The server mirrors the files

The files of the mount change as the calls say, and with an empty queue the server has the same files;
so what the server has depends on the calls alone, and not on when their nodes were packed and sent.
-/

namespace DeltaCFS

open Bytes

variable {env : Env} {server : ServerEnv} {client after : Client} {origin : UInt64 → Bytes} {traced middle last : Traced}

/-- The files of the mount. -/
def Client.files (client : Client) : Files := fun path => if UserPath path then client.fs.read path else none

/-- The files that the server has for the paths of the mount. -/
def System.mirror (system : System) : Files := fun path =>
  if UserPath path then (system.client.db path).bind fun version => system.dir (verToName version) else none

/-! ## The files of the mount -/

namespace Client

theorem files_user {path : Path} (user : UserPath path) : client.files path = client.fs.read path := if_pos user

/-- One file changes. -/
theorem files_update {path : Path} (user : UserPath path) {content : Option Bytes}
    (reads : ∀ other, UserPath other → after.fs.read other = if other = path then content else client.fs.read other) :
    after.files = Function.update client.files path content := by
  funext other
  by_cases inside : UserPath other
  · rw [files_user inside, reads other inside, Function.update_apply, files_user inside]
  · have apart : other ≠ path := fun same => inside (same ▸ user)
    rw [Function.update_of_ne apart, files, files, if_neg inside, if_neg inside]

/-- A call does to the files of the mount what it says. -/
theorem files_next {event : Event} (mounted : Mounted client) (formed : client.WellFormed)
    (regular : RegularCall event client) (sound : event.call.Sound event.env server client origin)
    (stepped : client.next event = .ok after) : after.files = client.files.after event.call := by
  obtain ⟨env, call⟩ := event
  obtain ⟨onFiles, succeeds⟩ := regular
  obtain ⟨outcome, ran, rfl⟩ := next_eq_ok stepped
  have done := succeeds outcome ran
  cases call with
  | mknod path mode rdev =>
    obtain ⟨handled, -⟩ := ofHandled_eq_ok ran
    exact files_update sound (mounted.plain.mknod formed.queue.tidy handled done).2
  | unlink path =>
    obtain ⟨handled, -⟩ := ofHandled_eq_ok ran
    exact files_update sound.1 (mounted.plain.unlink formed.queue.tidy handled done).2
  | rename source target =>
    obtain ⟨handled, -⟩ := ofHandled_eq_ok ran
    obtain ⟨user, user', -⟩ := sound
    obtain ⟨content, held, -, reads⟩ := mounted.plain.xmpRename formed.queue.tidy handled done
    funext other
    rw [Files.after, files_user user, held user]
    by_cases inside : UserPath other
    · rw [files_user inside, reads other inside, Function.update_apply, Function.update_apply, files_user inside]
    · have apart : other ≠ target ∧ other ≠ source := ⟨fun same => inside (same ▸ user'), fun same => inside (same ▸ user)⟩
      rw [Function.update_of_ne apart.1, Function.update_of_ne apart.2, files, files, if_neg inside, if_neg inside]
  | truncate path size =>
    obtain ⟨handled, -⟩ := ofHandled_eq_ok ran
    obtain ⟨user, -⟩ := sound
    obtain ⟨content, held, -, reads⟩ := mounted.plain.xmpTruncate handled done
    rw [Files.after, files_user user, held]
    exact files_update user fun other _ => reads other
  | write path offset data =>
    obtain ⟨handled, -⟩ := ofHandled_eq_ok ran
    obtain ⟨content, held, -, reads⟩ := mounted.plain.xmpWrite handled done
    rw [Files.after, files_user sound, held]
    exact files_update sound fun other _ => reads other
  | syncExecute =>
    obtain ⟨executed, -⟩ := step_syncExecute ran
    have agrees := (FileSystem.Agrees.temporary client.fs).syncExecute executed formed.queue (.refl mounted.plain)
    change outcome.client.files = client.files
    funext other
    by_cases inside : UserPath other
    · rw [files_user inside, agrees.read_eq other inside, files_user inside]
    · rw [files, if_neg inside, files, if_neg inside]
  | relDequeue =>
    obtain rfl := Except.ok.inj ran
    rfl
  | _ => simp [Call.onFiles] at onFiles

end Client

/-- The files of the mount are those that the calls have made. -/
theorem Faithfully.files_next {event : SystemEvent} {next : Traced} (faithfully : Faithfully traced)
    (faithful : Faithful event traced) (stepped : traced.next event = .ok next) :
    next.system.client.files = traced.system.client.files.next event := by
  obtain ⟨keeps, sound⟩ := faithful
  obtain ⟨system, ran, same⟩ := Except.bind_eq_ok.mp stepped
  obtain rfl := Except.ok.inj same
  cases event with
  | restart memory => exact absurd keeps.1 id
  | call event server =>
    exact Client.files_next faithfully.chain.state.mounted faithfully.chain.state.formed keeps.1 sound
      (ChainState.client_next ran)

theorem Faithfully.replay {events : List SystemEvent} (faithfully : Faithfully traced)
    (allowed : Transition.AllAllowed Traced.next Faithful events traced)
    (replayed : Transition.replay Traced.next events traced = .ok last) :
    Faithfully last ∧ last.system.client.files = events.foldl Files.next traced.system.client.files :=
  Transition.replay_simulates (fun traced files => Faithfully traced ∧ traced.system.client.files = files)
    (fun event files => files.next event)
    (fun related faithful stepped => ⟨related.1.step faithful stepped,
      related.2 ▸ related.1.files_next faithful stepped⟩)
    allowed replayed ⟨faithfully, rfl⟩

/-! ## The files of the server -/

/-- With an empty queue the server has the files of the mount. -/
theorem Faithfully.mirror_eq (faithfully : Faithfully traced)
    (idle : (traced.system.client.node traced.system.client.queue.sq.head).isEmpty = true) :
    traced.system.mirror = traced.system.client.files := by
  obtain ⟨what, contents⟩ := faithfully.contents
  obtain ⟨-, nodes, ⟨fifo, queued, rfl⟩, chain⟩ := faithfully.chain.linked.queue
  obtain rfl := queued.isEmpty_head.mp idle
  funext path
  by_cases user : UserPath path
  · rw [Client.files_user user, System.mirror, if_pos user]
    cases known : traced.system.client.db path with
    | none =>
      cases held : traced.system.client.fs.read path with
      | none => rfl
      | some content => simpa [known] using faithfully.versioned path content user held
    | some version =>
      obtain ⟨stored, found⟩ := Option.isSome_iff_exists.mp (chain.current path version known)
      rw [contents.files path version user known, ← contents.stored version stored found]
      exact found
  · rw [System.mirror, Client.files, if_neg user, if_neg user]

/-- A round of `sync_execute`. -/
def SystemEvent.IsRound (event : SystemEvent) : Prop := ∃ env server, event = .call ⟨env, .syncExecute⟩ server

/-- A round takes a node out of the queue. -/
theorem Traced.round {event : SystemEvent} {next : Traced} {n : ℕ} (round : event.IsRound)
    (waiting : traced.system.client.queue.Holds fun nodes => nodes.length ≤ n) (stepped : traced.next event = .ok next) :
    next.system.client.queue.Holds fun nodes => nodes.length ≤ n - 1 := by
  obtain ⟨env, server, rfl⟩ := round
  obtain ⟨system, ran, same⟩ := Except.bind_eq_ok.mp stepped
  obtain rfl := Except.ok.inj same
  obtain ⟨outcome, ran, same⟩ := next_eq_ok (ChainState.client_next ran)
  obtain ⟨executed, -⟩ := step_syncExecute ran
  rw [← same]
  generalize traced.system.client = client at executed waiting
  have keeps : PackKeeps env client fun nodes => nodes.length ≤ n := by
    intro state after slot before rest _ _ _ _ short
    simpa using short
  rcases syncExecute_eq_ok executed with ⟨empty, -, unchanged⟩ | ⟨occupied, packed, packing, -, dequeued⟩
  · rw [unchanged]
    obtain ⟨tidy, nodes, ⟨fifo, queued, rfl⟩, -⟩ := waiting
    obtain rfl := queued.isEmpty_head.mp empty
    exact ⟨tidy, _, ⟨[], queued, rfl⟩, Nat.zero_le _⟩
  · rcases SyncQueue.Holds.syncExecute executed waiting keeps with ⟨-, unchanged⟩ | ⟨-, sn, -, holds⟩
    · -- the slot of the head is empty afterwards
      obtain ⟨head, still, -⟩ := packHead_head (waiting.imp fun _ _ => trivial) packing occupied
      have present : ¬ (packed.queue.sq.node client.queue.sq.head).isEmpty = true := Bool.not_eq_true _ |>.mpr still
      have emptied : (outcome.client.node client.queue.sq.head).isEmpty = true := by
        rw [dequeued, Client.node, syncDequeue, head, if_neg present]
        simp [RingBuffer.pop, head]
      rw [unchanged, occupied] at emptied
      exact absurd emptied (by simp)
    · exact holds.imp fun rest short => by
        rw [List.length_cons] at short
        omega

/-- After as many rounds as there are nodes the queue is empty. -/
theorem rounds_drain {rounds : List SystemEvent} {nodes : List SyncNode}
    (waiting : middle.system.client.queue.Holds fun nodes' => nodes'.length ≤ nodes.length)
    (consumer : ∀ event ∈ rounds, event.IsRound) (enough : nodes.length ≤ rounds.length)
    (replayed : Transition.replay Traced.next rounds middle = .ok last) :
    (last.system.client.node last.system.client.queue.sq.head).isEmpty = true := by
  have allowed : Transition.AllAllowed Traced.next (fun event _ => event.IsRound) rounds middle := by
    clear replayed waiting enough
    induction rounds generalizing middle with
    | nil => trivial
    | cons event rest ih =>
      exact ⟨consumer event (by simp), fun _ _ => ih fun other inside => consumer other (by simp [inside])⟩
  obtain ⟨-, rest, ⟨fifo, queued, rfl⟩, short⟩ := Transition.replay_exhausts
    (fun n traced => traced.system.client.queue.Holds fun nodes => nodes.length ≤ n)
    (fun waiting round stepped => Traced.round round waiting stepped) allowed replayed waiting
  obtain rfl : fifo = [] := by
    rw [List.length_map] at short
    exact List.length_eq_zero_iff.mp (by omega)
  exact queued.isEmpty_head.mpr rfl

end DeltaCFS
