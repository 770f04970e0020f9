import DeltaCFS.Proofs.Client.Steps

/-! # Conditions on what is packed

Packing one node may first pack others. A condition on the client and the node, asked whenever a node has
its turn, goes along with the recursion; the rule carries a property of the client through packing that
holds up under the condition only.
-/

namespace DeltaCFS

variable {env : Env} {client after : Client} {slot fuel : ℕ} {path : Path} {P : Client → ℕ → Prop} {Inv : Client → Prop}

/-- The condition holds of every node that `sync_pack_write` packs, when it packs it. -/
def packsEach (P : Client → ℕ → Prop) (env : Env) : ℕ → ℕ → Client → Prop
  | 0, _, _ => True
  | fuel + 1, slot, client =>
    match (client.node slot).op with
    | .newfile =>
      (∀ rh sh, relFind (client.node slot).src client.rel = some rh →
        (syncFind (client.rel.rq.node rh.loc).dst client.queue).1 = some sh →
        packsEach P env fuel sh.loc { client with queue := (syncFind (client.rel.rq.node rh.loc).dst client.queue).2 }) ∧
      ∀ middle, packsBefore env fuel slot client = .ok middle → P middle slot
    | .write => P client slot
    | _ => True

/-- The same for `sync_pack_write_path`. -/
def packsEachPath (P : Client → ℕ → Prop) (env : Env) (path : Path) (client : Client) : Prop :=
  ∀ sh, (syncFind path client.queue).1 = some sh →
    packsEach P env packFuel sh.loc { client with queue := hashDel sh (syncFind path client.queue).2 }

/-- The same for the head of the queue. -/
def packsEachHead (P : Client → ℕ → Prop) (env : Env) (client : Client) : Prop :=
  let head := client.queue.sq.head
  (client.node head).Pending →
    let found := syncFind (client.node head).src client.queue
    let queue := match found.1 with
      | some sh => hashDel sh found.2
      | none => found.2
    packsEach P env packFuel head { client with queue := queue }

/-- A property that does not depend on the hash and that packing one pending node keeps under the
condition. -/
structure PackRule (env : Env) (P : Client → ℕ → Prop) (Inv : Client → Prop) : Prop where
  hash : ∀ {client : Client} {queue : SyncQueue}, queue.sq = client.queue.sq → Inv client →
    Inv { client with queue := queue }
  one : ∀ {slot : ℕ} {client after : Client}, slot < queueSize → (client.node slot).isEmpty = false →
    (client.node slot).Pending → P client slot → PackedOne env slot client after → Inv client → Inv after

namespace PackRule

theorem syncPackWrite (rule : PackRule env P Inv) (tidy : Tidy client.queue) (bound : slot < queueSize)
    (occupied : (client.node slot).isEmpty = false) (pending : (client.node slot).Pending)
    (each : packsEach P env fuel slot client) (packed : syncPackWrite env fuel slot client = .ok after)
    (start : Inv client) : Inv after := by
  induction fuel generalizing slot client after with
  | zero => exact absurd packed (by simp [DeltaCFS.syncPackWrite])
  | succ fuel ih =>
    rw [packsEach] at each
    rcases pending.op_cases with newfile | write
    · simp only [newfile] at each
      obtain ⟨deeper, turn⟩ := each
      obtain ⟨middle, touched, -, run, apart, one, -, -, first⟩ := syncPackWrite_run tidy pending packed
      have before := first fuel rfl newfile
      have same := run.node_eq tidy apart
      refine rule.one bound (same ▸ occupied) (same ▸ pending) (turn middle before) one ?_
      -- what the relation leads to was packed before
      simp only [packsBefore] at before
      split at before
      · exact Except.ok.inj before ▸ start
      · next rh related =>
        obtain ⟨ring, entries, looked, -⟩ := tidy.syncFind (client.rel.rq.node rh.loc).dst
        have found : Inv { client with queue := (syncFind (client.rel.rq.node rh.loc).dst client.queue).2 } :=
          rule.hash ring start
        cases hit : (syncFind (client.rel.rq.node rh.loc).dst client.queue).1 with
        | none =>
          rw [hit] at before
          exact Except.ok.inj before ▸ found
        | some sh =>
          simp only [hit, packFound, Except.bind_eq_ok] at before
          obtain ⟨deep, packing, finished⟩ := before
          obtain rfl := Except.ok.inj finished
          obtain ⟨bound', occupied', pending', -⟩ := looked.refers sh (entries ▸ (tidy.found hit).1)
          have tidy' : Tidy ({ client with
            queue := (syncFind (client.rel.rq.node rh.loc).dst client.queue).2 } : Client).queue := looked
          exact rule.hash rfl (ih tidy' bound' occupied' pending' (deeper rh sh related hit) packing found)
    · simp only [write] at each
      simp only [DeltaCFS.syncPackWrite, write] at packed
      exact rule.one bound occupied pending each (packWrite_eq_ok write packed) start

theorem packPath (rule : PackRule env P Inv) (packed : syncPackWritePath env path client = .ok after)
    (tidy : Tidy client.queue) (each : packsEachPath P env path client) (start : Inv client) : Inv after := by
  obtain ⟨ring, entries, looked, -⟩ := tidy.syncFind path
  rw [syncPackWritePath_eq] at packed
  split at packed
  · next sh queue hit =>
    have found : (syncFind path client.queue).1 = some sh := by rw [hit]
    obtain rfl : (syncFind path client.queue).2 = queue := by rw [hit]
    have member := entries.symm ▸ (tidy.found found).1
    obtain ⟨bound, occupied, pending, -⟩ := looked.refers sh member
    have deleted : Inv { client with queue := hashDel sh (syncFind path client.queue).2 } := rule.hash ring start
    have tidy' : Tidy ({ client with queue := hashDel sh (syncFind path client.queue).2 } : Client).queue :=
      looked.hashDel member rfl fun _ _ => rfl
    exact rule.syncPackWrite tidy' bound occupied pending (each sh found) packed deleted
  · next queue miss =>
    obtain rfl : (syncFind path client.queue).2 = queue := by rw [miss]
    exact Except.ok.inj packed ▸ rule.hash ring start

theorem packHead (rule : PackRule env P Inv) (packed : packHead env client = .ok after) (tidy : Tidy client.queue)
    (bound : client.queue.sq.head < queueSize) (occupied : (client.node client.queue.sq.head).isEmpty = false)
    (each : packsEachHead P env client) (start : Inv client) : Inv after := by
  simp only [DeltaCFS.packHead] at packed
  split at packed
  · next waits =>
    have pending : (client.node client.queue.sq.head).Pending := by
      simpa only [Bool.and_eq_true, Bool.not_eq_true', SyncNode.Pending, and_assoc, and_comm, and_left_comm] using waits
    have later := each pending
    obtain ⟨ring, entries, looked, -⟩ := tidy.syncFind (client.node client.queue.sq.head).src
    have start' (queue : SyncQueue) (same : queue.sq = client.queue.sq) (tidy' : Tidy queue)
        (later : packsEach P env packFuel client.queue.sq.head { client with queue := queue })
        (packed : DeltaCFS.syncPackWrite env packFuel client.queue.sq.head { client with queue := queue } = .ok after) :
        Inv after := by
      have node : ({ client with queue := queue } : Client).node client.queue.sq.head =
          client.node client.queue.sq.head := by simp only [Client.node, same]
      have ready : Tidy ({ client with queue := queue } : Client).queue := tidy'
      exact rule.syncPackWrite ready bound (node ▸ occupied) (node ▸ pending) later packed (rule.hash same start)
    cases hit : (syncFind (client.node client.queue.sq.head).src client.queue).1 with
    | none =>
      simp only [hit] at packed later
      exact start' _ ring looked later packed
    | some sh =>
      simp only [hit] at packed later
      have deleted := looked.hashDel (entries.symm ▸ (tidy.found hit).1) rfl fun _ _ => rfl
      exact start' (hashDel sh _) ring deleted later packed
  · exact Except.ok.inj packed ▸ start

end PackRule

end DeltaCFS
