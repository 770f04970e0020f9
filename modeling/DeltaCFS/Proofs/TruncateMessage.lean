import DeltaCFS.Proofs.Client.Steps
import DeltaCFS.Proofs.Delivery

/-! # A truncate from the handler to the server

The length a caller gives to `xmp_truncate` goes through an `int`, a `uint64_t` and four octets of
the message. What arrives is its remainder modulo `2 ^ 32`, and the server's copy loops, whatever
`sendfile` transfers at a time, cut or extend the old content to that.
-/

namespace DeltaCFS

open Bytes

variable {schedule : Schedule} {source content : Bytes} {path : Path} {size : ℕ}

/-! ## The copy loop -/

theorem transfer_bounds (schedule : Schedule) (k : ℕ) {count : ℕ} (positive : 0 < count) :
    0 < transfer schedule k count ∧ transfer schedule k count ≤ count := by
  simp only [transfer]
  omega

/-- However `sendfile` splits the transfer, the loop copies the first `total` octets. -/
theorem sendfileLoop_eq (schedule : Schedule) (source : Bytes) (total : ℕ) :
    ∀ fuel k sent copied, total - sent ≤ fuel →
      sendfileLoop schedule source total fuel k sent copied = copied ++ (source.drop sent).take (total - sent) := by
  intro fuel
  induction fuel with
  | zero =>
    intro k sent copied enough
    rw [sendfileLoop, Nat.le_zero.mp enough, List.take_zero, List.append_nil]
  | succ fuel ih =>
    intro k sent copied enough
    rw [sendfileLoop]
    split
    · next more =>
      obtain ⟨progress, most⟩ := transfer_bounds schedule k (show 0 < total - sent by omega)
      rw [ih (k + 1) _ _ (by omega), List.append_assoc, ← List.drop_drop]
      congr 1
      rw [← List.take_add]
      congr 1
      omega
    · next done => rw [show total - sent = 0 by omega, List.take_zero, List.append_nil]

/-- The content under the new version is the old one cut or extended to the length that arrived. -/
theorem funcTruncate_dir {statSize : ℤ} {dir : Dir} {workload : Bytes} {request : TruncateRequest}
    (read : readTruncate workload = .ok request) (held : dir request.oldver = some content)
    (different : request.oldver ≠ request.newver) :
    ∃ reply, funcTruncate schedule statSize dir workload = .ok reply ∧
      reply.dir request.newver = some (resize request.truncateLen content) ∧
      ∀ other, other ≠ request.newver → reply.dir other = dir other := by
  have opened : (dir request.oldver).isSome = true := by simp [held]
  have kept : dir.set request.newver [] request.oldver = some content := by simp [Dir.set, different, held]
  simp only [funcTruncate, read, opened, kept, bind, Except.bind, pure, Except.pure, Option.getD_some, ↓reduceIte,
    Bool.not_true, Bool.false_and, Bool.false_eq_true]
  split
  · next cut =>
    refine ⟨_, rfl, ?_, fun other apart => by simp [Dir.set, apart]⟩
    rw [sendfileLoop_eq schedule content _ _ 0 0 [] (by omega)]
    have within : request.truncateLen ≤ content.length := by exact_mod_cast cut
    simp [Dir.set, resize, within]
  · refine ⟨_, rfl, ?_, fun other apart => by simp [Dir.set, apart]⟩
    rw [sendfileLoop_eq schedule content _ _ 0 0 [] (by omega)]
    simp [Dir.set]

/-! ## Names -/

/-- `PATH_LEN`, the size of the name arrays of a node. -/
def pathLen : ℕ := 4096

/-- A name that fits the node but not the server's buffer stops the client or the server. -/
theorem long_name_fails {readFile : Path → Option Bytes} {sn : SyncNode} {message : Message} {statSize : ℤ}
    {dir : Dir} {reply : Reply} (op : sn.op = .truncate) (string : 0 ∉ sn.src) (short : sn.src.length < pathLen)
    (long : 255 < sn.src.length) (sent : syncSend readFile sn = .ok (some message)) :
    funcTruncate schedule statSize dir message.workload ≠ .ok reply := by
  have length : nameLen sn.src = sn.src.length + 1 := by
    have all : sn.src.takeWhile (· ≠ 0) = sn.src := by
      refine List.takeWhile_eq_self_iff.mpr fun byte member => ?_
      simpa using fun zero : byte = 0 => string (zero ▸ member)
    simp only [pathLen] at short
    rw [nameLen, strlen, all]
    omega
  have field : nameField sn.src = ofNatLE 2 (sn.src.length + 1) ++ (sn.src ++ [0]) := by
    rw [nameField, length, List.take_of_length_le (by simp)]
  have workload : message.workload = sendTruncate sn := by
    simp only [syncSend, op, sendBlob] at sent
    split at sent
    · exact (congrArg Message.workload (Option.some.inj (Except.ok.inj sent))).symm
    · exact absurd sent (by simp)
  have size : readLE? 2 (sendTruncate sn) 16 = some (sn.src.length + 1) := by
    have here := readLE?_append 16 (word64 sn.baseVer ++ word64 sn.time)
      (sn.src ++ [0] ++ word32 (sn.para 0).toNat) 2 (sn.src.length + 1) (by simp)
    simp only [pathLen] at short
    rw [Nat.mod_eq_of_lt (by omega)] at here
    simpa only [sendTruncate, field, List.append_assoc] using here
  have overflow : ∀ result, readName (sendTruncate sn) 16 ≠ .ok result := by
    intro result read
    have tooLong : maxNameLen < sn.src.length + 1 := by
      simp only [maxNameLen]
      omega
    simp only [readName, size, inside, bind, Except.bind, if_pos tooLong] at read
    split at read
    · exact absurd read (by simp)
    · exact absurd read (by simp [throw, throwThe, MonadExceptOf.throw])
  rw [workload]
  intro served
  simp only [funcTruncate, readTruncate, Except.bind_eq_ok] at served
  obtain ⟨-, ⟨_, -, _, -, name, named, -⟩, -⟩ := served
  exact overflow name named

/-! ## End to end -/

/-- The node a truncate to a positive size queues when no node of the path waits. -/
theorem xmpTruncate_node {env : Env} {client after : Client} {res : ℤ} (positive : 0 < size)
    (absent : (syncFind path client.queue).1 = none) (handled : xmpTruncate env path size client = .ok (res, after)) :
    ∃ version old, client.db path = some version ∧
      after.node client.queue.sq.tail = SyncNode.enqueued old .truncate path [] (some (paraOf [intPara size])) none none
        client.newVersion version := by
  obtain ⟨synced, syncing, outcome⟩ := xmpTruncate_eq_ok handled
  have same : after.queue = synced.queue := by
    rcases outcome with ⟨-, rfl⟩ | ⟨fs, -, -, rfl⟩ <;> rfl
  rcases truncateSync_eq_ok syncing with
    ⟨zero, -⟩ | ⟨-, sh, hit, -⟩ | ⟨-, -, version, queue, known, queued, rfl⟩
  · omega
  · exact absurd (absent.symm.trans hit) (by simp)
  · refine ⟨version, client.node client.queue.sq.tail, known, ?_⟩
    rw [syncFind_eq_self absent, syncEnqueue] at queued
    split at queued
    · rw [Client.node, same, ← Except.ok.inj queued]
      simp [RingBuffer.push, Client.node]
    · exact absurd queued (by simp)

/-- The node is sent, the server handles the message, the new version has the old content at the new
size, and the files of all other versions, the old one among them, are as before. -/
def TruncateArrives (readFile : Path → Option Bytes) (server : ServerEnv) (dir : Dir) (sn : SyncNode) (size : ℕ)
    (content : Bytes) : Prop :=
  ∃ message reply, syncSend readFile sn = .ok (some message) ∧ serve server dir message = .ok reply ∧
    reply.dir (verToName sn.time) = some (resize size content) ∧
    reply.dir (verToName sn.baseVer) = some content ∧
    ∀ other, other ≠ verToName sn.time → reply.dir other = dir other

/-- The server cuts or extends to the remainder of the size. -/
theorem truncateNode_arrives {readFile : Path → Option Bytes} {server : ServerEnv} {dir : Dir} {sn : SyncNode}
    (op : sn.op = .truncate) (source : FitsName sn.src) (length : (sn.para 0).toNat % 2 ^ 32 = size % 2 ^ 32)
    (different : sn.baseVer ≠ sn.time) (held : dir (verToName sn.baseVer) = some content) :
    TruncateArrives readFile server dir sn (size % 2 ^ 32) content ∧
      (TruncateArrives readFile server dir sn size content → size < 2 ^ 32) := by
  have apart : verToName sn.baseVer ≠ verToName sn.time := fun same => different (verToName_injective same)
  have sent := syncSend_truncate readFile op source
  obtain ⟨reply, served, new, others⟩ := @funcTruncate_dir server.schedule content server.statSize dir _ _
    (readTruncate_sendTruncate source) held apart
  rw [length] at new
  refine ⟨⟨_, reply, sent, served, new, (others _ apart).trans held, others⟩, ?_⟩
  rintro ⟨message, reply', sent', served', arrived, -⟩
  obtain rfl := Option.some.inj (Except.ok.inj (sent.symm.trans sent'))
  obtain rfl := Except.ok.inj (served.symm.trans served')
  have same := congrArg List.length (Option.some.inj (new.symm.trans arrived))
  rw [resize_length, resize_length] at same
  exact same ▸ Nat.mod_lt _ (by decide)

/-- A truncate arrives exactly if its size fits four octets and the name the server's buffer. -/
theorem truncate_arrives_iff (env : Env) (readFile : Path → Option Bytes) (server : ServerEnv) (client after : Client)
    (path : Path) (size : ℕ) (dir : Dir) (version : UInt64) (content : Bytes) (positive : 0 < size)
    (string : 0 ∉ path) (short : path.length < pathLen) (absent : (syncFind path client.queue).1 = none)
    (known : client.db path = some version) (fresh : version ≠ client.newVersion)
    (held : dir (verToName version) = some content) (handled : xmpTruncate env path size client = .ok (0, after)) :
    TruncateArrives readFile server dir (after.node client.queue.sq.tail) size content ↔
      size < 2 ^ 32 ∧ path.length ≤ 255 := by
  obtain ⟨base, old, known', node⟩ := xmpTruncate_node positive absent handled
  obtain rfl := Option.some.inj (known.symm.trans known')
  rw [node]
  by_cases fits : path.length ≤ 255
  · obtain ⟨arrives, small⟩ := @truncateNode_arrives content size readFile server dir
      (SyncNode.enqueued old .truncate path [] (some (paraOf [intPara size])) none none client.newVersion version)
      rfl ⟨string, fits⟩ (intPara_toNat_mod size) fresh held
    refine ⟨fun arrived => ⟨small arrived, fits⟩, fun both => ?_⟩
    rwa [Nat.mod_eq_of_lt both.1] at arrives
  · refine iff_of_false ?_ fun both => fits both.2
    rintro ⟨message, reply, sent, served, -⟩
    cases syncSend_transmits sent with
    | truncate op => exact long_name_fails op string short (by simp only [SyncNode.enqueued]; omega) sent served
    | _ op => exact absurd op (by simp [SyncNode.enqueued])

/-- A file that was created and sent. -/
def sentFile : List Event := [⟨.plain, .mknod [47, 97] 33188 0⟩, ⟨.plain, .syncExecute⟩]

theorem truncate_arrives_three :
    ∃ client after, Transition.replay Client.next sentFile Client.empty = .ok client ∧
      xmpTruncate .plain [47, 97] 3 client = .ok (0, after) ∧
      TruncateArrives (fun _ => none) .plain (fun name => if name = verToName 2 then some [7] else none)
        (after.node 1) 3 [7] := by
  have replayed : ∃ client, Transition.replay Client.next sentFile Client.empty = .ok client ∧
      ((syncFind [47, 97] client.queue).1 = none ∧ client.db [47, 97] = some 2 ∧ (2 : UInt64) ≠ client.newVersion ∧
        client.queue.sq.tail = 1 ∧
        (xmpTruncate .plain [47, 97] 3 client).passes (fun result => result.1 = 0) = true) :=
    Except.exists_ok (by decide +kernel)
  obtain ⟨client, replayed, absent, known, fresh, tail, truncates⟩ := replayed
  obtain ⟨⟨res, after⟩, handled, rfl⟩ := Except.exists_ok truncates
  have arrives := (truncate_arrives_iff .plain (fun _ => none) .plain client after [47, 97] 3
    (fun name => if name = verToName 2 then some [7] else none) 2 [7] (by decide) (by decide) (by decide)
    absent known fresh (by simp) handled).mpr (by decide)
  exact ⟨client, after, replayed, handled, tail ▸ arrives⟩

/-- A truncate to four gibibytes arrives as a truncate to nothing. -/
theorem truncate_to_four_gibibytes_empties :
    ∃ client after, Transition.replay Client.next sentFile Client.empty = .ok client ∧
      xmpTruncate .plain [47, 97] (2 ^ 32) client = .ok (0, after) ∧
      TruncateArrives (fun _ => none) .plain (fun name => if name = verToName 2 then some [7] else none)
        (after.node 1) 0 [7] ∧
      ¬ TruncateArrives (fun _ => none) .plain (fun name => if name = verToName 2 then some [7] else none)
        (after.node 1) (2 ^ 32) [7] := by
  have replayed : ∃ client, Transition.replay Client.next sentFile Client.empty = .ok client ∧
      ((syncFind [47, 97] client.queue).1 = none ∧ client.db [47, 97] = some 2 ∧ (2 : UInt64) ≠ client.newVersion ∧
        client.queue.sq.tail = 1 ∧
        (xmpTruncate .plain [47, 97] (2 ^ 32) client).passes (fun result => result.1 = 0) = true) :=
    Except.exists_ok (by decide +kernel)
  obtain ⟨client, replayed, absent, known, fresh, tail, truncates⟩ := replayed
  obtain ⟨⟨res, after⟩, handled, rfl⟩ := Except.exists_ok truncates
  obtain ⟨version, old, known', node⟩ := xmpTruncate_node (by decide) absent handled
  obtain rfl := Option.some.inj (known.symm.trans known')
  obtain ⟨arrives, small⟩ := @truncateNode_arrives [7] (2 ^ 32) (fun _ => none) .plain
    (fun name => if name = verToName 2 then some [7] else none)
    (SyncNode.enqueued old .truncate [47, 97] [] (some (paraOf [intPara (2 ^ 32)])) none none client.newVersion 2)
    rfl (show FitsName [47, 97] by decide) (intPara_toNat_mod (2 ^ 32)) fresh (if_pos rfl)
  rw [tail] at node
  exact ⟨client, after, replayed, handled, node ▸ arrives, fun arrived => absurd (small (node ▸ arrived)) (by decide)⟩

end DeltaCFS
