import DeltaCFS.Model.Librsync.Delta
import DeltaCFS.Proofs.Librsync.Scoop
import Mathlib.Tactic.IntervalCases

/-! # Delta commands

A delta is a list of literals and copies. Here they get their meaning on an old file and their
encoding, and what it takes to queue one for output.
-/

namespace DeltaCFS

open Bytes Job

inductive Command where
  | literal (data : Bytes)
  | copy (position len : ℕ)
deriving DecidableEq, Repr

namespace Command

/-- The content a command stands for. -/
def apply (old : Bytes) : Command → Bytes
  | literal data => data
  | copy position len => pread old position len

/-- The content a list of commands stands for. -/
def applyAll (old : Bytes) (commands : List Command) : Bytes := commands.flatMap (apply old)

/-- Every parameter has the shortest of four widths. -/
def width (value : ℕ) : ℕ :=
  if value < 2 ^ 8 then 0 else if value < 2 ^ 16 then 1 else if value < 2 ^ 32 then 2 else 3

def literalHeader (len : ℕ) : Bytes := UInt8.ofNat (0x41 + width len) :: netint (rsIntLen len) len

def copyHeader (position len : ℕ) : Bytes :=
  UInt8.ofNat (0x45 + 4 * width position + width len) ::
    (netint (rsIntLen position) position ++ netint (rsIntLen len) len)

def encode : Command → Bytes
  | literal data => literalHeader data.length ++ data
  | copy position len => copyHeader position len

def encodeAll (commands : List Command) : Bytes := commands.flatMap encode

/-- What the delta job emits whatever the files. -/
def WellFormed : Command → Prop
  | literal data => data ≠ [] ∧ data.length ≤ bufLen
  | copy _ len => 0 < len

/-- A copy ends before `limit`. -/
def Within (limit : ℕ) : Command → Prop
  | literal _ => True
  | copy position len => position + len ≤ limit

/-- A copy stays within the old file. -/
def Fits (old : Bytes) (command : Command) : Prop := command.Within old.length

/-- How much of the new file a command stands for. -/
def span : Command → ℕ
  | literal data => data.length
  | copy _ len => len

def spans (commands : List Command) : ℕ := (commands.map span).sum

theorem spans_singleton (command : Command) : spans [command] = command.span := Nat.add_zero _

theorem applyAll_append (old : Bytes) (first second : List Command) :
    applyAll old (first ++ second) = applyAll old first ++ applyAll old second :=
  List.flatMap_append

theorem encodeAll_append (first second : List Command) :
    encodeAll (first ++ second) = encodeAll first ++ encodeAll second :=
  List.flatMap_append

@[simp] theorem applyAll_nil (old : Bytes) : applyAll old [] = [] := rfl

@[simp] theorem encodeAll_nil : encodeAll [] = [] := rfl

theorem applyAll_singleton (old : Bytes) (command : Command) : applyAll old [command] = command.apply old :=
  List.append_nil _

theorem encodeAll_singleton (command : Command) : encodeAll [command] = command.encode := List.append_nil _

theorem rsIntLen_eq (value : ℕ) : rsIntLen value = 2 ^ width value := by
  rw [rsIntLen, width]
  split_ifs <;> rfl

theorem width_lt (value : ℕ) : width value < 4 := by
  rw [width]
  split_ifs <;> decide

theorem rsIntLen_le (value : ℕ) : rsIntLen value ≤ 8 := by
  rw [rsIntLen]
  split_ifs <;> decide

theorem literalHeader_length (len : ℕ) : (literalHeader len).length = rsIntLen len + 1 := by
  simp [literalHeader]

theorem copyHeader_length (position len : ℕ) :
    (copyHeader position len).length = rsIntLen position + rsIntLen len + 1 := by
  simp [copyHeader]

theorem copyHeader_le (position len : ℕ) : (copyHeader position len).length ≤ 17 := by
  have := rsIntLen_le position
  have := rsIntLen_le len
  rw [copyHeader_length]
  omega

end Command

open Command

variable {σ : Type} {job next : Job σ} {rest : Bytes}

/-- A literal command goes into the tube. -/
theorem rsEmitLiteralCmd_value {len : ℕ} (idle : job.Idle) (small : len < 2 ^ 32) :
    rsEmitLiteralCmd len job = .ok (job.queue (literalHeader len) job.own) := by
  have paramLen := rsIntLen_eq len
  have narrow : width len < 3 := by
    rw [width]
    split_ifs <;> omega
  obtain ⟨writeBuf, copyLen⟩ := idle
  unfold rsEmitLiteralCmd literalHeader
  rw [paramLen]
  generalize width len = w at narrow
  interval_cases w <;>
    simp [rsSquirtByte, rsSquirtNetint, rsTubeWrite, tubeSize, copyLen, writeBuf, queue, bind, Except.bind]

/-- A copy command goes into the tube. -/
theorem rsEmitCopyCmd_value (idle : job.Idle) (position len : ℕ) :
    rsEmitCopyCmd position len job = .ok (job.queue (copyHeader position len) job.own) := by
  have whereBytes := rsIntLen_eq position
  have lenBytes := rsIntLen_eq len
  have narrow := width_lt position
  have narrow' := width_lt len
  obtain ⟨writeBuf, copyLen⟩ := idle
  unfold rsEmitCopyCmd copyHeader
  rw [whereBytes, lenBytes]
  generalize width position = w at narrow
  generalize width len = w' at narrow'
  interval_cases w <;> interval_cases w' <;>
    simp [rsSquirtByte, rsSquirtNetint, rsTubeWrite, tubeSize, copyLen, writeBuf, queue, bind, Except.bind]

/-! ## Moves -/

/-- The next state has emitted further octets and moved `len` octets further in the input. -/
structure Job.Moves (job next : Job σ) (rest octets : Bytes) (len : ℕ) : Prop extends Extends job next rest where
  emitted : ∀ out, next.emitted out rest = job.emitted out rest ++ octets
  pending : next.pending rest = (job.pending rest).drop len
  credit : next.tube + job.availOut = job.tube + octets.length + next.availOut

namespace Job.Moves

variable {octets : Bytes} {len : ℕ}

theorem trans {third : Job σ} {octets' : Bytes} {len' : ℕ} (one : job.Moves next rest octets len)
    (two : next.Moves third rest octets' len') : job.Moves third rest (octets ++ octets') (len + len') := by
  refine ⟨one.toExtends.trans two.toExtends, fun out => ?_, ?_, ?_⟩
  · rw [two.emitted, one.emitted, List.append_assoc]
  · rw [two.pending, one.pending, List.drop_drop]
  · have := one.credit
    have := two.credit
    rw [List.length_append]
    omega

theorem of_flows (flows : job.Flows next rest) : job.Moves next rest [] 0 := by
  refine ⟨flows.toExtends, fun out => ?_, ?_, flows.credit⟩
  · rw [flows.emitted, List.append_nil]
  · rw [flows.pending, List.drop_zero]

/-- Own fields do not count. -/
theorem of_own (sound : job.Sound rest) (own : σ) : job.Moves { job with own := own } rest [] 0 :=
  ⟨⟨⟨sound.copies, sound.ended, sound.detached, sound.room⟩, rfl, rfl, rfl, le_rfl, le_rfl⟩,
    fun _ => (List.append_nil _).symm, rfl, rfl⟩

theorem setOwn (moves : job.Moves next rest octets len) (own : σ) :
    job.Moves { next with own := own } rest octets len := by
  simpa using moves.trans (of_own moves.sound own)

theorem of_queue (sound : job.Sound rest) (idle : job.Idle) (buf : Bytes) (own : σ) :
    job.Moves (job.queue buf own) rest buf 0 := by
  refine ⟨queue_extends sound buf own, fun out => queue_emitted idle buf own, rfl, ?_⟩
  rw [queue_tube idle, idle_iff_tube.mp idle, queue_availOut, Nat.zero_add]

/-- What is emitted is paid for. -/
theorem pays {potential : σ → Bytes → Bytes → ℕ} {extra : ℕ} (moves : job.Moves next rest octets len) (out : Bytes)
    (cost : potential next.own (job.emitted out rest ++ octets) ((job.pending rest).drop len) + octets.length + extra ≤
      potential job.own (job.emitted out rest) (job.pending rest)) : job.Pays potential next out rest extra := by
  have credit := moves.credit
  rw [Pays, moves.emitted, moves.pending]
  omega

end Job.Moves

/-- How `rs_tube_catchup` ends. -/
def Job.Settled (result : Result) (job : Job σ) : Prop :=
  (result = .done ∧ job.Idle) ∨ (result = .blocked ∧ job.Waits true)

theorem rsTubeCatchup_moves (sound : job.Sound rest) :
    ∃ result next, rsTubeCatchup job = (result, next) ∧ job.Moves next rest [] 0 ∧ next.own = job.own ∧
      next.Settled result := by
  obtain ⟨result, next, caught, flows, ended⟩ := rsTubeCatchup_spec sound
  refine ⟨result, next, caught, .of_flows flows, flows.own, ?_⟩
  rcases ended with done | ⟨blocked, -, full | starved⟩
  · exact .inl done
  · exact .inr ⟨blocked, .inl ⟨rfl, full⟩⟩
  · exact .inr ⟨blocked, .inr starved⟩

end DeltaCFS
