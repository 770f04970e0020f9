import DeltaCFS.Proofs.Librsync.Command
import DeltaCFS.Proofs.Librsync.Search

/-! # The plain scan

The delta job rolls a weak sum along, keeps what it has found in the scoop and stops whenever a buffer is
full. Without that, a scan goes through the new file from its start, searches for the window at every place,
and writes what the searches give. What its commands rebuild is told by the searches alone.
-/

namespace DeltaCFS

open Bytes Command

/-- What has been found and is not written yet: octets without a match, or a piece of the old file. -/
inductive Held where
  | missed (data : Bytes)
  | matched (position len : ℕ)

/-- The window at the start of what is left. -/
def nextWindow (rest : Bytes) : Bytes := rest.take defaultBlockLen

/-- How far the scan goes on behind a search. -/
def reach (found : Option ℕ) (rest : Bytes) : ℕ := if found.isSome then (nextWindow rest).length else 1

namespace Held

def commands : Held → List Command
  | missed data => if data = [] then [] else [.literal data]
  | matched position len => [.copy position len]

/-- A further match: a piece that goes on in the old file grows, everything else is written. -/
def match_ (matchPos matchLen : ℕ) : Held → List Command × Held
  | missed data => (commands (missed data), matched matchPos matchLen)
  | matched position len =>
    if position + len = matchPos then ([], matched position (len + matchLen))
    else (commands (matched position len), matched matchPos matchLen)

/-- A further octet without a match; a literal has at most `bufLen` octets. -/
def miss (octet : UInt8) : Held → List Command × Held
  | missed data =>
    if data.length < bufLen then ([], missed (data ++ [octet])) else (commands (missed data), missed [octet])
  | matched position len => (commands (matched position len), missed [octet])

/-- What is written for the outcome of a search, and what is held then. -/
def next (found : Option ℕ) (rest : Bytes) (held : Held) : List Command × Held :=
  match found with
  | some matchPos => held.match_ matchPos (nextWindow rest).length
  | none => held.miss (rest.getD 0 0)

/-- How much of the new file is held. -/
def span : Held → ℕ
  | missed data => data.length
  | matched _ len => len

/-- A literal is never longer than a buffer, and a copy never empty. -/
def Formed : Held → Prop
  | missed data => data.length ≤ bufLen
  | matched _ len => 0 < len

end Held

theorem nextWindow_length (rest : Bytes) : (nextWindow rest).length = min defaultBlockLen rest.length :=
  List.length_take

theorem nextWindow_pos {rest : Bytes} (more : rest ≠ []) : 0 < (nextWindow rest).length := by
  have positive : 0 < defaultBlockLen := by decide
  have some_ := List.length_pos_of_ne_nil more
  rw [nextWindow_length]
  omega

theorem reach_some (matchPos : ℕ) (rest : Bytes) : reach (some matchPos) rest = (nextWindow rest).length := rfl

theorem reach_none (rest : Bytes) : reach none rest = 1 := rfl

theorem reach_pos (found : Option ℕ) {rest : Bytes} (more : rest ≠ []) : 0 < reach found rest := by
  have positive := nextWindow_pos more
  rw [reach]
  split <;> omega

theorem reach_le (found : Option ℕ) {rest : Bytes} (more : rest ≠ []) : reach found rest ≤ rest.length := by
  have some_ := List.length_pos_of_ne_nil more
  have window := nextWindow_length rest
  rw [reach]
  split <;> omega

section Scan

variable {σ : Type}

/-- The commands for the rest of the new file, where `search` gives a place of the old file and the state in
which the next search begins. -/
def greedyFrom (search : σ → Bytes → Option ℕ × σ) (state : σ) (rest : Bytes) (held : Held) : List Command :=
  if rest = [] then held.commands
  else
    let found := search state (nextWindow rest)
    (held.next found.1 rest).1 ++
      greedyFrom search found.2 (rest.drop (reach found.1 rest)) (held.next found.1 rest).2
termination_by rest.length
decreasing_by
  have more : rest ≠ [] := by assumption
  have some_ := List.length_pos_of_ne_nil more
  have goes := reach_pos (search state (nextWindow rest)).1 more
  rw [List.length_drop]
  omega

/-- The searches that the scan makes: the states in which they begin, and the windows. -/
def scanned (search : σ → Bytes → Option ℕ × σ) (state : σ) (rest : Bytes) : List (σ × Bytes) :=
  if rest = [] then []
  else
    let found := search state (nextWindow rest)
    (state, nextWindow rest) :: scanned search found.2 (rest.drop (reach found.1 rest))
termination_by rest.length
decreasing_by
  have more : rest ≠ [] := by assumption
  have some_ := List.length_pos_of_ne_nil more
  have goes := reach_pos (search state (nextWindow rest)).1 more
  rw [List.length_drop]
  omega

variable {search : σ → Bytes → Option ℕ × σ} {state : σ} {old new rest data : Bytes} {held : Held}

theorem greedyFrom_nil (search : σ → Bytes → Option ℕ × σ) (state : σ) (held : Held) :
    greedyFrom search state [] held = held.commands := by
  rw [greedyFrom, if_pos rfl]

theorem greedyFrom_more (more : rest ≠ []) :
    greedyFrom search state rest held = (held.next (search state (nextWindow rest)).1 rest).1 ++
      greedyFrom search (search state (nextWindow rest)).2 (rest.drop (reach (search state (nextWindow rest)).1 rest))
        (held.next (search state (nextWindow rest)).1 rest).2 := by
  rw [greedyFrom, if_neg more]

theorem scanned_nil (search : σ → Bytes → Option ℕ × σ) (state : σ) : scanned search state [] = [] := by
  rw [scanned, if_pos rfl]

theorem forall_scanned {P : σ × Bytes → Prop} (more : rest ≠ []) :
    (∀ place ∈ scanned search state rest, P place) ↔ P (state, nextWindow rest) ∧
      ∀ place ∈ scanned search (search state (nextWindow rest)).2
        (rest.drop (reach (search state (nextWindow rest)).1 rest)), P place := by
  rw [scanned, if_neg more]
  exact List.forall_mem_cons

/-- The windows are no longer than a block, and not empty. -/
theorem scanned_window (search : σ → Bytes → Option ℕ × σ) (state : σ) (rest : Bytes) :
    ∀ place ∈ scanned search state rest, place.2.length ≤ defaultBlockLen ∧ place.2 ≠ [] := by
  induction state, rest using scanned.induct search with
  | case1 state => simp [scanned_nil]
  | case2 state rest more found ih =>
    refine (forall_scanned more).mpr ⟨⟨List.length_take_le .., ?_⟩, ih⟩
    exact List.ne_nil_of_length_pos (nextWindow_pos more)

/-- Searches that give the same give the same commands. -/
theorem greedyFrom_congr {τ : Type} {search' : τ → Bytes → Option ℕ × τ} (state' : τ)
    (same : ∀ place ∈ scanned search state rest, ∀ state', (search' state' place.2).1 = (search place.1 place.2).1) :
    greedyFrom search' state' rest held = greedyFrom search state rest held := by
  induction state, rest, held using greedyFrom.induct search generalizing state' with
  | case1 state held => rw [greedyFrom_nil, greedyFrom_nil]
  | case2 state rest held more found ih =>
    obtain ⟨here, behind⟩ := (forall_scanned more).mp same
    rw [greedyFrom_more more, greedyFrom_more more, here state', ih _ behind]

/-! ## The shape of the commands -/

theorem Held.commands_formed (formed : held.Formed) : ∀ command ∈ held.commands, command.WellFormed := by
  cases held with
  | missed data =>
    simp only [commands]
    split_ifs with none
    · simp
    · simpa [WellFormed] using ⟨none, formed⟩
  | matched position len => exact List.forall_mem_singleton.mpr formed

theorem Held.next_formed (found : Option ℕ) (formed : held.Formed) (more : rest ≠ []) :
    (∀ command ∈ (held.next found rest).1, command.WellFormed) ∧ (held.next found rest).2.Formed := by
  have written := commands_formed formed
  have positive := nextWindow_pos more
  have single : 1 ≤ bufLen := by decide
  cases found with
  | some matchPos =>
    cases held with
    | missed data => exact ⟨written, positive⟩
    | matched position len =>
      simp only [next, match_]
      split_ifs
      · exact ⟨by simp, Nat.add_pos_right _ positive⟩
      · exact ⟨written, positive⟩
  | none =>
    cases held with
    | missed data =>
      simp only [next, miss]
      split_ifs with room
      · refine ⟨by simp, ?_⟩
        change (data ++ [_]).length ≤ bufLen
        simpa using Nat.succ_le_of_lt room
      · exact ⟨written, single⟩
    | matched position len => exact ⟨written, single⟩

theorem greedyFrom_formed (search : σ → Bytes → Option ℕ × σ) (state : σ) (rest : Bytes) (formed : held.Formed) :
    ∀ command ∈ greedyFrom search state rest held, command.WellFormed := by
  induction state, rest, held using greedyFrom.induct search with
  | case1 state held =>
    rw [greedyFrom_nil]
    exact Held.commands_formed formed
  | case2 state rest held more found ih =>
    obtain ⟨written, formed⟩ := Held.next_formed (search state (nextWindow rest)).1 formed more
    rw [greedyFrom_more more]
    exact List.forall_mem_append.mpr ⟨written, ih formed⟩

/-- The copy ends before `limit`. -/
def Held.Within (limit : ℕ) : Held → Prop
  | missed _ => True
  | matched position len => position + len ≤ limit

theorem Held.commands_within {limit : ℕ} (within : held.Within limit) : ∀ command ∈ held.commands, command.Within limit := by
  cases held with
  | missed data =>
    simp only [commands]
    split_ifs <;> simp [Command.Within]
  | matched position len => exact List.forall_mem_singleton.mpr within

theorem Held.next_within {size : ℕ} {found : Option ℕ} (inside : ∀ matchPos, found = some matchPos → matchPos < size)
    (within : held.Within (size + defaultBlockLen)) :
    (∀ command ∈ (held.next found rest).1, command.Within (size + defaultBlockLen)) ∧
      (held.next found rest).2.Within (size + defaultBlockLen) := by
  have written := commands_within within
  have window := nextWindow_length rest
  cases found with
  | some matchPos =>
    have place := inside matchPos rfl
    cases held with
    | missed data =>
      refine ⟨written, ?_⟩
      change matchPos + (nextWindow rest).length ≤ _
      omega
    | matched position len =>
      simp only [next, match_]
      split_ifs with adjacent
      · refine ⟨by simp, ?_⟩
        change position + (len + (nextWindow rest).length) ≤ _
        omega
      · refine ⟨written, ?_⟩
        change matchPos + (nextWindow rest).length ≤ _
        omega
  | none =>
    cases held with
    | missed data =>
      simp only [next, miss]
      split_ifs
      · exact ⟨by simp, trivial⟩
      · exact ⟨written, trivial⟩
    | matched position len => exact ⟨written, trivial⟩

/-- A copy goes on only where a match begins, and so ends hardly behind the old file. -/
theorem greedyFrom_within {size : ℕ}
    (inside : ∀ place ∈ scanned search state rest, ∀ matchPos, (search place.1 place.2).1 = some matchPos → matchPos < size)
    (within : held.Within (size + defaultBlockLen)) :
    ∀ command ∈ greedyFrom search state rest held, command.Within (size + defaultBlockLen) := by
  induction state, rest, held using greedyFrom.induct search with
  | case1 state held =>
    rw [greedyFrom_nil]
    exact Held.commands_within within
  | case2 state rest held more found ih =>
    obtain ⟨here, behind⟩ := (forall_scanned more).mp inside
    obtain ⟨written, within⟩ := Held.next_within here within
    rw [greedyFrom_more more]
    exact List.forall_mem_append.mpr ⟨written, ih behind within⟩

/-! ## What the commands rebuild -/

/-- The commands fit the old file and stand for these octets. -/
def Rebuilds (old : Bytes) (commands : List Command) (data : Bytes) : Prop :=
  (∀ command ∈ commands, command.Fits old) ∧ applyAll old commands = data

/-- The window is in the old file where it has been found. -/
def There (old window : Bytes) (found : Option ℕ) : Prop :=
  ∀ matchPos, found = some matchPos → matchPos + window.length ≤ old.length ∧ pread old matchPos window.length = window

theorem applyAll_length {commands : List Command} (fits : ∀ command ∈ commands, command.Fits old) :
    (applyAll old commands).length = spans commands := by
  induction commands with
  | nil => rfl
  | cons command behind ih =>
    obtain ⟨here, fits⟩ := List.forall_mem_cons.mp fits
    have size : (command.apply old).length = command.span := by
      cases command with
      | literal data => rfl
      | copy position len =>
        have inside : position + len ≤ old.length := here
        rw [Command.apply, pread_length, Command.span]
        omega
    have sum : spans (command :: behind) = command.span + spans behind := List.sum_cons
    rw [sum, ← ih fits, ← size, applyAll, applyAll, List.flatMap_cons, List.length_append]

/-- Each part of the commands rebuilds its part of the octets. -/
theorem rebuilds_append {first second : List Command} :
    Rebuilds old (first ++ second) data ↔
      Rebuilds old first (data.take (spans first)) ∧ Rebuilds old second (data.drop (spans first)) := by
  simp only [Rebuilds, List.forall_mem_append, applyAll_append]
  constructor
  · rintro ⟨⟨fits, fits'⟩, rfl⟩
    rw [← applyAll_length fits, List.take_left, List.drop_left]
    exact ⟨⟨fits, rfl⟩, fits', rfl⟩
  · rintro ⟨⟨fits, content⟩, fits', content'⟩
    exact ⟨⟨fits, fits'⟩, by rw [content, content', List.take_append_drop]⟩

theorem rebuilds_copy {position len : ℕ} :
    Rebuilds old [.copy position len] data ↔ position + len ≤ old.length ∧ pread old position len = data := by
  simp only [Rebuilds, List.forall_mem_singleton, applyAll_singleton, Fits, Command.Within, Command.apply]

theorem Held.rebuilds_missed {octets : Bytes} : Rebuilds old (missed octets).commands data ↔ octets = data := by
  by_cases none : octets = []
  · simp [Rebuilds, commands, none]
  · simp [Rebuilds, commands, none, applyAll_singleton, Fits, Command.Within, Command.apply]

namespace Held

theorem spans_commands (held : Held) : spans held.commands = held.span := by
  cases held with
  | missed data =>
    simp only [commands]
    split_ifs with none
    · rw [none]
      rfl
    · rw [spans_singleton]
      rfl
  | matched position len => rw [commands, spans_singleton, Command.span, span]

/-- What is written and what is held stand for all that has been scanned. -/
theorem next_span (found : Option ℕ) (rest : Bytes) (held : Held) :
    spans (held.next found rest).1 + (held.next found rest).2.span = held.span + reach found rest := by
  have written := spans_commands held
  cases found with
  | some matchPos =>
    rw [reach_some]
    cases held with
    | missed data => exact congrArg (· + (nextWindow rest).length) written
    | matched position len =>
      simp only [next, match_]
      split_ifs
      · exact Nat.zero_add _
      · exact congrArg (· + (nextWindow rest).length) written
  | none =>
    rw [reach_none]
    cases held with
    | missed data =>
      simp only [next, miss]
      split_ifs
      · simp [span, spans]
      · exact congrArg (· + 1) written
    | matched position len => exact congrArg (· + 1) written

end Held

theorem take_one {octets : Bytes} (more : octets ≠ []) : octets.take 1 = [octets.getD 0 0] := by
  cases octets with
  | nil => exact absurd rfl more
  | cons octet behind => rfl

theorem take_reach (matchPos : ℕ) (rest : Bytes) : rest.take (reach (some matchPos) rest) = nextWindow rest := by
  rw [reach_some, nextWindow, List.length_take, ← List.take_eq_take_min]

/-- What is written first and what is held then, apart. -/
private theorem rebuilds_written {behind : List Command} {octets : Bytes} (known : data.length = held.span) :
    Rebuilds old (held.commands ++ behind) (data ++ octets) ↔ Rebuilds old held.commands data ∧ Rebuilds old behind octets := by
  rw [rebuilds_append, Held.spans_commands, ← known, List.take_left, List.drop_left]

/-- One search adds that the window is where it has been found. -/
theorem Held.next_rebuilds {found : Option ℕ} (more : rest ≠ []) (known : data.length = held.span) :
    Rebuilds old ((held.next found rest).1 ++ (held.next found rest).2.commands) (data ++ rest.take (reach found rest)) ↔
      Rebuilds old held.commands data ∧ There old (nextWindow rest) found := by
  cases found with
  | some matchPos =>
    have there : There old (nextWindow rest) (some matchPos) ↔
        matchPos + (nextWindow rest).length ≤ old.length ∧
          pread old matchPos (nextWindow rest).length = nextWindow rest := by
      simp [There]
    rw [take_reach, there]
    cases held with
    | missed octets => exact (rebuilds_written known).trans (and_congr_right fun _ => rebuilds_copy)
    | matched position len =>
      simp only [next, match_]
      split_ifs with adjacent
      · have known : data.length = len := known
        simp only [List.nil_append, commands, rebuilds_copy]
        have joined : pread old position (len + (nextWindow rest).length) =
            pread old position len ++ pread old matchPos (nextWindow rest).length := by
          rw [← adjacent]
          simp only [pread, List.take_add, List.drop_drop]
        rw [joined]
        constructor
        · rintro ⟨inside, content⟩
          have size : (pread old position len).length = data.length := by
            rw [pread_length]
            omega
          obtain ⟨first, second⟩ := List.append_inj content size
          exact ⟨⟨by omega, first⟩, by omega, second⟩
        · rintro ⟨⟨-, first⟩, inside, second⟩
          exact ⟨by omega, by rw [first, second]⟩
      · exact (rebuilds_written known).trans (and_congr_right fun _ => rebuilds_copy)
  | none =>
    have nowhere : There old (nextWindow rest) none := by simp [There]
    have octet : rest.take (reach none rest) = [rest.getD 0 0] := take_one more
    rw [octet, and_iff_left nowhere]
    cases held with
    | missed octets =>
      simp only [next, miss]
      split_ifs
      · rw [List.nil_append, rebuilds_missed, rebuilds_missed, List.append_left_inj]
      · exact (rebuilds_written known).trans (and_iff_left (rebuilds_missed.mpr rfl))
    | matched position len => exact (rebuilds_written known).trans (and_iff_left (rebuilds_missed.mpr rfl))

/-- The commands rebuild the new file exactly if every window is where it has been found. -/
theorem greedyFrom_rebuilds (search : σ → Bytes → Option ℕ × σ) (state : σ) (rest : Bytes)
    (known : data.length = held.span) :
    Rebuilds old (greedyFrom search state rest held) (data ++ rest) ↔ Rebuilds old held.commands data ∧
      ∀ place ∈ scanned search state rest, There old place.2 (search place.1 place.2).1 := by
  induction state, rest, held using greedyFrom.induct search generalizing data with
  | case1 state held => simp [greedyFrom_nil, scanned_nil]
  | case2 state rest held more found =>
    rename_i ih
    have step := @Held.next_rebuilds old rest data held (search state (nextWindow rest)).1 more known
    have spans_ := held.next_span (search state (nextWindow rest)).1 rest
    have inside := reach_le (search state (nextWindow rest)).1 more
    rw [greedyFrom_more more, forall_scanned more]
    generalize (held.next (search state (nextWindow rest)).1 rest).1 = written at *
    generalize (held.next (search state (nextWindow rest)).1 rest).2 = held' at *
    generalize reach (search state (nextWindow rest)).1 rest = len at *
    have size : (data ++ rest.take len).length = spans written + held'.span := by
      rw [List.length_append, List.length_take_of_le inside]
      omega
    have split : data ++ rest = (data ++ rest.take len) ++ rest.drop len := by
      rw [List.append_assoc, List.take_append_drop]
    have behind := ih (show ((data ++ rest.take len).drop (spans written)).length = held'.span by rw [List.length_drop]; omega)
    rw [rebuilds_append] at step ⊢
    rw [split, List.take_append_of_le_length (by omega), List.drop_append_of_le_length (by omega), behind, ← and_assoc,
      step, and_assoc]

/-! ## What the literals miss -/

/-- Commands that begin at a place of the new file: every literal holds what is there, and at no octet
of it a window begins that is a block of the old file. -/
def LiteralsMissed (old new : Bytes) : ℕ → List Command → Prop
  | _, [] => True
  | place, .literal data :: rest => (new.drop place).take data.length = data ∧
      (∀ k, place ≤ k → k < place + data.length → Unmatched old ((new.drop k).take defaultBlockLen)) ∧
      LiteralsMissed old new (place + data.length) rest
  | place, .copy _ len :: rest => LiteralsMissed old new (place + len) rest

theorem literalsMissed_append (first second : List Command) (place : ℕ) :
    LiteralsMissed old new place (first ++ second) ↔
      LiteralsMissed old new place first ∧ LiteralsMissed old new (place + spans first) second := by
  induction first generalizing place with
  | nil => simp [LiteralsMissed, spans]
  | cons command rest ih =>
    have sum : spans (command :: rest) = command.span + spans rest := List.sum_cons
    cases command with
    | literal data =>
      rw [List.cons_append, LiteralsMissed, LiteralsMissed, ih, sum, Command.span, Nat.add_assoc, and_assoc, and_assoc]
    | copy position len =>
      rw [List.cons_append, LiteralsMissed, LiteralsMissed, ih, sum, Command.span, Nat.add_assoc]

namespace Held

/-- What holds of a literal that is held. -/
theorem literalsMissed_missed {octets : Bytes} {place : ℕ} :
    LiteralsMissed old new place (missed octets).commands ↔ (new.drop place).take octets.length = octets ∧
      ∀ k, place ≤ k → k < place + octets.length → Unmatched old ((new.drop k).take defaultBlockLen) := by
  simp only [commands]
  split_ifs with none
  · simp [none, LiteralsMissed]
    omega
  · simp [LiteralsMissed]

/-- One search keeps it, if it misses no block. -/
theorem next_missed {found : Option ℕ} {place : ℕ} (more : new.drop (place + held.span) ≠ [])
    (before : LiteralsMissed old new place held.commands)
    (unmatched : found = none → Unmatched old (nextWindow (new.drop (place + held.span)))) :
    LiteralsMissed old new place ((held.next found (new.drop (place + held.span))).1 ++
      (held.next found (new.drop (place + held.span))).2.commands) := by
  -- a single octet behind what is written
  have single (missed_ : found = none) : LiteralsMissed old new (place + held.span)
      (missed [(new.drop (place + held.span)).getD 0 0]).commands := by
    refine literalsMissed_missed.mpr ⟨take_one more, fun k first second => ?_⟩
    obtain rfl : k = place + held.span := by
      simp only [List.length_singleton] at second
      omega
    exact unmatched missed_
  have written {behind : List Command} (next_ : LiteralsMissed old new (place + held.span) behind) :
      LiteralsMissed old new place (held.commands ++ behind) :=
    (literalsMissed_append _ _ _).mpr ⟨before, by rwa [spans_commands]⟩
  cases found with
  | some matchPos =>
    cases held with
    | missed octets => exact written trivial
    | matched position len =>
      simp only [next, match_]
      split_ifs
      · trivial
      · exact written trivial
  | none =>
    cases held with
    | missed octets =>
      simp only [next, miss]
      split_ifs
      · obtain ⟨here, missed_⟩ := literalsMissed_missed.mp before
        obtain ⟨octet, missed'⟩ := literalsMissed_missed.mp (single rfl)
        refine literalsMissed_missed.mpr ⟨?_, fun k first second => ?_⟩
        · rw [List.length_append, List.length_singleton, List.take_add, List.drop_drop]
          exact congrArg₂ _ here octet
        · rw [List.length_append, List.length_singleton] at second
          by_cases inside : k < place + octets.length
          · exact missed_ k first inside
          · exact missed' k (Nat.le_of_not_lt inside) (Nat.lt_of_lt_of_eq second (Nat.add_assoc ..).symm)
      · exact written (single rfl)
    | matched position len => exact written (single rfl)

end Held

/-- If no search misses a block, no literal could be a copy. -/
theorem greedyFrom_missed {place : ℕ} (here : rest = new.drop (place + held.span))
    (before : LiteralsMissed old new place held.commands)
    (unmatched : ∀ at_ ∈ scanned search state rest, (search at_.1 at_.2).1 = none → Unmatched old at_.2) :
    LiteralsMissed old new place (greedyFrom search state rest held) := by
  induction state, rest, held using greedyFrom.induct search generalizing place with
  | case1 state held =>
    rw [greedyFrom_nil]
    exact before
  | case2 state rest held more found =>
    rename_i ih
    obtain ⟨missed_, unmatched⟩ := (forall_scanned more).mp unmatched
    rw [greedyFrom_more more]
    subst here
    have step := Held.next_missed more before missed_
    have spans_ := held.next_span (search state (nextWindow (new.drop (place + held.span)))).1
      (new.drop (place + held.span))
    rw [literalsMissed_append] at step ⊢
    have further := congrArg (fun len => new.drop (place + len)) spans_
    simp only [← Nat.add_assoc] at further
    exact ⟨step.1, ih (List.drop_drop.trans further.symm) step.2 unmatched⟩

end Scan

end DeltaCFS
