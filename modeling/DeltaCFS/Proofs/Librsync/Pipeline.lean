import DeltaCFS.Model.Librsync.Patch
import DeltaCFS.Proofs.Librsync.Delta

/-! # The delta of two files

The signature, load and delta jobs of `compute_delta` make the delta of a scan with `rs_search_for_block`. It
misses no block of the old file, and without false hits it is the delta of a scan that takes the first block
that is equal to its window.
-/

namespace DeltaCFS

open Bytes Job Command

variable {qsort : Qsort} {sigStack searchStack : Stack} {old new rest : Bytes} {fuel : ℕ}

/-- The pipeline makes the delta, unless there are more blocks than an `int` can count. -/
theorem deltaPipeline_ends (qsort : Qsort) (sigStack searchStack : Stack) (old new : Bytes)
    (enough : pipelineFuel old new ≤ fuel) :
    (blockCount old < 2 ^ 31 ∧ deltaPipeline qsort sigStack searchStack fuel old new =
      .ok (some (deltaOctets (deltaEnv qsort sigStack searchStack old) new))) ∨
    (2 ^ 31 ≤ blockCount old ∧ deltaPipeline qsort sigStack searchStack fuel old new = .ok none) := by
  have blocks : blockCount old ≤ old.length := by
    simp only [blockCount, defaultBlockLen]
    omega
  simp only [pipelineFuel] at enough
  have computed := rsDeltaFile_done (deltaEnv qsort sigStack searchStack old) rfl new (show _ < fuel by omega)
  rw [deltaEnv] at computed
  have signed := rsSigFile_done sigStack old (show _ < fuel by omega)
  rcases rsLoadsigFile_ends sigStack old (show _ < fuel by omega) with ⟨few, loaded⟩ | ⟨many, sig, loaded⟩
  · refine .inl ⟨few, ?_⟩
    simp only [deltaPipeline, signed, loaded, computed, bind, Except.bind, ne_eq, not_true_eq_false, ↓reduceIte, pure,
      Except.pure, deltaEnv]
  · refine .inr ⟨many, ?_⟩
    simp only [deltaPipeline, signed, loaded, bind, Except.bind, ne_eq, not_true_eq_false, ↓reduceIte, reduceCtorEq,
      not_false_eq_true, pure, Except.pure]

theorem deltaPipeline_done (qsort : Qsort) (sigStack searchStack : Stack) (new : Bytes) (few : blockCount old < 2 ^ 31)
    (enough : pipelineFuel old new ≤ fuel) : deltaPipeline qsort sigStack searchStack fuel old new =
      .ok (some (deltaOctets (deltaEnv qsort sigStack searchStack old) new)) := by
  rcases deltaPipeline_ends qsort sigStack searchStack old new enough with ⟨-, computed⟩ | ⟨many, -⟩
  · exact computed
  · exact absurd few (Nat.not_lt.mpr many)

theorem deltaPipeline_eq_some (enough : pipelineFuel old new ≤ fuel) {delta : Bytes}
    (computed : deltaPipeline qsort sigStack searchStack fuel old new = .ok (some delta)) :
    delta = deltaOctets (deltaEnv qsort sigStack searchStack old) new := by
  rcases deltaPipeline_ends qsort sigStack searchStack old new enough with ⟨-, value⟩ | ⟨-, value⟩
  · exact Option.some.inj (Except.ok.inj (computed.symm.trans value))
  · cases computed.symm.trans value

theorem blockCount_lt (small : old.length < 2 ^ 31) : blockCount old < 2 ^ 31 := by
  simp only [blockCount, defaultBlockLen]
  omega

/-! ## No block is missed -/

/-- With the sum of its window, however that was rolled, `rs_findmatch` finds a block that is equal to
the window; and in the delta of the whole new file an octet is part of a literal only if the window
that begins with it is no block of the old file. -/
theorem no_match_missed (qsort : Qsort) (sigStack searchStack : Stack) (old new : Bytes) (small : old.length < 2 ^ 31) :
    (∀ (job : Job DeltaJob) (window : Bytes), (job.scoop.drop job.own.scoopPos).take window.length = window →
      (window ≠ [] ∧ Rolled job.own.weakSum window) ∨ (Rolled job.own.weakSum [] ∧
        window.length = min (job.scoop.length - job.own.scoopPos) defaultBlockLen) →
      ∀ i < blockCount old, blockAt old i = window →
        ∃ matchPos next,
          rsFindmatch (deltaEnv qsort sigStack searchStack old) job = (some matchPos, window.length, next)) ∧
      ∀ fuel, pipelineFuel old new ≤ fuel →
        ∃ commands, deltaPipeline qsort sigStack searchStack fuel old new =
            .ok (some (netint 4 deltaMagic ++ (encodeAll commands ++ [0]))) ∧
          LiteralsMissed old new 0 commands := by
  constructor
  · intro job window inbuf rolled i bound equal
    have covered := rolled.imp (And.imp_right Rolled.covers) (And.imp_left Rolled.covers)
    obtain ⟨found, weakSum, oldPos, value, -, searched⟩ :=
      @rsFindmatch_eq (deltaEnv qsort sigStack searchStack old) job rfl window inbuf covered
    cases found with
    | none => exact absurd equal (unmatched_of_none small (congrArg Prod.fst searched) i bound)
    | some matchPos => exact ⟨matchPos, _, value⟩
  · intro fuel enough
    refine ⟨_, deltaPipeline_done qsort sigStack searchStack new (blockCount_lt small) enough,
      @greedyFrom_missed _ _ _ old new new (.missed []) 0 rfl trivial fun search _ missed => unmatched_of_none small missed⟩

theorem no_match_missed_shifted :
    ([1, 2, 3] : Bytes).length < 2 ^ 31 ∧
      ∃ commands, deltaPipeline .stable (fun _ _ => 0) (fun _ _ => 0) (pipelineFuel [1, 2, 3] [7, 1, 2, 3]) [1, 2, 3]
          [7, 1, 2, 3] = .ok (some (netint 4 deltaMagic ++ (encodeAll commands ++ [0]))) ∧
        LiteralsMissed [1, 2, 3] [7, 1, 2, 3] 0 commands :=
  ⟨by decide, (no_match_missed _ _ _ [1, 2, 3] [7, 1, 2, 3] (by decide)).2 _ le_rfl⟩

/-! ## Searches without false hits -/

/-- None of the searches that the delta job makes has a false hit. -/
def NoFalseHits (qsort : Qsort) (sigStack searchStack : Stack) (old new : Bytes) : Prop :=
  ∀ search ∈ deltaSearches (deltaEnv qsort sigStack searchStack old) new,
    Confirmed qsort searchStack old search.2 search.1.1 search.1.2

theorem scanned_eq_nextWindow {σ : Type} (search : σ → Bytes → Option ℕ × σ) (state : σ) (rest : Bytes) :
    ∀ place ∈ scanned search state rest, ∃ k < rest.length, place.2 = nextWindow (rest.drop k) := by
  induction state, rest using scanned.induct search with
  | case1 state => simp [scanned_nil]
  | case2 state rest more found ih =>
    have goes := reach_le (search state (nextWindow rest)).1 more
    refine (forall_scanned more).mpr ⟨⟨0, List.length_pos_of_ne_nil more, rfl⟩, fun place member => ?_⟩
    obtain ⟨k, bound, window⟩ := ih place member
    rw [List.length_drop] at bound
    rw [List.drop_drop] at window
    exact ⟨_, Nat.add_lt_of_lt_sub' bound, window⟩

/-- There are none where only a block that is long enough has the weak sum of a window. -/
theorem noFalseHits_of_long (small : old.length < 2 ^ 31)
    (long : ∀ k < new.length, ∀ i < blockCount old,
      rsCalcWeakSum (blockAt old i) = rsCalcWeakSum (nextWindow (new.drop k)) →
        defaultBlockLen * i + (nextWindow (new.drop k)).length ≤ old.length) :
    NoFalseHits qsort sigStack searchStack old new := by
  intro search member falseHit
  obtain ⟨k, bound, misread, -⟩ := falseHit
  obtain ⟨place, inside, window⟩ := scanned_eq_nextWindow _ _ _ search member
  have known : ∀ i ∈ candidates qsort old (rsCalcWeakSum search.2), i < blockCount old := fun i member =>
    (mem_candidates.mp member).1
  obtain ⟨block, weak⟩ := mem_candidates.mp (getD_mem bound)
  have short : old.length < defaultBlockLen * (candidates qsort old (rsCalcWeakSum search.2)).getD k 0 + search.2.length :=
    (misread_iff_short small known bound).mp misread
  have enough := long place inside _ block (window ▸ weak)
  rw [← window] at enough
  omega

/-! ## The delta of the first equal blocks -/

/-- The search that finds the first block equal to the window. -/
def plainSearch (qsort : Qsort) (old : Bytes) (_ : Unit) (window : Bytes) : Option ℕ × Unit :=
  (firstMatch qsort old window, ())

/-- The commands for the new file. -/
def greedy (qsort : Qsort) (old new : Bytes) : List Command := greedyFrom (plainSearch qsort old) () new (.missed [])

theorem deltaCommands_greedy (small : old.length < 2 ^ 31) (right : NoFalseHits qsort sigStack searchStack old new) :
    deltaCommands (deltaEnv qsort sigStack searchStack old) new = greedy qsort old new := by
  refine (greedyFrom_congr () fun search member _ => ?_).symm
  obtain ⟨short, nonempty⟩ := scanned_window _ _ _ search member
  exact (rsSearchForBlock_first small short nonempty (right search member)).symm

/-- Whatever the uninitialised memory holds, and however the files are cut into buffers, `compute_delta` makes
the delta of the first equal blocks, in the order in which `qsort` has left them. -/
theorem delta_is_greedy (qsort : Qsort) (sigStack searchStack : Stack) (old new : Bytes) (small : old.length < 2 ^ 31)
    (right : NoFalseHits qsort sigStack searchStack old new) (fuel : ℕ) (enough : pipelineFuel old new ≤ fuel) :
    deltaPipeline qsort sigStack searchStack fuel old new =
      .ok (some (netint 4 deltaMagic ++ (encodeAll (greedy qsort old new) ++ [0]))) := by
  rw [deltaPipeline_done qsort sigStack searchStack new (blockCount_lt small) enough, deltaOctets,
    deltaCommands_greedy small right]

theorem noFalseHits_shifted (sigStack searchStack : Stack) :
    NoFalseHits .stable sigStack searchStack [1, 2, 3] [7, 1, 2, 3] := by
  refine noFalseHits_of_long (by decide) ?_
  decide

/-- The stacks are different, the deltas are not: an octet, and the old file behind it. -/
theorem delta_is_greedy_shifted :
    deltaPipeline .stable (fun _ _ => 0) (fun _ _ => 0) (pipelineFuel [1, 2, 3] [7, 1, 2, 3]) [1, 2, 3] [7, 1, 2, 3] =
        .ok (some (netint 4 deltaMagic ++ (encodeAll [.literal [7], .copy 0 3] ++ [0]))) ∧
      deltaPipeline .stable (fun _ i => UInt8.ofNat i) (fun call _ => UInt8.ofNat call)
          (pipelineFuel [1, 2, 3] [7, 1, 2, 3]) [1, 2, 3] [7, 1, 2, 3] =
        .ok (some (netint 4 deltaMagic ++ (encodeAll [.literal [7], .copy 0 3] ++ [0]))) := by
  have first : firstMatch .stable [1, 2, 3] (nextWindow [7, 1, 2, 3]) = none := by decide
  have second : firstMatch .stable [1, 2, 3] (nextWindow [1, 2, 3]) = some 0 := by decide
  have commands : greedy .stable [1, 2, 3] [7, 1, 2, 3] = [.literal [7], .copy 0 3] := by
    rw [greedy, greedyFrom_more (by simp), plainSearch, first]
    change [] ++ greedyFrom _ _ [1, 2, 3] (.missed [7]) = _
    rw [greedyFrom_more (by simp), plainSearch, second]
    change [Command.literal [7]] ++ greedyFrom _ _ [] (.matched 0 3) = _
    rw [greedyFrom_nil]
    rfl
  rw [← commands]
  exact ⟨delta_is_greedy _ _ _ _ _ (by decide) (noFalseHits_shifted _ _) _ le_rfl,
    delta_is_greedy _ _ _ _ _ (by decide) (noFalseHits_shifted _ _) _ le_rfl⟩

end DeltaCFS
