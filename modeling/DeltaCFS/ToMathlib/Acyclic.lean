import Mathlib.Logic.Relation
import Mathlib.Data.Finset.Card

/-! # Graphs without cycles

Edges may be taken from a graph without cycles, and an edge may be entered whose target has no edge
out of it. Following the edges of a partial function then ends within the number of its vertices.
-/

namespace Relation

variable {α : Type*} {r r' : α → α → Prop}

/-- No path leads back to where it begins. -/
def Acyclic (r : α → α → Prop) : Prop := ∀ vertex, ¬ TransGen r vertex vertex

namespace Acyclic

theorem mono (acyclic : Acyclic r) (fewer : ∀ a b, r' a b → r a b) : Acyclic r' :=
  fun vertex cycle => acyclic vertex (TransGen.mono fewer _ _ cycle)

/-- A cycle in the image is one of the graph. -/
theorem comap {β : Type*} {q : β → β → Prop} (f : β → α) (acyclic : Acyclic r) (maps : ∀ a b, q a b → r (f a) (f b)) :
    Acyclic q :=
  fun vertex cycle => acyclic (f vertex) (TransGen.lift f maps _ _ cycle)

/-- A path with the new edge ends there. -/
theorem transGen_insert {source target a b : α} (entered : ∀ a b, r' a b → (a = source ∧ b = target) ∨ r a b)
    (sink : ∀ b, ¬ r' target b) (path : TransGen r' a b) : b = target ∨ TransGen r a b := by
  induction path with
  | single edge =>
    rcases entered _ _ edge with ⟨-, new⟩ | old
    · exact .inl new
    · exact .inr (.single old)
  | tail _ edge ih =>
    rcases ih with rfl | before
    · exact absurd edge (sink _)
    · rcases entered _ _ edge with ⟨-, new⟩ | old
      · exact .inl new
      · exact .inr (before.tail old)

/-- A new edge to a vertex without edges out of it. -/
theorem insert {source target : α} (acyclic : Acyclic r)
    (entered : ∀ a b, r' a b → (a = source ∧ b = target) ∨ r a b) (sink : ∀ b, ¬ r' target b) : Acyclic r' := by
  intro vertex cycle
  rcases transGen_insert entered sink cycle with rfl | old
  · obtain ⟨next, edge, -⟩ := TransGen.head'_iff.mp cycle
    exact sink next edge
  · exact acyclic vertex old

end Acyclic

/-- Following a partial function whose values from a vertex on lie in a finite set: a measure that
decreases along the way bounds the number of steps. -/
theorem Acyclic.induction_on_reach [DecidableEq α] {next : α → Option α} {P : α → ℕ → Prop}
    (acyclic : Acyclic fun a b => next a = some b) (stop : ∀ vertex, next vertex = none → P vertex 0)
    (step : ∀ vertex target depth, next vertex = some target → P target depth → P vertex (depth + 1))
    (vertices : Finset α) (vertex : α)
    (inside : ∀ other, ReflTransGen (fun a b => next a = some b) vertex other → other ∈ vertices) :
    ∃ depth < vertices.card, P vertex depth := by
  induction vertices using Finset.strongInduction generalizing vertex with
  | H vertices ih =>
    have here := inside vertex .refl
    cases goes : next vertex with
    | none => exact ⟨0, Finset.card_pos.mpr ⟨vertex, here⟩, stop vertex goes⟩
    | some target =>
      have rest : ∀ other, ReflTransGen (fun a b => next a = some b) target other → other ∈ vertices.erase vertex := by
        intro other reached
        refine Finset.mem_erase.mpr ⟨?_, inside other (.head goes reached)⟩
        rintro rfl
        exact acyclic other (TransGen.head' goes reached)
      obtain ⟨depth, bound, holds⟩ := ih _ (Finset.erase_ssubset here) target rest
      refine ⟨depth + 1, ?_, step vertex target depth goes holds⟩
      rw [Finset.card_erase_of_mem here] at bound
      omega

end Relation
