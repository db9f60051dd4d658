import Lfmr.Concurrency.Linked

/-!
# Piles of nodes

Several lists that are linked through the same field of their nodes. A node is pushed onto one of them,
and a list is taken apart from its front, so every node is on one list at most.
-/

namespace Lfmr.Concurrency

open Function

variable {Pile Node : Type}

structure Piles (next : Node → Option Node) (start : Pile → Option Node) (nodes : Pile → List Node) :
    Prop where
  linked : ∀ pile, Linked next (start pile) (nodes pile)
  nodup : ∀ pile, (nodes pile).Nodup
  disjoint : ∀ pile other node, node ∈ nodes pile → node ∈ nodes other → pile = other

variable {next : Node → Option Node} {start : Pile → Option Node} {nodes : Pile → List Node}
  {pile : Pile} {node : Node}

variable [DecidableEq Pile]

theorem Piles.push [DecidableEq Node] (h : Piles next start nodes) (pile : Pile) (hnew : ∀ other, node ∉ nodes other) :
    Piles (update next node (start pile)) (update start pile (some node)) (update nodes pile (node :: nodes pile)) := by
  have hlinked : ∀ other, Linked (update next node (start pile)) (start other) (nodes other) := by
    intro other
    refine (h.linked other).congr fun cell hcell => update_of_ne ?_ _ _
    rintro rfl
    exact hnew other hcell
  have hmem : ∀ other cell, cell ∈ update nodes pile (node :: nodes pile) other →
      (cell = node ∧ other = pile) ∨ cell ∈ nodes other := by
    intro other cell hcell
    by_cases heq : other = pile
    · subst heq
      simpa using hcell
    · rw [update_of_ne heq] at hcell
      exact Or.inr hcell
  refine ⟨fun other => ?_, fun other => ?_, fun first second cell hfirst hsecond => ?_⟩
  · by_cases heq : other = pile
    · subst heq
      simpa using hlinked other
    · simpa [heq] using hlinked other
  · by_cases heq : other = pile
    · subst heq
      simpa using ⟨hnew other, h.nodup other⟩
    · simpa [heq] using h.nodup other
  · rcases hmem first cell hfirst with ⟨rfl, rfl⟩ | hone
    · rcases hmem second cell hsecond with ⟨-, rfl⟩ | htwo
      · rfl
      · exact absurd htwo (hnew second)
    · rcases hmem second cell hsecond with ⟨rfl, -⟩ | htwo
      · exact absurd hone (hnew first)
      · exact h.disjoint first second cell hone htwo

theorem Piles.take (h : Piles next start nodes) (hstart : start pile = some node) : ∃ rest, nodes pile = node :: rest ∧
      Piles next (update start pile (next node)) (update nodes pile rest) := by
  have hlinked := h.linked pile
  cases hnodes : nodes pile with
  | nil => simp [hnodes, hstart] at hlinked
  | cons first rest =>
    rw [hnodes, linked_cons, hstart] at hlinked
    obtain ⟨hfirst, hrest⟩ := hlinked
    obtain rfl : node = first := by simpa using hfirst
    have hsub : ∀ other cell, cell ∈ update nodes pile rest other → cell ∈ nodes other := by
      intro other cell hcell
      by_cases heq : other = pile
      · subst heq
        rw [hnodes]
        exact List.mem_cons_of_mem node (by simpa using hcell)
      · simpa [heq] using hcell
    refine ⟨rest, rfl, fun other => ?_, fun other => ?_, fun one two cell hone htwo =>
      h.disjoint one two cell (hsub one cell hone) (hsub two cell htwo)⟩
    · by_cases heq : other = pile
      · subst heq
        simpa using hrest
      · simpa [heq] using h.linked other
    · by_cases heq : other = pile
      · subst heq
        have hnodup := h.nodup other
        rw [hnodes] at hnodup
        simpa using hnodup.of_cons
      · simpa [heq] using h.nodup other

end Lfmr.Concurrency
