import Mathlib.Data.List.Infix
import Mathlib.Tactic.Common

/-!
# Leftmost matches

Where a pattern occurs first in a text, and the pieces that its leftmost matches which do not overlap cut
the text into.
-/

namespace Lfmr.Collections.Matches

open List

variable {α : Type} [DecidableEq α] {pattern text : List α} {i : Nat}

def firstMatch (pattern : List α) : List α → Option Nat
  | [] => if pattern = [] then some 0 else none
  | a :: rest => if pattern <+: a :: rest then some 0 else (firstMatch pattern rest).map (· + 1)

theorem firstMatch_of_start (hstart : pattern <+: text) : firstMatch pattern text = some 0 := by
  cases text with
  | nil => rw [firstMatch, if_pos (prefix_nil.mp hstart)]
  | cons a rest => rw [firstMatch, if_pos hstart]

theorem firstMatch_cons {a : α} {rest : List α} (hstart : ¬ pattern <+: a :: rest) :
    firstMatch pattern (a :: rest) = (firstMatch pattern rest).map (· + 1) := by
  rw [firstMatch, if_neg hstart]

theorem firstMatch_eq_none_iff : firstMatch pattern text = none ↔ ¬ pattern <:+: text := by
  induction text with
  | nil => simp [firstMatch]
  | cons a rest ih =>
    by_cases hstart : pattern <+: a :: rest
    · simp [firstMatch_of_start hstart, hstart.isInfix]
    · rw [firstMatch_cons hstart, Option.map_eq_none_iff, ih, infix_cons_iff, not_or]
      exact ⟨fun h => ⟨hstart, h⟩, And.right⟩

theorem firstMatch_eq_some (hfound : firstMatch pattern text = some i) :
    ∃ before after, text = before ++ pattern ++ after ∧ before.length = i ∧ ∀ j < i, ¬ pattern <+: text.drop j := by
  induction text generalizing i with
  | nil =>
    rw [firstMatch] at hfound
    split at hfound
    · rename_i hnil
      cases hfound
      exact ⟨[], [], by simp [hnil], rfl, fun j hj => absurd hj (Nat.not_lt_zero j)⟩
    · cases hfound
  | cons a rest ih =>
    by_cases hstart : pattern <+: a :: rest
    · rw [firstMatch_of_start hstart] at hfound
      cases hfound
      obtain ⟨after, hafter⟩ := hstart
      exact ⟨[], after, by simp [hafter], rfl, fun j hj => absurd hj (Nat.not_lt_zero j)⟩
    · rw [firstMatch_cons hstart] at hfound
      obtain ⟨k, hk, rfl⟩ := Option.map_eq_some_iff.mp hfound
      obtain ⟨before, after, heq, rfl, hbefore⟩ := ih hk
      refine ⟨a :: before, after, by simp [heq], rfl, fun j hj => ?_⟩
      cases j with
      | zero => exact hstart
      | succ j => exact hbefore j (Nat.lt_of_succ_lt_succ hj)

theorem firstMatch_replicate_append {a : α} (n : Nat) {rest : List α} (hstart : pattern <+: rest)
    (hne : pattern.head? ≠ some a) (hpattern : pattern ≠ []) :
    firstMatch pattern (replicate n a ++ rest) = some n := by
  induction n with
  | zero => exact firstMatch_of_start hstart
  | succ n ih =>
    rw [replicate_succ, cons_append, firstMatch_cons, ih]
    · rfl
    · intro hpre
      cases pattern with
      | nil => exact hpattern rfl
      | cons b pattern => exact hne (congrArg some (cons_prefix_cons.mp hpre).1)

def pieces (pattern : List α) (text : List α) : List (List α) :=
  match _ : firstMatch pattern text with
  | none => [text]
  | some i =>
      if pattern = [] then [text]
      else text.take i :: pieces pattern (text.drop (i + pattern.length))
termination_by text.length
decreasing_by
  obtain ⟨before, after, rfl, rfl, -⟩ := firstMatch_eq_some ‹firstMatch pattern text = some i›
  have hpos : 0 < pattern.length := List.length_pos_iff.mpr ‹_›
  simp only [List.length_drop, List.length_append]
  omega

theorem pieces_of_none (hfound : firstMatch pattern text = none) : pieces pattern text = [text] := by
  rw [pieces]
  split
  · rfl
  · next heq => simp [heq] at hfound

theorem pieces_of_some (hpattern : pattern ≠ []) {before after : List α} (htext : text = before ++ pattern ++ after)
    (hfound : firstMatch pattern text = some before.length) :
    pieces pattern text = before :: pieces pattern after := by
  rw [pieces]
  split
  · next heq => simp [heq] at hfound
  · rename_i i heq
    obtain rfl := Option.some.inj (heq.symm.trans hfound)
    rw [if_neg hpattern, htext]
    congr 1
    · simp
    · rw [← length_append, drop_left]

/-- One piece after the other: the last has no match in it, the others end at the first match. -/
theorem pieces_induction (Holds : List α → List (List α) → Prop) (hpattern : pattern ≠ [])
    (hlast : ∀ text, firstMatch pattern text = none → Holds text [text])
    (hcons : ∀ before after rest, firstMatch pattern (before ++ pattern ++ after) = some before.length →
      pieces pattern after = rest → Holds after rest → Holds (before ++ pattern ++ after) (before :: rest))
    (text : List α) : Holds text (pieces pattern text) := by
  induction hlength : text.length using Nat.strong_induction_on generalizing text with
  | _ length ih =>
    cases hfound : firstMatch pattern text with
    | none =>
      rw [pieces_of_none hfound]
      exact hlast text hfound
    | some i =>
      obtain ⟨before, after, rfl, rfl, -⟩ := firstMatch_eq_some hfound
      rw [pieces_of_some hpattern rfl hfound]
      refine hcons before after _ hfound rfl (ih after.length ?_ after rfl)
      have hpos : 0 < pattern.length := length_pos_iff.mpr hpattern
      rw [← hlength, length_append, length_append]
      omega

section

variable (hpattern : pattern ≠ [])
include hpattern

theorem pieces_ne_nil (text : List α) : pieces pattern text ≠ [] := by
  refine pieces_induction (fun _ pieces => pieces ≠ []) hpattern ?_ ?_ text
  · simp
  · simp

theorem length_flatten_pieces (text : List α) :
    (pieces pattern text).flatten.length + ((pieces pattern text).length - 1) * pattern.length = text.length := by
  refine pieces_induction (fun text pieces =>
    pieces.flatten.length + (pieces.length - 1) * pattern.length = text.length) hpattern ?_ ?_ text
  · simp
  · intro before after rest _ hrest hsum
    have hpos : 0 < rest.length := length_pos_iff.mpr (hrest ▸ pieces_ne_nil hpattern after)
    obtain ⟨n, hn⟩ : ∃ n, rest.length = n + 1 := Nat.exists_eq_succ_of_ne_zero (Nat.ne_of_gt hpos)
    rw [hn, Nat.add_sub_cancel] at hsum
    rw [flatten_cons, length_append, length_cons, hn, Nat.add_sub_cancel, Nat.succ_mul, length_append, length_append]
    omega

theorem length_pieces_le (text : List α) : (pieces pattern text).length ≤ text.length + 1 := by
  have hsum := length_flatten_pieces hpattern text
  have hpos : 0 < pattern.length := length_pos_iff.mpr hpattern
  have hle := Nat.le_mul_of_pos_right ((pieces pattern text).length - 1) hpos
  omega

theorem subset_of_mem_pieces (text : List α) : ∀ piece ∈ pieces pattern text, piece ⊆ text := by
  refine pieces_induction (fun text pieces => ∀ piece ∈ pieces, piece ⊆ text) hpattern ?_ ?_ text
  · intro text _ piece hpiece
    rw [mem_singleton.mp hpiece]
    exact List.Subset.refl _
  · intro before after rest _ _ hrest piece hpiece
    rcases mem_cons.mp hpiece with rfl | hpiece
    · rw [append_assoc]
      exact subset_append_left _ _
    · exact List.Subset.trans (hrest piece hpiece) (subset_append_right _ _)

theorem not_infix_of_mem_pieces (text : List α) : ∀ piece ∈ pieces pattern text, ¬ pattern <:+: piece := by
  refine pieces_induction (fun _ pieces => ∀ piece ∈ pieces, ¬ pattern <:+: piece) hpattern ?_ ?_ text
  · intro text hfound piece hpiece
    rw [mem_singleton.mp hpiece]
    exact firstMatch_eq_none_iff.mp hfound
  · intro before after rest hfound _ hrest piece hpiece
    rcases mem_cons.mp hpiece with rfl | hpiece
    · rintro ⟨left, right, hpiece⟩
      obtain ⟨-, -, -, -, hbefore⟩ := firstMatch_eq_some hfound
      refine hbefore left.length ?_ ?_
      · have hpos : 0 < pattern.length := length_pos_iff.mpr hpattern
        rw [← hpiece, length_append, length_append]
        omega
      · rw [← hpiece]
        simp only [append_assoc, drop_left]
        exact prefix_append _ _
    · exact hrest piece hpiece

theorem one_lt_length_pieces (hoccurs : pattern <:+: text) : 1 < (pieces pattern text).length := by
  cases hfound : firstMatch pattern text with
  | none => exact absurd hoccurs (firstMatch_eq_none_iff.mp hfound)
  | some i =>
    obtain ⟨before, after, htext, rfl, -⟩ := firstMatch_eq_some hfound
    rw [pieces_of_some hpattern htext hfound, length_cons]
    exact Nat.succ_lt_succ (length_pos_iff.mpr (pieces_ne_nil hpattern after))

end

end Lfmr.Collections.Matches
