import Mathlib.Data.List.Basic
import Mathlib.Logic.Function.Basic
import Mathlib.Tactic.Common

/-!
# What `qsort` and `bsearch` promise

The two functions are told about the order by a comparator with a sign. They are only good for
elements on which the signs are those of a total preorder; for others they may return anything.
-/

namespace Lfmr.SortLibrary

open Function

variable {α : Type}

structure Consistent (compare : α → α → Int) (elements : List α) : Prop where
  swap : ∀ a ∈ elements, ∀ b ∈ elements, compare a b < 0 ↔ 0 < compare b a
  trans : ∀ a ∈ elements, ∀ b ∈ elements, ∀ c ∈ elements,
    compare a b ≤ 0 → compare b c ≤ 0 → compare a c ≤ 0

def Sorted (compare : α → α → Int) (elements : List α) : Prop :=
  elements.Pairwise fun a b => compare a b ≤ 0

structure Functions (compare : α → α → Int) where
  qsort : List α → List α
  bsearch : α → List α → Bool
  sorts : ∀ elements, Consistent compare elements →
    (qsort elements).Perm elements ∧ Sorted compare (qsort elements)
  finds : ∀ key elements, Consistent compare (key :: elements) → Sorted compare elements →
    (bsearch key elements = true ↔ ∃ element ∈ elements, compare key element = 0)

variable {compare : α → α → Int} {elements others : List α}

theorem Consistent.subset (hconsistent : Consistent compare elements) (hsubset : others ⊆ elements) :
    Consistent compare others where
  swap a ha b hb := hconsistent.swap a (hsubset ha) b (hsubset hb)
  trans a ha b hb c hc := hconsistent.trans a (hsubset ha) b (hsubset hb) c (hsubset hc)

theorem Consistent.le_total (hconsistent : Consistent compare elements) {a b : α} (ha : a ∈ elements)
    (hb : b ∈ elements) : compare a b ≤ 0 ∨ compare b a ≤ 0 := by
  have hswap := hconsistent.swap b hb a ha
  omega

/-- The elements can be sorted: by merging, where only elements of the list are ever compared. -/
theorem Consistent.exists_sorted (hconsistent : Consistent compare elements) :
    ∃ sorted : List α, sorted.Perm elements ∧ Sorted compare sorted := by
  let le : {a // a ∈ elements} → {a // a ∈ elements} → Bool := fun a b => decide (compare a b ≤ 0)
  have hsorted : (elements.attach.mergeSort le).Pairwise fun a b => le a b = true := by
    apply List.pairwise_mergeSort
    · intro a b c hab hbc
      simp only [le, decide_eq_true_eq] at hab hbc ⊢
      exact hconsistent.trans a a.2 b b.2 c c.2 hab hbc
    · intro a b
      simp only [le, Bool.or_eq_true, decide_eq_true_eq]
      exact hconsistent.le_total a.2 b.2
  refine ⟨(elements.attach.mergeSort le).map Subtype.val, ?_, ?_⟩
  · have hperm := (List.mergeSort_perm elements.attach le).map Subtype.val
    rwa [List.attach_map_subtype_val] at hperm
  · refine List.pairwise_map.mpr (hsorted.imp fun hle => ?_)
    simpa [le] using hle

open Classical in
/-- Functions that keep their promise, and answer as they like where nothing is promised. -/
noncomputable def Functions.answering (compare : α → α → Int) (answer : α → List α → Bool) :
    Functions compare where
  qsort elements :=
    if h : Consistent compare elements then h.exists_sorted.choose else elements
  bsearch key elements :=
    if Consistent compare (key :: elements) then decide (∃ element ∈ elements, compare key element = 0)
    else answer key elements
  sorts elements hconsistent := by
    rw [dif_pos hconsistent]
    exact hconsistent.exists_sorted.choose_spec
  finds key elements hconsistent _ := by
    rw [if_pos hconsistent, decide_eq_true_eq]

theorem Functions.answering_perm (answer : α → List α → Bool) (elements : List α) :
    ((Functions.answering compare answer).qsort elements).Perm elements := by
  by_cases hconsistent : Consistent compare elements
  · exact ((Functions.answering compare answer).sorts elements hconsistent).1
  · simp [Functions.answering, hconsistent]

theorem Functions.answering_of_not_consistent (answer : α → List α → Bool) {key : α}
    (hconsistent : ¬ Consistent compare (key :: elements)) :
    (Functions.answering compare answer).bsearch key elements = answer key elements := by
  simp [Functions.answering, hconsistent]

open Classical in
/-- The comparator with `first` put before what compares as equal to it. -/
noncomputable def favouring (compare : α → α → Int) (first : α) (a b : α) : Int :=
  if compare a b = 0 then
    (if a = first then 0 else 1) - (if b = first then 0 else 1)
  else compare a b

theorem Consistent.eq_iff (hconsistent : Consistent compare elements) {a b : α} (ha : a ∈ elements)
    (hb : b ∈ elements) : compare a b = 0 ↔ compare b a = 0 := by
  have hab := hconsistent.swap a ha b hb
  have hba := hconsistent.swap b hb a ha
  omega

theorem le_of_favouring_le {first a b : α} (hle : favouring compare first a b ≤ 0) : compare a b ≤ 0 := by
  unfold favouring at hle
  split at hle <;> omega

theorem Consistent.favouring (hconsistent : Consistent compare elements) (first : α) :
    Consistent (favouring compare first) elements where
  swap a ha b hb := by
    have heq := hconsistent.eq_iff ha hb
    have hswap := hconsistent.swap a ha b hb
    unfold SortLibrary.favouring
    split <;> rename_i hzero
    · rw [if_pos (heq.mp hzero)]
      omega
    · rw [if_neg (fun h => hzero (heq.mpr h))]
      exact hswap
  trans a ha b hb c hc hab hbc := by
    have htrans := hconsistent.trans a ha b hb c hc (le_of_favouring_le hab) (le_of_favouring_le hbc)
    -- If the ends compare as equal, so does what is between them, and the favourite decides all three.
    by_cases hac : compare a c = 0
    · have hca := (hconsistent.eq_iff ha hc).mp hac
      have hcb := hconsistent.trans c hc a ha b hb (by omega) (le_of_favouring_le hab)
      have hba := hconsistent.trans b hb c hc a ha (le_of_favouring_le hbc) (by omega)
      have hab' := hconsistent.swap a ha b hb
      have hbc' := hconsistent.swap b hb c hc
      have hle_ab := le_of_favouring_le hab
      have hle_bc := le_of_favouring_le hbc
      have hab_eq : compare a b = 0 := by omega
      have hbc_eq : compare b c = 0 := by omega
      unfold SortLibrary.favouring at *
      rw [if_pos hab_eq] at hab
      rw [if_pos hbc_eq] at hbc
      rw [if_pos hac]
      omega
    · rw [SortLibrary.favouring, if_neg hac]
      exact htrans

theorem pair_sublist {a b : α} {list : List α} (ha : a ∈ list) (hb : b ∈ list) (hne : a ≠ b) :
    List.Sublist [a, b] list ∨ List.Sublist [b, a] list := by
  obtain ⟨before, after, rfl⟩ := List.append_of_mem ha
  rcases List.mem_append.mp hb with hbefore | hafter
  · right
    exact (List.singleton_sublist.mpr hbefore).append (List.singleton_sublist.mpr List.mem_cons_self)
  · left
    have hb' := (List.mem_cons.mp hafter).resolve_left hne.symm
    exact ((List.singleton_sublist.mpr hb').cons_cons a).trans (List.sublist_append_right before _)

theorem exists_pair_sublist {a b : α} (ha : a ∈ elements) (hb : b ∈ elements) (hne : a ≠ b)
    (hle : Consistent compare elements → compare b a ≤ 0) :
    ∃ target : List α, target.Perm elements ∧ (Consistent compare elements → Sorted compare target) ∧
      List.Sublist [b, a] target := by
  classical
  by_cases hconsistent : Consistent compare elements
  · obtain ⟨target, hperm, hsorted⟩ := (hconsistent.favouring b).exists_sorted
    refine ⟨target, hperm, fun _ => hsorted.imp le_of_favouring_le, ?_⟩
    refine (pair_sublist (hperm.mem_iff.mpr ha) (hperm.mem_iff.mpr hb) hne).resolve_left fun hsub => ?_
    have hab : favouring compare b a b ≤ 0 := by simpa using hsorted.sublist hsub
    have hle' := hle hconsistent
    have hswap := hconsistent.swap b hb a ha
    have heq := hconsistent.eq_iff ha hb
    have hab' := le_of_favouring_le hab
    have hzero : compare a b = 0 := by omega
    rw [favouring, if_pos hzero, if_neg hne, if_pos rfl] at hab
    omega
  · refine ⟨b :: a :: (elements.erase b).erase a, ?_, fun h => absurd h hconsistent, by simp⟩
    have ha' : a ∈ elements.erase b := (List.mem_erase_of_ne hne).mpr ha
    exact ((List.perm_cons_erase ha').symm.cons b).trans (List.perm_cons_erase hb).symm

theorem Functions.exists_qsort_eq {target : List α} (hperm : target.Perm elements)
    (hsorted : Consistent compare elements → Sorted compare target) :
    ∃ library : Functions compare, library.qsort elements = target := by
  classical
  let other := Functions.answering compare fun _ _ => false
  refine ⟨{ other with qsort := update other.qsort elements target, sorts := ?_ }, update_self ..⟩
  intro list hconsistent
  by_cases heq : list = elements
  · subst heq
    rw [update_self]
    exact ⟨hperm, hsorted hconsistent⟩
  · rw [update_of_ne heq]
    exact other.sorts list hconsistent

end Lfmr.SortLibrary
