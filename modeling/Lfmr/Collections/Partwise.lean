import Mathlib.Data.List.Forall2

/-!
# Equality part by part

Two trees are the same if they agree at the root and their parts are the same, one after the other.
-/

namespace Lfmr.Collections

open List

variable {α : Type} {same agree : α → α → Prop} {parts : α → List α} {size : α → Nat} {xs ys zs : List α}

theorem forall₂_concat {x y : α} (hlength : xs.length = ys.length) :
    Forall₂ same (xs ++ [x]) (ys ++ [y]) ↔ Forall₂ same xs ys ∧ same x y := by
  constructor
  · intro hsame
    have htake := forall₂_take xs.length hsame
    have hdrop := forall₂_drop xs.length hsame
    rw [take_left, hlength, take_left] at htake
    rw [drop_left, hlength, drop_left] at hdrop
    exact ⟨htake, (forall₂_cons.mp hdrop).1⟩
  · rintro ⟨hsame, hlast⟩
    exact rel_append hsame (.cons hlast .nil)

theorem forall₂_imp_of_mem {R : α → α → Prop} (hsame : Forall₂ same xs ys)
    (himp : ∀ x ∈ xs, ∀ {y}, same x y → R x y) : Forall₂ R xs ys := by
  induction hsame with
  | nil => exact .nil
  | cons hhead _ ih =>
    rw [forall_mem_cons] at himp
    exact .cons (himp.1 hhead) (ih himp.2)

theorem forall₂_trans_of_mem (hfirst : Forall₂ same xs ys) (hsecond : Forall₂ same ys zs)
    (htrans : ∀ x ∈ xs, ∀ {y z}, same x y → same y z → same x z) : Forall₂ same xs zs := by
  induction hfirst generalizing zs with
  | nil => exact hsecond
  | cons hhead _ ih =>
    rw [forall_mem_cons] at htrans
    cases hsecond with
    | cons hhead' hrest => exact .cons (htrans.1 hhead hhead') (ih hrest htrans.2)

structure Partwise (same agree : α → α → Prop) (parts : α → List α) (size : α → Nat) : Prop where
  root : Equivalence agree
  smaller : ∀ {a part}, part ∈ parts a → size part < size a
  same_iff : ∀ {a b}, same a b ↔ agree a b ∧ Forall₂ same (parts a) (parts b)

theorem Partwise.equivalence (hpartwise : Partwise same agree parts size) : Equivalence same where
  refl a := by
    induction a using (measure size).wf.induction with
    | h a ih =>
      exact hpartwise.same_iff.mpr ⟨hpartwise.root.refl a,
        forall₂_same.mpr fun part hpart => ih part (hpartwise.smaller hpart)⟩
  symm {a b} hsame := by
    induction a using (measure size).wf.induction generalizing b with
    | h a ih =>
      obtain ⟨hagree, hparts⟩ := hpartwise.same_iff.mp hsame
      refine hpartwise.same_iff.mpr ⟨hpartwise.root.symm hagree, ?_⟩
      exact (forall₂_imp_of_mem hparts fun part hpart => ih part (hpartwise.smaller hpart)).flip
  trans {a b c} hfirst hsecond := by
    induction a using (measure size).wf.induction generalizing b c with
    | h a ih =>
      obtain ⟨hagree, hparts⟩ := hpartwise.same_iff.mp hfirst
      obtain ⟨hagree', hparts'⟩ := hpartwise.same_iff.mp hsecond
      refine hpartwise.same_iff.mpr ⟨hpartwise.root.trans hagree hagree', ?_⟩
      exact forall₂_trans_of_mem hparts hparts' fun part hpart => ih part (hpartwise.smaller hpart)

end Lfmr.Collections
