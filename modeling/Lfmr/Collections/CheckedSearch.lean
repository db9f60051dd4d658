import Mathlib.Data.List.Forall2
import Mathlib.Logic.Relation
import Mathlib.Tactic.Common

/-!
# A search with a list of what has been checked

A call of the search has a list of items and the list of those that the calls around it have checked. It
drops from its items one occurrence for each item of that list, and makes a call for the expansion of every
item that is left, with these on the list as well. Items are compared up to an equivalence.

There are finitely many calls if and only if there are finitely many items to be found. An item may be checked
more than once.
-/

namespace Lfmr.Collections

open List

variable {α : Type} [BEq α]

def uncheckedItems (checked items : List α) : List α := checked.foldl List.erase items

inductive Halts (expand : α → List α) : List α → List α → Prop
  | intro {checked items : List α} :
      (∀ x ∈ uncheckedItems checked items,
        Halts expand (checked ++ uncheckedItems checked items) (expand x)) → Halts expand checked items

def Found (expand : α → List α) (items : List α) (x : α) : Prop :=
  ∃ first ∈ items, Relation.ReflTransGen (fun found next => next ∈ expand found) first x

section

omit [BEq α]

theorem Found.tail {expand : α → List α} {items : List α} {x y : α} (hfound : Found expand items x)
    (hy : y ∈ expand x) : Found expand items y := by
  obtain ⟨first, hfirst, hsteps⟩ := hfound
  exact ⟨first, hfirst, hsteps.tail hy⟩

end

variable {expand : α → List α} {checked items l bound : List α} {x y : α}

theorem uncheckedItems_sublist (checked items : List α) : (uncheckedItems checked items).Sublist items := by
  induction checked generalizing items with
  | nil => exact List.Sublist.refl _
  | cons a checked ih => exact (ih _).trans erase_sublist

theorem contains_iff_countP_pos : l.contains x = true ↔ 0 < l.countP (x == ·) := by
  rw [contains_iff_exists_mem_beq, countP_pos_iff]

variable [EquivBEq α]

theorem countP_erase_eq (l : List α) (x a : α) :
    (l.erase a).countP (x == ·) = l.countP (x == ·) - if x == a then 1 else 0 := by
  induction l with
  | nil => simp
  | cons b l ih =>
    rw [erase_cons]
    by_cases hba : (b == a) = true
    · have hsame : (x == b) = (x == a) := BEq.congr_right hba
      rw [if_pos hba, countP_cons, hsame]
      split <;> omega
    · rw [if_neg hba, countP_cons, countP_cons, ih]
      split
      · rename_i hxa
        have hxb : ¬ (x == b) = true := fun hxb => hba (BEq.trans (BEq.symm hxb) hxa)
        rw [if_neg hxb]
        rfl
      · omega

theorem countP_uncheckedItems (checked items : List α) (x : α) :
    (uncheckedItems checked items).countP (x == ·) = items.countP (x == ·) - checked.countP (x == ·) := by
  induction checked generalizing items with
  | nil => simp [uncheckedItems]
  | cons a checked ih =>
    have hrest : uncheckedItems (a :: checked) items = uncheckedItems checked (items.erase a) := rfl
    rw [hrest, ih, countP_erase_eq, countP_cons]
    omega

theorem contains_of_mem (hx : x ∈ l) : l.contains x = true :=
  contains_iff_exists_mem_beq.mpr ⟨x, hx, BEq.rfl⟩

theorem contains_checked_append (hx : x ∈ items) : (checked ++ uncheckedItems checked items).contains x = true := by
  have hpos := contains_iff_countP_pos.mp (contains_of_mem hx)
  rw [contains_iff_countP_pos, countP_append, countP_uncheckedItems]
  omega

theorem length_uncheckedItems_lt (hx : x ∈ checked) (hcontains : items.contains x = true) :
    (uncheckedItems checked items).length < items.length := by
  have hsub := uncheckedItems_sublist checked items
  refine Nat.lt_of_le_of_ne hsub.length_le fun hlength => ?_
  have hcount := countP_uncheckedItems checked items x
  rw [hsub.eq_of_length hlength] at hcount
  have hchecked := contains_iff_countP_pos.mp (contains_of_mem hx)
  have hitems := contains_iff_countP_pos.mp hcontains
  omega

theorem Halts.exists_closed (hhalts : Halts expand checked items) :
    ∃ found : List α, (∀ x ∈ items, (checked ++ found).contains x = true) ∧
      ∀ x ∈ found, ∀ y ∈ expand x, (checked ++ found).contains y = true := by
  induction hhalts with
  | @intro checked items _ ih =>
    choose! more hitems hclosed using ih
    let rest := uncheckedItems checked items
    -- What a call below has on its list or finds is on this call's list or found by it.
    have hbelow : ∀ x ∈ rest, ∀ y, (checked ++ rest ++ more x).contains y = true →
        (checked ++ (rest ++ rest.flatMap more)).contains y = true := by
      intro x hx y hy
      simp only [contains_iff_exists_mem_beq, mem_append, mem_flatMap] at hy ⊢
      obtain ⟨z, (hz | hz) | hz, hyz⟩ := hy
      · exact ⟨z, .inl hz, hyz⟩
      · exact ⟨z, .inr (.inl hz), hyz⟩
      · exact ⟨z, .inr (.inr ⟨x, hx, hz⟩), hyz⟩
    refine ⟨rest ++ rest.flatMap more, fun x hx => ?_, fun x hx y hy => ?_⟩
    · rw [← append_assoc, contains_append, contains_checked_append hx, Bool.true_or]
    · rcases mem_append.mp hx with hx | hx
      · exact hbelow x hx y (hitems x hx y hy)
      · obtain ⟨caller, hcaller, hx⟩ := mem_flatMap.mp hx
        exact hbelow caller hcaller y (hclosed caller hcaller x hx y hy)

section Congruence

variable (hexpand : ∀ x y, (x == y) = true → List.Forall₂ (fun a b => (a == b) = true) (expand x) (expand y))

include hexpand

theorem Halts.exists_bound (hhalts : Halts expand [] items) :
    ∃ bound : List α, ∀ x, Found expand items x → bound.contains x = true := by
  obtain ⟨found, hitems, hclosed⟩ := hhalts.exists_closed
  refine ⟨found, ?_⟩
  rintro x ⟨first, hfirst, hsteps⟩
  induction hsteps with
  | refl => exact hitems first hfirst
  | @tail b c _ hc ih =>
    obtain ⟨b', hb', hbb'⟩ := contains_iff_exists_mem_beq.mp ih
    have hsame := hexpand b b' hbb'
    obtain ⟨i, hi, rfl⟩ := mem_iff_getElem.mp hc
    have hi' : i < (expand b').length := hsame.length_eq ▸ hi
    have hfound := hclosed b' hb' _ (getElem_mem hi')
    obtain ⟨d, hd, hcd⟩ := contains_iff_exists_mem_beq.mp hfound
    exact contains_iff_exists_mem_beq.mpr ⟨d, hd, BEq.trans (hsame.get hi hi') hcd⟩

omit hexpand in
theorem countP_congr (hsame : List.Forall₂ (fun a b => (a == b) = true) items l) (x : α) :
    items.countP (x == ·) = l.countP (x == ·) := by
  induction hsame with
  | nil => rfl
  | @cons a b _ _ hab _ ih =>
    have hhead : (x == a) = (x == b) := BEq.congr_right hab
    rw [countP_cons, countP_cons, ih, hhead]

/-- The items of all calls are among those of a list, and with every call below fewer of these are left. -/
theorem halts_of_bound (hbound : ∀ x, Found expand items x → bound.contains x = true) : Halts expand [] items := by
  let pool := items ++ bound.flatMap expand
  have hhalts : ∀ (n : Nat) (checked l : List α), (uncheckedItems checked pool).length < n →
      (∀ x ∈ l, Found expand items x) → (∀ x, l.countP (x == ·) ≤ pool.countP (x == ·)) →
      Halts expand checked l := by
    intro n
    induction n with
    | zero => exact fun _ _ hlt => absurd hlt (Nat.not_lt_zero _)
    | succ n ih =>
      intro checked l hlt hfound hcount
      refine .intro fun x hx => ih _ _ ?_ (fun y hy => ?_) fun y => ?_
      · have hx' := contains_iff_countP_pos.mp (contains_of_mem hx)
        rw [countP_uncheckedItems] at hx'
        have hpool : (uncheckedItems checked pool).contains x = true := by
          rw [contains_iff_countP_pos, countP_uncheckedItems]
          have hle := hcount x
          omega
        have hless := length_uncheckedItems_lt hx hpool
        rw [uncheckedItems, foldl_append]
        exact Nat.lt_of_lt_of_le hless (Nat.le_of_lt_succ hlt)
      · exact (hfound x ((uncheckedItems_sublist _ _).subset hx)).tail hy
      · have hx' := hbound x (hfound x ((uncheckedItems_sublist _ _).subset hx))
        obtain ⟨b, hb, hxb⟩ := contains_iff_exists_mem_beq.mp hx'
        have hsub : (expand b).Sublist pool :=
          (sublist_flatten_of_mem (mem_map_of_mem hb)).trans (sublist_append_right _ _)
        rw [countP_congr (hexpand x b hxb)]
        exact hsub.countP_le
  refine hhalts _ [] items (Nat.lt_succ_self _) (fun x hx => ⟨x, hx, .refl⟩) fun x => ?_
  exact (sublist_append_left _ _).countP_le

end Congruence

end Lfmr.Collections
