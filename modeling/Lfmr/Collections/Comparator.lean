import Mathlib.Data.List.Nodup
import Mathlib.Data.List.Perm.Basic
import Mathlib.Tactic.Common

/-!
# Comparison functions

A comparison function returns a negative number, zero or a positive number. It need not tell all elements
apart: those it compares as zero are equal for its purposes.
-/

namespace Lfmr.Collections

variable {α : Type} {cmp : α → α → Int}

structure TotalCmp (cmp : α → α → Int) : Prop where
  swap : ∀ a b, (cmp a b).sign = -(cmp b a).sign
  trans : ∀ a b c, cmp a b ≤ 0 → cmp b c ≤ 0 → cmp a c ≤ 0

namespace TotalCmp

variable (hcmp : TotalCmp cmp) {a b c : α}

include hcmp

theorem lt_iff : cmp a b < 0 ↔ 0 < cmp b a := by
  rw [← Int.sign_eq_neg_one_iff_neg, ← Int.sign_eq_one_iff_pos, hcmp.swap a b]
  omega

theorem eq_iff : cmp a b = 0 ↔ cmp b a = 0 := by
  have hab := hcmp.lt_iff (a := a) (b := b)
  have hba := hcmp.lt_iff (a := b) (b := a)
  omega

theorem refl (a : α) : cmp a a = 0 := by
  have hswap := hcmp.swap a a
  rw [← Int.sign_eq_zero_iff_zero]
  omega

theorem not_lt_of_le (hle : cmp a b ≤ 0) : ¬ cmp b a < 0 := by
  rw [hcmp.lt_iff]
  omega

theorem lt_of_lt_of_le (hlt : cmp a b < 0) (hle : cmp b c ≤ 0) : cmp a c < 0 := by
  have hac : cmp a c ≤ 0 := hcmp.trans a b c (by omega) hle
  by_contra hnot
  -- Otherwise the two ends are equal, and the middle is not above the first.
  have hca : cmp c a = 0 := hcmp.eq_iff.mp (by omega)
  exact hcmp.not_lt_of_le (hcmp.trans b c a hle (by omega)) hlt

theorem lt_of_le_of_lt (hle : cmp a b ≤ 0) (hlt : cmp b c < 0) : cmp a c < 0 := by
  have hac : cmp a c ≤ 0 := hcmp.trans a b c hle (by omega)
  by_contra hnot
  have hca : cmp c a = 0 := hcmp.eq_iff.mp (by omega)
  exact hcmp.not_lt_of_le (hcmp.trans c a b (by omega) hle) hlt

theorem lt_trans (hab : cmp a b < 0) (hbc : cmp b c < 0) : cmp a c < 0 :=
  hcmp.lt_of_lt_of_le hab (by omega)

theorem eq_trans (hab : cmp a b = 0) (hbc : cmp b c = 0) : cmp a c = 0 := by
  have hac : cmp a c ≤ 0 := hcmp.trans a b c (by omega) (by omega)
  have hba := hcmp.eq_iff.mp hab
  have hcb := hcmp.eq_iff.mp hbc
  have hca : cmp c a ≤ 0 := hcmp.trans c b a (by omega) (by omega)
  have hnot := hcmp.not_lt_of_le hca
  omega

def setoid : Setoid α where
  r a b := cmp a b = 0
  iseqv := ⟨hcmp.refl, hcmp.eq_iff.mp, hcmp.eq_trans⟩

end TotalCmp

def distinct (cmp : α → α → Int) : List α → List α
  | [] => []
  | e :: es => if es.any (fun other => cmp e other = 0) then distinct cmp es else e :: distinct cmp es

theorem distinct_subset {e : α} {es : List α} (hmem : e ∈ distinct cmp es) : e ∈ es := by
  induction es with
  | nil => exact hmem
  | cons first rest ih =>
    unfold distinct at hmem
    split at hmem
    · exact List.mem_cons_of_mem first (ih hmem)
    · rcases List.mem_cons.mp hmem with rfl | hmem
      · exact List.mem_cons_self
      · exact List.mem_cons_of_mem first (ih hmem)

theorem pairwise_distinct (cmp : α → α → Int) (es : List α) : (distinct cmp es).Pairwise fun a b => cmp a b ≠ 0 := by
  induction es with
  | nil => exact .nil
  | cons first rest ih =>
    unfold distinct
    split
    · exact ih
    · rename_i hany
      refine List.pairwise_cons.mpr ⟨fun other hother heq => hany ?_, ih⟩
      exact List.any_eq_true.mpr ⟨other, distinct_subset hother, by simpa using heq⟩

theorem exists_mem_distinct (hcmp : TotalCmp cmp) {es : List α} {e : α} (hmem : e ∈ es) :
    ∃ a ∈ distinct cmp es, cmp a e = 0 := by
  induction es generalizing e with
  | nil => simp at hmem
  | cons first rest ih =>
    unfold distinct
    rcases List.mem_cons.mp hmem with rfl | hmem
    · split
      · rename_i hany
        obtain ⟨other, hother, heq⟩ := List.any_eq_true.mp hany
        obtain ⟨a, ha, hcmpa⟩ := ih hother
        exact ⟨a, ha, hcmp.eq_trans hcmpa (hcmp.eq_iff.mp (by simpa using heq))⟩
      · exact ⟨e, List.mem_cons_self, hcmp.refl e⟩
    · obtain ⟨a, ha, heq⟩ := ih hmem
      split
      · exact ⟨a, ha, heq⟩
      · exact ⟨a, List.mem_cons_of_mem first ha, heq⟩

theorem length_eq_of_same_kinds (hcmp : TotalCmp cmp) {left right : List α}
    (hleft : left.Pairwise fun a b => cmp a b ≠ 0) (hright : right.Pairwise fun a b => cmp a b ≠ 0)
    (hsame : ∀ x, (∃ a ∈ left, cmp a x = 0) ↔ ∃ b ∈ right, cmp b x = 0) : left.length = right.length := by
  let kind : α → Quotient hcmp.setoid := Quotient.mk _
  have hkind : ∀ {a b : α}, kind a = kind b ↔ cmp a b = 0 :=
    ⟨fun heq => Quotient.exact (s := hcmp.setoid) heq, fun heq => Quotient.sound (s := hcmp.setoid) heq⟩
  have hnodup : ∀ list : List α, list.Pairwise (fun a b => cmp a b ≠ 0) → (list.map kind).Nodup := by
    intro list hlist
    rw [List.Nodup, List.pairwise_map]
    exact hlist.imp fun hne heq => hne (hkind.mp heq)
  have hmem : ∀ (list : List α) x, kind x ∈ list.map kind ↔ ∃ a ∈ list, cmp a x = 0 := by
    intro list x
    simp only [List.mem_map, hkind]
  have hperm : (left.map kind).Perm (right.map kind) := by
    rw [List.perm_ext_iff_of_nodup (hnodup left hleft) (hnodup right hright)]
    intro q
    obtain ⟨x, rfl⟩ := Quotient.exists_rep q
    exact (hmem left x).trans ((hsame x).trans (hmem right x).symm)
  simpa using hperm.length_eq

theorem length_eq_length_distinct (hcmp : TotalCmp cmp) {sorted es : List α}
    (hsorted : sorted.Pairwise fun a b => cmp a b < 0)
    (hsame : ∀ x, (∃ a ∈ sorted, cmp a x = 0) ↔ ∃ e ∈ es, cmp e x = 0) :
    sorted.length = (distinct cmp es).length := by
  refine length_eq_of_same_kinds hcmp (hsorted.imp fun hlt heq => ?_) (pairwise_distinct cmp es) fun x => ?_
  · omega
  · rw [hsame x]
    constructor
    · rintro ⟨e, hmem, heq⟩
      obtain ⟨a, ha, hae⟩ := exists_mem_distinct hcmp hmem
      exact ⟨a, ha, hcmp.eq_trans hae heq⟩
    · rintro ⟨a, ha, heq⟩
      exact ⟨a, distinct_subset ha, heq⟩

end Lfmr.Collections
