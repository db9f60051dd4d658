import Mathlib.Data.List.DropRight

/-!
# Stripping a list at both ends

What `strip` drops is the longest run of elements with the property in front, and then the longest one at the
end. Dropping at the end looks at a list from its last element on; it does not see what is cut off before.
-/

namespace Lfmr.Collections.Strip

variable {α : Type*} {p : α → Bool} {l start : List α}

def strip (p : α → Bool) (l : List α) : List α := (l.dropWhile p).rdropWhile p

theorem rdropWhile_append (p : α → Bool) (l rest : List α) :
    (l ++ rest).rdropWhile p = if rest.rdropWhile p = [] then l.rdropWhile p else l ++ rest.rdropWhile p := by
  simp only [List.rdropWhile, List.reverse_append, List.dropWhile_append, List.isEmpty_iff, List.reverse_eq_nil_iff]
  split
  · rfl
  · rw [List.reverse_append, List.reverse_reverse]

theorem dropWhile_append_of_all (hall : ∀ x ∈ l, p x) (rest : List α) : (l ++ rest).dropWhile p = rest.dropWhile p := by
  rw [List.dropWhile_append, if_pos (List.isEmpty_iff.mpr (List.dropWhile_eq_nil_iff.mpr hall))]

theorem dropWhile_rdropWhile (p : α → Bool) (l : List α) : (l.rdropWhile p).dropWhile p = strip p l := by
  have hlead : ∀ x ∈ l.takeWhile p, p x := fun x hx => List.mem_takeWhile_imp hx
  have hdrop : (strip p l).dropWhile p = strip p l := by
    cases hrest : l.dropWhile p with
    | nil => simp [strip, hrest]
    | cons first rest =>
      have hfirst : ¬ p first := by
        have hhead := List.head_dropWhile_not p (by rw [hrest]; exact List.cons_ne_nil _ _)
        simpa [hrest] using hhead
      have hcons : strip p l = first :: rest.rdropWhile p := by
        have happend := rdropWhile_append p [first] rest
        rw [strip, hrest]
        split at happend
        · rename_i hnil
          rw [List.rdropWhile_singleton, if_neg hfirst] at happend
          rw [hnil, ← happend]
          rfl
        · exact happend
      rw [hcons, List.dropWhile_cons_of_neg hfirst]
  have hwhole := rdropWhile_append p (l.takeWhile p) (l.dropWhile p)
  rw [List.takeWhile_append_dropWhile] at hwhole
  rw [hwhole]
  split
  · rename_i hnil
    have hblank : (l.takeWhile p).rdropWhile p = [] := List.rdropWhile_eq_nil_iff.mpr hlead
    rw [hblank, strip, hnil]
    rfl
  · exact (dropWhile_append_of_all hlead _).trans hdrop

theorem strip_strip (p : α → Bool) (l : List α) : strip p (strip p l) = strip p l := by
  have hdrop : (strip p l).dropWhile p = strip p l := by
    rw [← dropWhile_rdropWhile, List.dropWhile_idempotent]
  rw [strip, hdrop, strip, List.rdropWhile_idempotent]

theorem strip_eq_nil_iff : strip p l = [] ↔ ∀ x ∈ l, p x := by
  rw [← dropWhile_rdropWhile, List.dropWhile_eq_nil_iff]
  constructor
  · intro hall
    by_contra hnot
    have hne : l.rdropWhile p ≠ [] := fun hnil => hnot (List.rdropWhile_eq_nil_iff.mp hnil)
    exact List.rdropWhile_last_not p l hne (hall _ (List.getLast_mem hne))
  · intro hall x hx
    exact hall x ((List.rdropWhile_prefix p l).subset hx)

theorem takeWhile_eq_of_visible (hstart : start <+: l) (hvisible : ∃ x ∈ start, ¬ p x) :
    l.takeWhile p = start.takeWhile p := by
  obtain ⟨rest, rfl⟩ := hstart
  have hshort : (start.takeWhile p).length ≠ start.length := by
    intro hlength
    obtain ⟨x, hx, hnot⟩ := hvisible
    have heq : start.takeWhile p = start := (List.takeWhile_prefix p).eq_of_length hlength
    exact hnot (List.mem_takeWhile_imp (heq.symm ▸ hx))
  rw [List.takeWhile_append, if_neg hshort]

theorem rdropWhile_take (n : Nat) (hn : (l.rdropWhile p).length ≤ n) : (l.take n).rdropWhile p = l.rdropWhile p := by
  have hsplit : l.rdropWhile p ++ l.rtakeWhile p = l := List.rdropWhile_append_rtakeWhile
  have htake : l.take n = l.rdropWhile p ++ (l.rtakeWhile p).take (n - (l.rdropWhile p).length) := by
    conv_lhs => rw [← hsplit]
    rw [List.take_append, List.take_of_length_le hn]
  have hblank : ((l.rtakeWhile p).take (n - (l.rdropWhile p).length)).rdropWhile p = [] :=
    List.rdropWhile_eq_nil_iff.mpr fun x hx => List.mem_rtakeWhile_imp (List.mem_of_mem_take hx)
  rw [htake, rdropWhile_append, if_pos hblank, List.rdropWhile_idempotent]

theorem length_rdropWhile_take_le (p : α → Bool) (l : List α) (n : Nat) :
    ((l.take n).rdropWhile p).length ≤ (l.rdropWhile p).length := by
  have happend := rdropWhile_append p (l.take n) (l.drop n)
  rw [List.take_append_drop] at happend
  rw [happend]
  split
  · exact Nat.le_refl _
  · rw [List.length_append]
    exact Nat.le_trans (List.rdropWhile_prefix p _).length_le (Nat.le_add_right ..)

end Lfmr.Collections.Strip
