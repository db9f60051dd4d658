import Lfmr.ArraySort

/-!
# When `array_qsort` sorts its segment

The number of elements passed to `qsort` is that of the segment only if the segment starts at 0. The sign
of `int_cmp` is that of the difference exactly for values that are spaced; for others the comparator is
not consistent or orders two of them the wrong way, and then `qsort` may leave them so.
-/

namespace Lfmr.ArraySort

open Lfmr.Party Lfmr.SortLibrary

variable {library : Functions compare} {a : ArrayT Int64} {start stop : Nat} {values : List Int64}
  {x y : Int64}

theorem compare_eq (x y : Int64) : compare x y = (x.toInt - y.toInt).bmod 4294967296 := by
  rw [compare, intCmp, Int64.toInt_toInt32, Int64.toInt_sub]
  exact Int.bmod_bmod_of_dvd (by decide)

theorem compare_signs_iff (x y : Int64) : compare x y < 0 ∧ 0 < compare y x ↔
    0 < (y.toInt - x.toInt) % 4294967296 ∧ (y.toInt - x.toInt) % 4294967296 < 2147483648 := by
  rw [compare_eq, compare_eq]
  simp only [Int.bmod_def]
  omega

theorem compare_self (x : Int64) : compare x x = 0 := by
  rw [compare_eq, Int.sub_self]
  rfl

theorem Spaced.compare_lt (hspaced : Spaced values) (hx : x ∈ values) (hy : y ∈ values) (hlt : x < y) :
    compare x y < 0 ∧ 0 < compare y x :=
  (compare_signs_iff x y).mpr (hspaced x hx y hy hlt)

theorem lt_or_eq_or_gt (x y : Int64) : x < y ∨ x = y ∨ y < x := by
  simp only [Int64.lt_iff_toInt_lt, ← Int64.toInt_inj]
  omega

theorem Spaced.compare_le_iff (hspaced : Spaced values) (hx : x ∈ values) (hy : y ∈ values) :
    compare x y ≤ 0 ↔ x ≤ y := by
  rw [Int64.le_iff_toInt_le]
  rcases lt_or_eq_or_gt x y with hlt | rfl | hlt
  · have hcompare := hspaced.compare_lt hx hy hlt
    rw [Int64.lt_iff_toInt_lt] at hlt
    omega
  · have hcompare := compare_self x
    omega
  · have hcompare := hspaced.compare_lt hy hx hlt
    rw [Int64.lt_iff_toInt_lt] at hlt
    omega

theorem Spaced.consistent (hspaced : Spaced values) : Consistent compare values where
  swap x hx y hy := by
    rcases lt_or_eq_or_gt x y with hlt | rfl | hlt
    · have hcompare := hspaced.compare_lt hx hy hlt
      omega
    · have hcompare := compare_self x
      omega
    · have hcompare := hspaced.compare_lt hy hx hlt
      omega
  trans x hx y hy z hz hxy hyz := by
    rw [hspaced.compare_le_iff hx hy] at hxy
    rw [hspaced.compare_le_iff hy hz] at hyz
    rw [hspaced.compare_le_iff hx hz]
    exact Int64.le_trans hxy hyz

theorem spaced_of_sorted (hsorted : ∀ library : Functions compare,
    (library.qsort values).Perm values → (library.qsort values).Pairwise (· ≤ ·)) : Spaced values := by
  intro x hx y hy hlt
  have hne : x ≠ y := fun heq => Int64.lt_irrefl (heq ▸ hlt)
  rw [← compare_signs_iff]
  by_contra hsigns
  -- The comparator is not consistent, or lets `y` come before `x`.
  have hle : Consistent compare values → compare y x ≤ 0 := by
    intro hconsistent
    have hswap := hconsistent.swap x hx y hy
    omega
  obtain ⟨target, hperm, htarget, hsub⟩ := exists_pair_sublist hx hy hne hle
  obtain ⟨library, hlibrary⟩ := Functions.exists_qsort_eq hperm htarget
  have htarget' : target.Pairwise (· ≤ ·) := hlibrary ▸ hsorted library (hlibrary ▸ hperm)
  have hpair : y ≤ x := List.rel_of_pairwise_cons (htarget'.sublist hsub) List.mem_cons_self
  exact Int64.not_lt.mpr hpair hlt

theorem length_segment (a : ArrayT Int64) (start count : Nat) : (segment a start count).length = count := by
  simp [segment]

theorem getElem_segment (a : ArrayT Int64) (start count : Nat) {i : Nat}
    (hi : i < (segment a start count).length) : (segment a start count)[i] = a.elements (start + i) := by
  simp [segment]

theorem segment_arrayQsort (library : Functions compare) (a : ArrayT Int64) (start stop : Nat)
    (hlength : (library.qsort (segment a start stop)).length = stop) :
    segment (arrayQsort library a start stop).1 start stop = library.qsort (segment a start stop) := by
  apply List.ext_getElem
  · rw [hlength, length_segment]
  · intro i hi hi'
    have hlt : i < stop := by rwa [length_segment] at hi
    rw [getElem_segment]
    simp only [arrayQsort]
    rw [if_pos (by omega), Nat.add_sub_cancel_left, List.getD_eq_getElem?_getD,
      List.getElem?_eq_getElem hi', Option.getD_some]

theorem frame_arrayQsort {i : Nat} (hi : i < start ∨ start + stop ≤ i) :
    (arrayQsort library a start stop).1.elements i = a.elements i := by
  have hout : ¬ (start ≤ i ∧ i < start + stop) := by omega
  simp only [arrayQsort, if_neg hout]

theorem sortsSegment_zero (hspaced : Spaced (segment a 0 stop)) : SortsSegment library a 0 stop := by
  obtain ⟨hperm, hsorted⟩ := library.sorts _ hspaced.consistent
  have hsegment := segment_arrayQsort library a 0 stop (by rw [hperm.length_eq, length_segment])
  constructor
  case sorted =>
    rw [Nat.sub_zero, hsegment]
    refine List.Pairwise.imp_of_mem (fun hx hy hle => ?_) hsorted
    exact (hspaced.compare_le_iff (hperm.mem_iff.mp hx) (hperm.mem_iff.mp hy)).mp hle
  case perm =>
    rw [Nat.sub_zero, hsegment]
    exact hperm
  case inside => simp [arrayQsort]
  case frame => exact fun i hi => frame_arrayQsort (by omega)

/-- `array_qsort` does what it is for, whatever `qsort` does within its promise, if and only if the segment
starts at 0 and its values are spaced. -/
theorem array_qsort_sorts_iff (a : ArrayT Int64) (start stop : Nat) (hstart : start ≤ stop) :
    (∀ library, SortsSegment library a start stop) ↔ start = 0 ∧ Spaced (segment a start stop) := by
  constructor
  · intro hright
    have hzero : start = 0 := by
      -- the last index given to `qsort` lies behind the segment
      have hinside := (hright (.answering compare fun _ _ => false)).inside (start + stop - 1)
      simp only [arrayQsort, List.mem_range'_1] at hinside
      omega
    subst hzero
    refine ⟨rfl, spaced_of_sorted fun library hperm => ?_⟩
    have hsegment := segment_arrayQsort library a 0 stop
      (by rw [hperm.length_eq, length_segment])
    rw [← hsegment]
    exact (hright library).sorted
  · rintro ⟨rfl, hspaced⟩ library
    exact sortsSegment_zero hspaced

def arrayOf (values : List Int64) : ArrayT Int64 := ⟨values.length, fun i => values.getD i 0⟩

theorem array_qsort_sorts_three :
    segment (arrayOf [3, -1, 2]) 0 3 = [3, -1, 2] ∧ ∀ library, SortsSegment library (arrayOf [3, -1, 2]) 0 3 := by
  refine ⟨rfl, (array_qsort_sorts_iff (arrayOf [3, -1, 2]) 0 3 (by decide)).mpr ⟨rfl, ?_⟩⟩
  have hvalues : segment (arrayOf [3, -1, 2]) 0 3 = [3, -1, 2] := rfl
  rw [hvalues, Spaced]
  simp only [List.forall_mem_cons, List.not_mem_nil, false_imp_iff, implies_true, and_true]
  decide

/-- For the segment of the second and third of four elements, the fourth is passed to `qsort` too; and two
values that are 3 · 2 ^ 30 apart are sorted the wrong way. -/
theorem array_qsort_wrong :
    (∀ library, ¬ SortsSegment library (arrayOf [3, 1, 2, 0]) 1 3) ∧
      ∀ library, ¬ SortsSegment library (arrayOf [0, 3221225472]) 0 2 := by
  constructor
  · intro library hright
    have hmem : 3 ∈ List.range' 1 3 := by decide
    have hinside := hright.inside 3 hmem
    omega
  · intro library hright
    have hvalues : segment (arrayOf [0, 3221225472]) 0 2 = [0, 3221225472] := rfl
    have hconsistent : Consistent compare (segment (arrayOf [0, 3221225472]) 0 2) := by
      rw [hvalues]
      constructor
      · simp only [List.forall_mem_cons, List.not_mem_nil, false_imp_iff, implies_true, and_true]
        decide
      · simp only [List.forall_mem_cons, List.not_mem_nil, false_imp_iff, implies_true, and_true]
        decide
    obtain ⟨hperm, hsorted⟩ := library.sorts _ hconsistent
    have hsegment := segment_arrayQsort library (arrayOf [0, 3221225472]) 0 2
      (by rw [hperm.length_eq, length_segment])
    have hresult := hright.sorted
    rw [Nat.sub_zero, hsegment] at hresult
    -- in ascending order the two values are as they were, which the comparator does not take for sorted
    have heq : library.qsort (segment (arrayOf [0, 3221225472]) 0 2) =
        segment (arrayOf [0, 3221225472]) 0 2 :=
      hperm.eq_of_pairwise (fun x y _ _ => Int64.le_antisymm) hresult (by decide)
    rw [heq] at hsorted
    revert hsorted
    unfold Sorted
    decide

end Lfmr.ArraySort
