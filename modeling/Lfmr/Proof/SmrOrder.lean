import Lfmr.SmrCompare
import Mathlib.Data.List.Nodup
import Mathlib.Data.List.Perm.Subperm

/-!
# When a scan is right

What a scan frees and keeps depends only on which retired nodes `bsearch` finds. These are the ones
among the hazard pointers exactly if the comparator is good for them; in a heap that spans less than
64 GiB it always is.
-/

namespace Lfmr.Smr

open List Lfmr.SortLibrary

variable {library : Functions compare} {hp plist rlist tmplist : List NodeAddr} {mine : ThisThread}
  {found : NodeAddr → Bool} {node : NodeAddr} {n a b : Nat}

theorem sweep_freed : (sweep found tmplist mine).2 = tmplist.filter fun node => !found node := by
  induction tmplist generalizing mine with
  | nil => rfl
  | cons cur rest ih =>
    cases hfound : found cur with
    | true | false => simp [sweep, hfound, ih]

theorem sweep_rlist : (sweep found tmplist mine).1.rlist = (tmplist.filter found).reverse ++ mine.rlist := by
  induction tmplist generalizing mine with
  | nil => rfl
  | cons cur rest ih =>
    cases hfound : found cur with
    | true => simp [sweep, hfound, ih, ThisThread.push]
    | false => simp [sweep, hfound, ih]

theorem sweep_retireCount :
    (sweep found tmplist mine).1.retireCount = (tmplist.filter found).length + mine.retireCount := by
  induction tmplist generalizing mine with
  | nil => simp [sweep]
  | cons cur rest ih =>
    cases hfound : found cur with
    | true =>
      simp only [sweep, hfound, ↓reduceIte, ih, ThisThread.push, filter_cons_of_pos, length_cons]
      omega
    | false => simp [sweep, hfound, ih]

/-- A scan is right if and only if it finds the retired nodes that are in the array. -/
theorem scanRight_iff : ScanRight library hp rlist ↔
      ∀ node ∈ rlist, library.bsearch node (library.qsort (nonNull hp)) = true ↔ node ∈ hp := by
  constructor
  · intro hright node hmem
    have hfreed := hright.freed
    rw [scan, sweep_freed] at hfreed
    have hiff := congrArg (node ∈ ·) hfreed
    simp only [mem_filter, hmem, true_and, Bool.not_eq_eq_eq_not, Bool.not_true, decide_eq_true_eq, eq_iff_iff] at hiff
    rw [← not_iff_not, ← hiff, Bool.not_eq_true]
  · intro hfound
    have hsame : rlist.filter (fun node => library.bsearch node (library.qsort (nonNull hp))) =
        rlist.filter (· ∈ hp) := by
      apply filter_congr
      intro node hmem
      exact Bool.eq_iff_iff.mpr ((hfound node hmem).trans (decide_eq_true_iff).symm)
    refine ⟨?_, ?_, ?_⟩
    · rw [scan, sweep_freed]
      apply filter_congr
      intro node hmem
      have hnode := hfound node hmem
      by_cases hhp : node ∈ hp
      · simp [hhp, hnode.mpr hhp]
      · simpa [hhp] using hnode
    · rw [scan, sweep_rlist, hsame, append_nil]
      exact reverse_perm _
    · rw [scan, sweep_rlist, sweep_retireCount]
      simp

theorem compare_self (a : Nat) : compare a a = 0 := by
  rw [compare, Int.sub_self]
  rfl

/-- Under a good comparator, a retired node is found if and only if it is there. -/
theorem Ordered.bsearch_iff (hordered : Ordered plist rlist) (hmem : node ∈ rlist) :
    library.bsearch node (library.qsort plist) = true ↔ node ∈ plist := by
  obtain ⟨hconsistent, hne⟩ := hordered node hmem
  obtain ⟨hperm, hsorted⟩ := library.sorts plist (hconsistent.subset (subset_cons_self node plist))
  have hconsistent' : Consistent compare (node :: library.qsort plist) :=
    hconsistent.subset (cons_subset_cons node hperm.subset)
  rw [library.finds node _ hconsistent' hsorted]
  constructor
  · rintro ⟨pointer, hpointer, hzero⟩
    by_contra hnotMem
    exact hne hnotMem pointer (hperm.mem_iff.mp hpointer) hzero
  · exact fun hplist => ⟨node, hperm.mem_iff.mpr hplist, compare_self node⟩

theorem mem_nonNull (hne : node ≠ 0) : node ∈ nonNull hp ↔ node ∈ hp := by
  simp [nonNull, hne]

/-- If the comparator is not good for a node, there are library functions that fail on it: they are free
to answer anything where it is not consistent, and must take two different addresses for the same where
it is 0. -/
theorem ordered_of_scanRight (hright : ∀ library, ScanRight library hp rlist) (hnull : 0 ∉ rlist) :
    Ordered (nonNull hp) rlist := by
  intro node hmem
  have hne : node ≠ 0 := fun heq => hnull (heq ▸ hmem)
  let library := Functions.answering compare fun key _ => decide (key ∉ hp)
  have hperm : (library.qsort (nonNull hp)).Perm (nonNull hp) := Functions.answering_perm _ _
  have hfound := scanRight_iff.mp (hright library) node hmem
  have hconsistent : Consistent compare (node :: nonNull hp) := by
    by_contra hnot
    have hnot' : ¬ Consistent compare (node :: library.qsort (nonNull hp)) :=
      fun hcons => hnot (hcons.subset (cons_subset_cons node hperm.symm.subset))
    rw [Functions.answering_of_not_consistent _ hnot', decide_eq_true_eq] at hfound
    tauto
  refine ⟨hconsistent, fun hnotMem pointer hpointer hzero => hnotMem ?_⟩
  obtain ⟨_, hsorted⟩ := library.sorts _ (hconsistent.subset (subset_cons_self node _))
  have hconsistent' : Consistent compare (node :: library.qsort (nonNull hp)) :=
    hconsistent.subset (cons_subset_cons node hperm.subset)
  rw [library.finds node _ hconsistent' hsorted] at hfound
  exact (mem_nonNull hne).mpr (hfound.mp ⟨pointer, hperm.mem_iff.mpr hpointer, hzero⟩)

structure Counted (mine : ThisThread) : Prop where
  nodup : mine.rlist.Nodup
  count : mine.retireCount = mine.rlist.length

theorem scan_counted (hnodup : mine.rlist.Nodup) : Counted (scan library plist mine).1 where
  nodup := by
    rw [scan, sweep_rlist, append_nil, nodup_reverse]
    exact hnodup.filter _
  count := by
    rw [scan, sweep_rlist, sweep_retireCount]
    simp

/-- Only nodes that are in the array are kept, so there are at most as many as slots. -/
theorem Ordered.scan_le (hordered : Ordered plist mine.rlist) (hnodup : mine.rlist.Nodup)
    (hlength : plist.length ≤ H n) : (scan library plist mine).1.retireCount ≤ H n := by
  have hcounted : Counted (scan library plist mine).1 := scan_counted hnodup
  have hsubset : (scan library plist mine).1.rlist ⊆ plist := by
    intro node hmem
    rw [scan, sweep_rlist, append_nil, mem_reverse, mem_filter] at hmem
    exact (hordered.bsearch_iff hmem.1).mp hmem.2
  calc (scan library plist mine).1.retireCount = (scan library plist mine).1.rlist.length := hcounted.count
    _ ≤ plist.length := (hcounted.nodup.subperm hsubset).length_le
    _ ≤ H n := hlength

theorem H_lt_R (n : Nat) : H n < R n := by
  simp only [R]
  omega

/-- By induction on the run: a call that does not scan leaves the list below the bound, one that does
leaves at most one node for each slot. -/
theorem RetireRun.counted (hrun : RetireRun n library mine) : Counted mine ∧ mine.retireCount < R n := by
  induction hrun with
  | init => exact ⟨⟨nodup_nil, rfl⟩, lt_of_le_of_lt (Nat.zero_le _) (H_lt_R n)⟩
  | @call mine node plist _ hnew hlength hordered ih =>
    have hnodup : (mine.push node).rlist.Nodup := nodup_cons.mpr ⟨hnew, ih.1.nodup⟩
    unfold freeNodeLater
    split
    · rename_i hscan
      exact ⟨scan_counted hnodup, lt_of_le_of_lt ((hordered hscan).scan_le hnodup hlength) (H_lt_R n)⟩
    · rename_i hscan
      exact ⟨⟨hnodup, by simp [ThisThread.push, ih.1.count]⟩, not_le.mp hscan⟩
  | @exit mine plist _ hlength hordered ih =>
    exact ⟨scan_counted ih.1.nodup, lt_of_le_of_lt (hordered.scan_le ih.1.nodup hlength) (H_lt_R n)⟩

structure Near (a b : Nat) : Prop where
  apart : Apart a b
  left : a < b + 2 ^ 36
  right : b < a + 2 ^ 36

theorem Near.compare_eq (hnear : Near a b) : compare a b = ((a : Int) - b) / 32 := by
  obtain ⟨_, hleft, hright⟩ := hnear
  have hshift : Int.shiftRight ((a : Int) - b) 5 = ((a : Int) - b) / 32 := Int.shiftRight_eq_div_pow _ 5
  rw [compare, hshift, Int.bmod_eq_iff (by decide)]
  omega

theorem Near.compare_lt_iff (hnear : Near a b) : compare a b < 0 ↔ a < b := by
  rw [hnear.compare_eq]
  have hapart := hnear.apart
  simp only [Apart] at hapart
  omega

theorem Near.compare_pos_iff (hnear : Near a b) : 0 < compare a b ↔ b < a := by
  rw [hnear.compare_eq]
  have hapart := hnear.apart
  simp only [Apart] at hapart
  omega

theorem Near.compare_le_iff (hnear : Near a b) : compare a b ≤ 0 ↔ a ≤ b := by
  have hpos := hnear.compare_pos_iff
  omega

theorem Near.eq_of_compare_eq_zero (hnear : Near a b) (hzero : compare a b = 0) : a = b := by
  have hlt := hnear.compare_lt_iff
  have hpos := hnear.compare_pos_iff
  omega

theorem ordered_of_near (hnear : ∀ node ∈ rlist, ∀ a ∈ node :: plist, ∀ b ∈ node :: plist, Near a b) :
    Ordered plist rlist := by
  intro node hmem
  have hnode := hnear node hmem
  refine ⟨⟨fun a ha b hb => ?_, fun a ha b hb c hc hab hbc => ?_⟩, fun hnotMem b hb hzero => ?_⟩
  · rw [(hnode a ha b hb).compare_lt_iff, (hnode b hb a ha).compare_pos_iff]
  · rw [(hnode a ha b hb).compare_le_iff] at hab
    rw [(hnode b hb c hc).compare_le_iff] at hbc
    rw [(hnode a ha c hc).compare_le_iff]
    exact le_trans hab hbc
  · have heq := (hnode node mem_cons_self b (mem_cons_of_mem node hb)).eq_of_compare_eq_zero hzero
    exact hnotMem (heq ▸ hb)

/-- One scan is right, whatever the library functions do where nothing is promised, if and only if the
comparator is good for each retired node; and if it is in all scans of a run, the retired nodes of a
thread stay below `R`. -/
theorem scan_right_iff_ordered (hp rlist : List NodeAddr) (hnull : 0 ∉ rlist) :
    ((∀ library, ScanRight library hp rlist) ↔ Ordered (nonNull hp) rlist) ∧
    ∀ n library mine, RetireRun n library mine → mine.retireCount < R n := by
  refine ⟨⟨fun hright => ordered_of_scanRight hright hnull, ?_⟩,
    fun n library mine hrun => hrun.counted.2⟩
  intro hordered library
  rw [scanRight_iff]
  intro node hmem
  rw [hordered.bsearch_iff hmem, mem_nonNull]
  exact fun heq => hnull (heq ▸ hmem)

theorem near_of_lt (hapart : Apart a b) (ha : a < 2 ^ 36) (hb : b < 2 ^ 36) : Near a b :=
  ⟨hapart, by omega, by omega⟩

theorem scan_right_iff_ordered_near :
    (∀ library, ScanRight library [4096, 0] [8192]) ∧
    ∀ library, (freeNodeLater 1 library [] ⟨[], 0⟩ 8192).retireCount < R 1 := by
  have hordered : Ordered (nonNull [4096, 0]) [8192] := by
    apply ordered_of_near
    have hnear : ∀ a ∈ [8192, 4096], ∀ b ∈ [8192, 4096], Near a b := by
      intro a ha b hb
      simp only [mem_cons, not_mem_nil, or_false] at ha hb
      exact near_of_lt (by simp only [Apart]; omega) (by omega) (by omega)
    simpa [nonNull] using hnear
  obtain ⟨hscan, hruns⟩ := scan_right_iff_ordered [4096, 0] [8192] (by decide)
  refine ⟨hscan.mpr hordered, fun library => hruns 1 library _ ?_⟩
  exact .call 8192 [] .init (by simp) (by simp) fun hscan => by simp [R, ThisThread.push] at hscan; omega

/-- Two blocks that are 128 GiB apart compare equal, so a scan keeps a node because of the other one. -/
theorem scan_keepsUnprotected :
    (IsBlock (2 ^ 20) ∧ IsBlock (2 ^ 20 + 2 ^ 37) ∧ Apart (2 ^ 20) (2 ^ 20 + 2 ^ 37)) ∧
      ∀ library, ¬ ScanRight library [2 ^ 20 + 2 ^ 37, 0] [2 ^ 20] := by
  refine ⟨⟨⟨by decide, by decide, by decide⟩, ⟨by decide, by decide, by decide⟩,
    .inr (.inl (by decide))⟩, fun library hright => ?_⟩
  -- all differences are 0, so the comparator is consistent and the search is bound to succeed
  have hzero : ∀ a ∈ [2 ^ 20, 2 ^ 20 + 2 ^ 37], ∀ b ∈ [2 ^ 20, 2 ^ 20 + 2 ^ 37], compare a b = 0 := by
    decide
  have hconsistent : Consistent compare [2 ^ 20, 2 ^ 20 + 2 ^ 37] :=
    ⟨fun a ha b hb => by simp [hzero a ha b hb, hzero b hb a ha],
      fun a ha b _ c hc _ _ => Int.le_of_eq (hzero a ha c hc)⟩
  have hplist : nonNull [2 ^ 20 + 2 ^ 37, 0] = [2 ^ 20 + 2 ^ 37] := by decide
  have hsort := (library.sorts [2 ^ 20 + 2 ^ 37] (hconsistent.subset (by simp))).1
  have hfound := (library.finds (2 ^ 20) _ hconsistent (pairwise_singleton _ _)).mpr
    ⟨2 ^ 20 + 2 ^ 37, mem_cons_self, hzero _ (by simp) _ (by simp)⟩
  have hiff := scanRight_iff.mp hright (2 ^ 20) mem_cons_self
  rw [hplist, perm_singleton.mp hsort, hfound] at hiff
  simp at hiff

end Lfmr.Smr
