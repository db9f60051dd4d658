import Mathlib.Data.List.Perm.Basic
import Mathlib.Tactic.Common
import Lfmr.Collections.CountedLoop
import Lfmr.Party

/-!
# What comes back from `party_extract` after `party_each`

`array_get_chunk` copies the element at its end too, and `party_each` gives it the size plus one as the end
of the last chunk, so that neighbouring chunks share an element and the last one has two elements that are
not in the array.
-/

namespace Lfmr.Party

open List Function

open Collections (foldlM_range'_ok foldl_range')

variable {α : Type*} {memory : Nat → α} {a ar : ArrayT α} {start stop size i : Nat}

def chunkIndices (start stop : Nat) : List Nat := List.range' start (stop + 1 - start)

theorem toList_eq_map_of_elements {elements : Nat → α} {count : Nat} (hsize : a.size = count)
    (helements : ∀ j < count, a.elements j = elements (start + j)) :
    a.toList = (range' start count).map elements := by
  subst hsize
  rw [ArrayT.toList, ← Nat.add_zero start, ← map_add_range', map_map]
  exact map_congr_left fun j hj => helements j (by simpa using hj)

structure Copied (a : ArrayT α) (start localSize i : Nat) (acc : ArrayT α × List Nat) : Prop where
  le : start ≤ i
  size : acc.1.size = localSize
  reads : acc.2 = List.range' start (i - start)
  elements : ∀ j < i - start, acc.1.elements j = a.elements (start + j)

theorem Copied.step {localSize : Nat} {acc : ArrayT α × List Nat} (hcopied : Copied a start localSize i acc)
    (hstart : start ≤ a.size) : Copied a start localSize (i + 1)
      (arraySet acc.1 (a.size - start + i - a.size) (a.elements i), acc.2 ++ [i]) := by
  have hle := hcopied.le
  have hindex : a.size - start + i - a.size = i - start := by omega
  have hback : start + (i - start) = i := by omega
  have hsucc : i + 1 - start = i - start + 1 := by omega
  refine ⟨by omega, hcopied.size, ?_, ?_⟩
  · rw [hsucc, range'_concat, hcopied.reads, Nat.one_mul, hback]
  · intro j hj
    simp only [arraySet, hindex]
    by_cases heq : j = i - start
    · rw [heq, update_self, hback]
    · rw [update_of_ne heq]
      exact hcopied.elements j (by omega)

theorem arrayGetChunk_eq (memory : Nat → α) (hstart : start < a.size) (hle : start ≤ stop) (hstop : stop - 1 ≤ a.size) :
    ∃ chunk, arrayGetChunk memory start stop a = .ok (chunk, chunkIndices start stop) ∧
      chunk.toList = (chunkIndices start stop).map a.elements := by
  rw [arrayGetChunk, if_pos hle, if_pos ⟨hstart, hstop⟩]
  have hloop := foldl_range' start (stop + 1 - start) (arrayMk memory (stop - start + 1), [])
    (fun acc i => (arraySet acc.1 (a.size - start + i - a.size) (a.elements i), acc.2 ++ [i]))
    (Copied a start (stop - start + 1)) ⟨le_rfl, rfl, by simp, by simp⟩
    fun i acc _ _ hcopied => hcopied.step hstart.le
  have hcount : start + (stop + 1 - start) - start = stop + 1 - start := by omega
  have hreads := hloop.reads
  have helements := hloop.elements
  rw [hcount] at hreads helements
  refine ⟨_, congrArg Except.ok (Prod.ext rfl hreads), toList_eq_map_of_elements ?_ helements⟩
  rw [hloop.size]
  omega

theorem groups_eq : groups size = (10 * size + 12999) / 13000 := by
  rw [groups, splitThreshold]
  omega

theorem chunkStop_le (hi : i < groups size) :
    i * splitThreshold < size ∧ i * splitThreshold ≤ chunkStop size i ∧ chunkStop size i - 1 ≤ size := by
  rw [groups_eq] at hi
  rw [chunkStop, splitThreshold]
  split_ifs with hlast
  · omega
  · rw [groups_eq] at hlast
    omega

def Par.pushed : Par α → List α
  | .value val => [val]
  | .future fut => [fut]
  | .par left right => left.pushed ++ right.pushed
  | .futurePar fut => fut.pushed
  | .array ar => ar.toList

theorem extractHelper_eq (list : List α) (p : Par α) : extractHelper list p = p.pushed.reverse ++ list := by
  induction p generalizing list with
  | value val => rfl
  | future fut => rfl
  | futurePar fut ih => exact ih list
  | par left right ihl ihr =>
    rw [extractHelper, ihl, ihr, Par.pushed, reverse_append, append_assoc]
  | array ar =>
    have hmap : (range' 0 ar.size).foldl (fun newList i => arrayGet ar i :: newList) list =
        ar.toList.foldl (fun newList element => element :: newList) list := by
      rw [ArrayT.toList, foldl_map]
      rfl
    rw [extractHelper, hmap, Par.pushed]
    exact foldl_flip_cons_eq_append' ..

def Listed (list : List α) (i : Nat) (acc : ArrayT α × List α) : Prop :=
  acc.1.size = list.length ∧ (List.range' 0 i).map acc.1.elements ++ acc.2 = list

theorem Listed.step {list : List α} {acc : ArrayT α × List α} (hlisted : Listed list i acc)
    (hlt : i < list.length) : ∃ next, listToArrayStep acc i = .ok next ∧ Listed list (i + 1) next := by
  obtain ⟨array, rest⟩ := acc
  obtain ⟨hsize, hdone⟩ := hlisted
  cases rest with
  | nil =>
    have hlength := congrArg length hdone
    simp only [length_append, length_map, length_range', length_nil] at hlength
    omega
  | cons data next =>
    refine ⟨_, rfl, hsize, ?_⟩
    have hsame : (range' 0 i).map (update array.elements i data) = (range' 0 i).map array.elements := by
      refine map_congr_left fun j hj => update_of_ne ?_ ..
      have := (mem_range'_1.mp hj).2
      omega
    rw [range'_concat, map_append]
    simpa [arraySet, hsame] using hdone

theorem listToArray_eq (memory : Nat → α) (list : List α) :
    ∃ extracted, listToArray memory list = .ok extracted ∧ extracted.size = list.length ∧ extracted.toList = list := by
  obtain ⟨⟨extracted, rest⟩, hloop, hsize, hdone⟩ := foldlM_range'_ok 0 list.length
    (arrayMk memory list.length, list) listToArrayStep (Listed list) ⟨rfl, rfl⟩
    fun i acc _ hlt hlisted => hlisted.step (by omega)
  have hlength := congrArg length hdone
  have hrest : rest = [] := eq_nil_of_length_eq_zero (by simpa using hlength)
  refine ⟨extracted, ?_, hsize, ?_⟩
  · rw [listToArray, hloop]
    rfl
  · rw [ArrayT.toList, hsize]
    simpa [hrest] using hdone

def eachIndices (size count : Nat) : List Nat :=
  (List.range' 0 count).flatMap fun i => chunkIndices (i * splitThreshold) (chunkStop size i)

theorem eachIndices_succ (size count : Nat) : eachIndices size (count + 1) =
    eachIndices size count ++ chunkIndices (count * splitThreshold) (chunkStop size count) := by
  simp [eachIndices, range'_concat]

structure Grown (ar : ArrayT α) (i : Nat) (acc : Option (Par α) × List Nat) : Prop where
  reads : acc.2 = eachIndices ar.size i
  root : acc.1 = none ↔ i = 0
  pushed : ∀ p, acc.1 = some p → p.pushed.Perm ((eachIndices ar.size i).map ar.elements)

theorem Grown.step {acc : Option (Par α) × List Nat} (hgrown : Grown ar i acc) (hi : i < groups ar.size)
    (memory : Nat → Nat → α) (parallel : Bool) :
    ∃ next, partyEachStep memory parallel ar acc i = .ok next ∧ Grown ar (i + 1) next := by
  obtain ⟨root, reads⟩ := acc
  obtain ⟨rfl, hnone, hpushed⟩ := hgrown
  obtain ⟨hstart, hle, hstop⟩ := chunkStop_le hi
  obtain ⟨chunk, hchunk, hlist⟩ := arrayGetChunk_eq (memory i) hstart hle hstop
  refine ⟨_, by rw [partyEachStep, hchunk]; rfl, (eachIndices_succ ..).symm, by simp, ?_⟩
  rintro p hp
  cases hp
  have hnode : (if parallel = true then Par.futurePar (.array chunk) else .array chunk).pushed = chunk.toList := by
    split_ifs <;> rfl
  rw [eachIndices_succ, map_append, ← hlist]
  cases root with
  | none =>
    obtain rfl : i = 0 := hnone.mp rfl
    rw [buildPartyTree, hnode]
    exact .refl _
  | some root =>
    rw [buildPartyTree, newParP, Par.pushed, hnode]
    exact ((hpushed root rfl).append_left _).trans perm_append_comm

theorem partyEach_eq (memory : Nat → Nat → α) (parallel : Bool) (ar : ArrayT α) :
    ∃ acc, partyEach memory parallel ar = .ok acc ∧ Grown ar (groups ar.size) acc := by
  obtain ⟨acc, hloop, hgrown⟩ := foldlM_range'_ok 0 (groups ar.size) (none, [])
    (partyEachStep memory parallel ar) (Grown ar) ⟨rfl, by simp, by simp⟩
    fun i acc _ hlt hgrown => hgrown.step (by omega) memory parallel
  rw [Nat.zero_add] at hgrown
  exact ⟨acc, hloop, hgrown⟩

theorem length_eachIndices_of_lt {count : Nat} (hcount : count < groups size) :
    (eachIndices size count).length = count * (splitThreshold + 1) := by
  induction count with
  | zero => rfl
  | succ count ih =>
    rw [eachIndices_succ, length_append, ih (by omega), chunkIndices, length_range', chunkStop,
      if_neg (by omega), splitThreshold]
    omega

theorem exists_last_chunk (hsize : 0 < size) : ∃ last, groups size = last + 1 ∧ last * splitThreshold < size := by
  have hgroups : groups size = groups size - 1 + 1 := by
    rw [groups_eq]
    omega
  exact ⟨_, hgroups, (chunkStop_le (by omega)).1⟩

theorem length_eachIndices (hsize : 0 < size) : (eachIndices size (groups size)).length = size + groups size + 1 := by
  obtain ⟨last, hlast, hlt⟩ := exists_last_chunk hsize
  rw [hlast, eachIndices_succ, length_append, length_eachIndices_of_lt (by omega), chunkIndices,
    length_range', chunkStop, if_pos hlast.symm]
  rw [splitThreshold] at hlt ⊢
  omega

theorem mem_eachIndices_of_lt {count : Nat} (hcount : count < groups size) (hpos : 0 < count) :
    i ∈ eachIndices size count ↔ i ≤ count * splitThreshold := by
  induction count with
  | zero => exact absurd hpos (by omega)
  | succ count ih =>
    rw [eachIndices_succ, mem_append, chunkIndices, mem_range'_1, chunkStop, if_neg (by omega)]
    by_cases hzero : count = 0
    · subst hzero
      simp only [eachIndices, splitThreshold, range'_zero, flatMap_nil, not_mem_nil, false_or]
      omega
    · rw [ih (by omega) (by omega), splitThreshold]
      omega

theorem mem_eachIndices (hsize : 0 < size) : i ∈ eachIndices size (groups size) ↔ i ≤ size + 1 := by
  obtain ⟨last, hlast, hlt⟩ := exists_last_chunk hsize
  rw [hlast, eachIndices_succ, mem_append, chunkIndices, mem_range'_1, chunkStop, if_pos hlast.symm]
  rw [splitThreshold] at hlt ⊢
  by_cases hzero : last = 0
  · subst hzero
    simp only [eachIndices, range'_zero, flatMap_nil, not_mem_nil, false_or]
    omega
  · rw [mem_eachIndices_of_lt (by omega) (by omega), splitThreshold]
    omega

/-- The result is never the array: it has two elements from behind it and one more for every chunk but the
first, and there is no result for an empty array. -/
theorem partyExtract_partyEach (memory : Nat → Nat → α) (result : Nat → α) (parallel : Bool)
    (ar : ArrayT α) :
    ¬ RoundTrips memory result parallel ar ∧
      (ar.size = 0 → partyEach memory parallel ar = .ok (none, []) ∧
        partyExtract result (none : Option (Par α)) = .error .nullPointer) ∧
      (0 < ar.size → ∃ root reads extracted, partyEach memory parallel ar = .ok (some root, reads) ∧
        partyExtract result (some root) = .ok extracted ∧
        extracted.size = ar.size + groups ar.size + 1 ∧
        extracted.toList.Perm (reads.map ar.elements) ∧ ∀ i, i ∈ reads ↔ i ≤ ar.size + 1) := by
  obtain ⟨⟨root, reads⟩, heach, hgrown⟩ := partyEach_eq memory parallel ar
  obtain rfl : reads = _ := hgrown.reads
  have hzero : ar.size = 0 → groups ar.size = 0 := by
    rw [groups_eq]
    omega
  refine ⟨?_, ?_, ?_⟩
  · rintro ⟨root', reads', extracted, heach', hextract, -, -, hreads⟩
    rw [heach] at heach'
    obtain ⟨rfl, rfl⟩ := Prod.mk.inj (Except.ok.inj heach')
    by_cases hsize : ar.size = 0
    · obtain rfl : root = none := hgrown.root.mpr (hzero hsize)
      cases hextract
    · have hread := hreads (ar.size + 1) ((mem_eachIndices (by omega)).mpr le_rfl)
      omega
  · intro hsize
    obtain rfl : root = none := hgrown.root.mpr (hzero hsize)
    rw [heach, hzero hsize]
    exact ⟨rfl, rfl⟩
  · intro hsize
    cases root with
    | none =>
      have hgroups := hgrown.root.mp rfl
      rw [groups_eq] at hgroups
      omega
    | some root =>
      obtain ⟨extracted, hextract, hlength, hlist⟩ := listToArray_eq result (extractHelper [] root)
      rw [extractHelper_eq, append_nil] at hlength hlist
      have hperm := (root.pushed.reverse_perm).trans (hgrown.pushed root rfl)
      refine ⟨root, _, extracted, heach, hextract, ?_, hlist ▸ hperm, fun i => mem_eachIndices hsize⟩
      rw [hlength, hperm.length_eq, length_map, length_eachIndices hsize]

/-- An array with the one element 7, with 8 and 9 behind it: they come back too. -/
theorem partyExtract_partyEach_one :
    ∃ root reads extracted,
      partyEach (fun _ _ => 0) false (⟨1, fun i => 7 + i⟩ : ArrayT Nat) = .ok (root, reads) ∧
      partyExtract (fun _ => 0) root = .ok extracted ∧ extracted.toList = [9, 8, 7] ∧ reads = [0, 1, 2] ∧
      ¬ RoundTrips (fun _ _ => 0) (fun _ => 0) false (⟨1, fun i => 7 + i⟩ : ArrayT Nat) := by
  refine ⟨_, _, _, rfl, rfl, rfl, rfl, ?_⟩
  rintro ⟨root, reads, extracted, heach, -, -, -, hreads⟩
  obtain ⟨-, rfl⟩ := Prod.mk.inj (Except.ok.inj heach)
  exact absurd (hreads 2 (by decide)) (by decide)

end Lfmr.Party
