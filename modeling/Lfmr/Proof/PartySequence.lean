import Lfmr.Proof.PartyEach
import Lfmr.PartySequence

/-!
# `party_sequence` maps

Every node of a collection is mapped to one of the same kind, except that the two sides of a pair change
places, and the closure is called once for each element.
-/

namespace Lfmr.Party

open Collections (foldl_range')

variable {α β : Type*} {f : α → β} {oldArray : ArrayT α} {i : Nat}

structure Mapped (f : α → β) (oldArray : ArrayT α) (i : Nat) (acc : ArrayT β × List α) : Prop where
  size : acc.1.size = oldArray.size
  elements : ∀ j < i, acc.1.elements j = f (oldArray.elements j)
  calls : acc.2 = (List.range' 0 i).map oldArray.elements

theorem Mapped.step {acc : ArrayT β × List α} (hmapped : Mapped f oldArray i acc) : Mapped f oldArray (i + 1)
      (arraySet acc.1 i (f (arrayGet oldArray i)), acc.2 ++ [arrayGet oldArray i]) where
  size := hmapped.size
  elements j hj := by
    by_cases heq : j = i
    · subst heq
      exact Function.update_self ..
    · exact (Function.update_of_ne heq _ _).trans (hmapped.elements j (by omega))
  calls := by
    rw [List.range'_concat, List.map_append, hmapped.calls, Nat.zero_add, Nat.one_mul]
    rfl

theorem fmapRunArray_eq (memory : Nat → β) (f : α → β) (oldArray : ArrayT α) :
    (fmapRunArray memory f oldArray).1.toList = oldArray.toList.map f ∧
      (fmapRunArray memory f oldArray).2 = oldArray.toList := by
  have hloop : Mapped f oldArray (0 + oldArray.size) (fmapRunArray memory f oldArray) :=
    foldl_range' 0 oldArray.size (arrayMk memory oldArray.size, []) _ (Mapped f oldArray)
      ⟨rfl, fun j hj => absurd hj (Nat.not_lt_zero j), rfl⟩ fun i acc _ _ hmapped => hmapped.step
  rw [Nat.zero_add] at hloop
  refine ⟨?_, hloop.calls⟩
  rw [ArrayT.toList, hloop.size, ArrayT.toList, List.map_map]
  exact List.map_congr_left fun j hj => hloop.elements j (by simpa using hj)

theorem pushed_fmap (memory : Nat → β) (f : α → β) (p : Par α) : (fmap memory f p).1.pushed.Perm (p.pushed.map f) := by
  induction p with
  | value val | future fut => exact .refl _
  | futurePar fut ih => exact ih
  | par left right ihl ihr =>
    rw [Par.pushed, List.map_append]
    exact List.perm_append_comm.trans (ihl.append ihr)
  | array ar => exact .of_eq (fmapRunArray_eq memory f ar).1

theorem calls_fmap (memory : Nat → β) (f : α → β) (p : Par α) : (fmap memory f p).2 = p.pushed := by
  induction p with
  | value val => rfl
  | future fut => rfl
  | futurePar fut ih => exact ih
  | par left right ihl ihr =>
    rw [fmap, Par.pushed]
    exact congrArg₂ _ ihl ihr
  | array ar => exact (fmapRunArray_eq memory f ar).2

theorem partyExtract_eq (memory : Nat → α) (p : Par α) : ∃ extracted, partyExtract memory (some p) = .ok extracted ∧
      extracted.size = p.pushed.length ∧ extracted.toList = p.pushed.reverse := by
  obtain ⟨extracted, hextracted, hsize, hlist⟩ := listToArray_eq memory (extractHelper [] p)
  rw [extractHelper_eq, List.append_nil] at hsize hlist
  exact ⟨extracted, hextracted, hsize.trans List.length_reverse, hlist⟩

theorem partySequence_maps (memory : Nat → β) (before : Nat → α) (after : Nat → β) (p : Par α) (f : α → β) :
    ∃ source result, partyExtract before (some p) = .ok source ∧
      partyExtract after (some (partySequence memory p f).1) = .ok result ∧
      result.size = source.size ∧ result.toList.Perm (source.toList.map f) ∧
      (partySequence memory p f).2.Perm source.toList := by
  obtain ⟨source, hsource, hsize, hlist⟩ := partyExtract_eq before p
  obtain ⟨result, hresult, hsize', hlist'⟩ := partyExtract_eq after (fmap memory f p).1
  have hperm := pushed_fmap memory f p
  refine ⟨source, result, hsource, hresult, ?_, ?_, ?_⟩
  · rw [hsize, hsize', hperm.length_eq, List.length_map]
  · rw [hlist, hlist', List.map_reverse]
    exact (List.reverse_perm _).trans (hperm.trans (List.reverse_perm _).symm)
  · rw [hlist, partySequence, calls_fmap]
    exact (List.reverse_perm _).symm

end Lfmr.Party
