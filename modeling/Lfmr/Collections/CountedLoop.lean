import Mathlib.Data.List.Range
import Mathlib.Tactic.Common

/-!
# Loops that count

`for (i = start; i < start + count; i++)` as a fold over the numbers, with an invariant for every turn.
-/

namespace Lfmr.Collections

variable {β ε : Type*} (start count : Nat) (acc : β)

theorem foldlM_range'_ok (body : β → Nat → Except ε β) (Inv : Nat → β → Prop) (hstart : Inv start acc)
    (hbody : ∀ i acc, start ≤ i → i < start + count → Inv i acc → ∃ next, body acc i = .ok next ∧ Inv (i + 1) next) :
    ∃ out, (List.range' start count).foldlM body acc = .ok out ∧ Inv (start + count) out := by
  induction count generalizing start acc with
  | zero => exact ⟨acc, rfl, hstart⟩
  | succ count ih =>
    obtain ⟨next, hnext, hinv⟩ := hbody start acc le_rfl (by omega) hstart
    obtain ⟨out, hout, hlast⟩ := ih (start + 1) next hinv fun i acc hle hlt =>
      hbody i acc (by omega) (by omega)
    refine ⟨out, ?_, by rwa [show start + (count + 1) = start + 1 + count by omega]⟩
    rw [List.range'_succ, List.foldlM_cons, hnext]
    exact hout

theorem foldl_range' (body : β → Nat → β) (Inv : Nat → β → Prop) (hstart : Inv start acc)
    (hbody : ∀ i acc, start ≤ i → i < start + count → Inv i acc → Inv (i + 1) (body acc i)) :
    Inv (start + count) ((List.range' start count).foldl body acc) := by
  obtain ⟨out, hout, hlast⟩ := foldlM_range'_ok start count acc
    (fun acc i => (.ok (body acc i) : Except Empty β)) Inv hstart fun i acc hle hlt hinv => ⟨_, rfl, hbody i acc hle hlt hinv⟩
  have hpure : (List.range' start count).foldlM (fun acc i => (Except.ok (body acc i) : Except Empty β)) acc =
      .ok ((List.range' start count).foldl body acc) := List.foldlM_pure
  rw [hpure] at hout
  cases hout
  exact hlast

end Lfmr.Collections
