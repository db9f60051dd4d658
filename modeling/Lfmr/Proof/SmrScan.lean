import Lfmr.Concurrency.Hazard
import Lfmr.Smr

/-!
# What a scan knows of the hazard pointers

Between two steps of `scan`, the slots read so far guard only those retired nodes that are in `plist`;
the nodes in `rlist` and `tmplist` together stay the same until one of them is freed.
-/

namespace Lfmr.Smr

open Lfmr.Concurrency Lfmr.Concurrency.Hazards

variable {n : Nat}

def ScanPc.tmplist : ScanPc → List NodeAddr
  | .sweep _ tmplist => tmplist
  | _ => []

def ScanInv (n : Nat) (guard : Nat → Option NodeAddr) (rlist : List NodeAddr) : ScanPc → Prop
  | .test i plist | .copy i plist => Covers guard (· < i) rlist plist
  | .sweep plist tmplist => Covers guard (· < H n) tmplist plist

variable {Tid : Type} {hazards hazards' : Hazards Tid Nat NodeAddr} {guard guard' : Nat → Option NodeAddr}
  {mine mine' : ThisThread} {pc pc' : ScanPc} {thread : Tid} {node : NodeAddr}
  {isOwn : Nat → Prop} {isHeld : NodeAddr → Prop} {rlist : List NodeAddr}

theorem scanInv_start : ScanInv n guard rlist (.test 0 []) :=
  covers_of_not_read fun _ => Nat.not_lt_zero _

theorem ScanInv.steady (hinv : ScanInv n guard rlist pc)
    (hsteady : Steady thread isOwn isHeld hazards guard hazards' guard')
    (hholds : hazards.Holds thread (rlist ++ pc.tmplist))
    (hheld : ∀ node ∈ rlist ++ pc.tmplist, isHeld node) : ScanInv n guard' rlist pc := by
  have hrlist : ∀ node ∈ rlist, node ∈ rlist ++ pc.tmplist := by simp +contextual
  have htmplist : ∀ node ∈ pc.tmplist, node ∈ rlist ++ pc.tmplist := by simp +contextual
  cases pc with
  | test i plist | copy i plist =>
    exact Covers.steady hinv hsteady (fun node hmem => hheld node (hrlist node hmem))
      (fun node hmem => hholds.unlinked node (hrlist node hmem))
  | sweep plist tmplist =>
    exact Covers.steady hinv hsteady (fun node hmem => hheld node (htmplist node hmem))
      (fun node hmem => hholds.unlinked node (htmplist node hmem))

theorem scanStep_perm {pointer : Nat → Option NodeAddr} (hstep : scanStep n pointer mine pc = some (mine', pc')) :
    (mine'.rlist ++ pc'.tmplist).Perm (mine.rlist ++ pc.tmplist) := by
  cases pc with
  | test i plist =>
    simp only [scanStep] at hstep
    split at hstep
    · split at hstep
      · cases hstep
        exact .refl _
      · cases hstep
        exact .refl _
    · cases hstep
      simp [ScanPc.tmplist]
  | copy i plist =>
    cases hstep
    exact .refl _
  | sweep plist tmplist =>
    cases tmplist with
    | nil => simp [scanStep] at hstep
    | cons cur rest =>
      simp only [scanStep, Option.ite_none_right_eq_some, Option.some.injEq, Prod.mk.injEq] at hstep
      obtain ⟨_, rfl, rfl⟩ := hstep
      exact List.perm_middle.symm

theorem ScanInv.step (hinv : ScanInv n guard mine.rlist pc) (hvalid : hazards.Valid guard)
    (hstep : scanStep n hazards.pointer mine pc = some (mine', pc')) :
    ScanInv n guard mine'.rlist pc' := by
  have hsucc : ∀ i other : Nat, other < i + 1 → other < i ∨ other = i := fun i other hlt => by omega
  cases pc with
  | test i plist =>
    simp only [scanStep] at hstep
    split at hstep
    · split at hstep
      · cases hstep
        exact hinv
      · rename_i hnone
        cases hstep
        exact Covers.read hinv hvalid (hsucc i) (List.Subset.refl plist) (by simp [hnone])
    · cases hstep
      exact fun slot hslot => hinv slot (by omega)
  | copy i plist =>
    cases hstep
    refine Covers.read hinv hvalid (hsucc i) (List.subset_append_left _ _) ?_
    intro node hpointer
    simp [hpointer]
  | sweep plist tmplist =>
    cases tmplist with
    | nil => simp [scanStep] at hstep
    | cons cur rest =>
      simp only [scanStep, Option.ite_none_right_eq_some, Option.some.injEq, Prod.mk.injEq] at hstep
      obtain ⟨_, rfl, rfl⟩ := hstep
      exact Covers.subset hinv (List.subset_cons_self cur rest)

theorem ScanInv.unneeded (hinv : ScanInv n guard rlist pc) (hbound : ∀ i node, guard i = some node → i < H n)
    (hunneeded : pc.unneeded = some (node, pc')) :
    pc.tmplist = node :: pc'.tmplist ∧ ScanInv n guard rlist pc' ∧ ∀ i, guard i ≠ some node := by
  cases pc with
  | test i plist | copy i plist => simp [ScanPc.unneeded] at hunneeded
  | sweep plist tmplist =>
    cases tmplist with
    | nil => simp [ScanPc.unneeded] at hunneeded
    | cons cur rest =>
      simp only [ScanPc.unneeded, Option.ite_none_left_eq_some, Option.some.injEq, Prod.mk.injEq] at hunneeded
      obtain ⟨hnotMem, rfl, rfl⟩ := hunneeded
      refine ⟨rfl, Covers.subset hinv (List.subset_cons_self cur rest), ?_⟩
      exact Covers.unguarded hinv hbound List.mem_cons_self hnotMem

def OwnSlot (thread : Fin n) (i : Nat) : Prop := ∃ off, i = slot thread off

theorem slot_lt (thread : Fin n) (off : Bool) : slot thread off < H n := by
  have hlt := thread.isLt
  have hoff : off.toNat ≤ 1 := Bool.toNat_le off
  simp only [slot, H, K]
  omega

theorem slot_injective {thread other : Fin n} {off off' : Bool}
    (heq : slot thread off = slot other off') : thread = other ∧ off = off' := by
  have hoff : off.toNat ≤ 1 := Bool.toNat_le off
  have hoff' : off'.toNat ≤ 1 := Bool.toNat_le off'
  simp only [slot, K] at heq
  refine ⟨Fin.ext (by omega), ?_⟩
  cases off <;> cases off' <;> simp_all <;> omega

theorem exists_off_of_lt {i : Nat} (hlt : i < K) : ∃ off : Bool, i = off.toNat := by
  have hcases : i = 0 ∨ i = 1 := by
    simp only [K] at hlt
    omega
  rcases hcases with rfl | rfl
  · exact ⟨false, rfl⟩
  · exact ⟨true, rfl⟩

theorem not_ownSlot {thread other : Fin n} (hne : other ≠ thread) (off : Bool) : ¬ OwnSlot other (slot thread off) := by
  rintro ⟨off', heq⟩
  exact hne (slot_injective heq).1.symm

end Lfmr.Smr
