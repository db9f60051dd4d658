import Mathlib.Algebra.Ring.Nat

/-!
# What `test.h` and `node.h` declare for all reclaimers
-/

namespace Lfmr

abbrev NodeAddr := Nat

abbrev nEpochs : Nat := 3

instance : NeZero nEpochs := ⟨Nat.succ_ne_zero 2⟩

abbrev Epoch := Fin nEpochs

theorem epoch_val_succ (epoch : Epoch) : ((epoch + 1 : Epoch) : Nat) = ((epoch : Nat) + 1) % 3 := rfl

theorem epoch_val_lt (epoch : Epoch) : (epoch : Nat) < 3 := epoch.isLt

/-- The containers `*_lf_ebr.c` and `*_lf_dw.c` differ in what they do without memory. -/
inductive Reclaimer
  | ebr
  | dw
  deriving DecidableEq

end Lfmr
