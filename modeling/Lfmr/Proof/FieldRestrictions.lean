import Mathlib.Data.List.Induction
import Mathlib.Data.List.Nodup
import Mathlib.Tactic.Common
import Lfmr.Subtyping

/-!
# Field restrictions along flows

A restricted field stays restricted, whatever the value flows through. `canFlowInto` takes care that what is
strongly restricted becomes weakly restricted, but not that it stays so: after a weakly restricted type it
depends on how the next type is written.
-/

namespace Lfmr.Types

open Ty

inductive RestrictOp
  | bar
  | doubleBar
  | tilde
  | unrestrict
  deriving DecidableEq

def RestrictOp.apply : RestrictOp → Ty → Name → Ty
  | bar => Ty.bar
  | doubleBar => Ty.doubleBar
  | tilde => Ty.tilde
  | unrestrict => Ty.unrestrict

def version (clazz : Ty) (ops : List (RestrictOp × Name)) : Ty := ops.foldl (fun ty op => op.1.apply ty op.2) clazz

/-- The last operation on the field, other than `tilde`. -/
def lastOn (f : Name) (ops : List (RestrictOp × Name)) : Option RestrictOp :=
  ops.foldl (fun last op => if op.2 = f ∧ op.1 ≠ .tilde then some op.1 else last) none

variable {env : Environment} {clazz ty ty1 ty2 : Ty} {f : Name}

def WeakOnly (f : Name) (ty : Ty) : Prop :=
  f ∈ weaklyRestrictedFields ty ∧ f ∉ stronglyRestrictedFields ty

/-! ### What the operations do to the list of restrictions -/

section

variable {α : Type} [DecidableEq α] {first second : List α} {a x : α}

theorem mem_difference (hnodup : first.Nodup) : x ∈ difference first second ↔ x ∈ first ∧ x ∉ second := by
  rw [difference, ← List.diff_eq_foldl]
  exact hnodup.mem_sdiff_iff

theorem nodup_difference (hnodup : first.Nodup) : (difference first second).Nodup := by
  rw [difference, ← List.diff_eq_foldl]
  exact hnodup.diff

theorem mem_unite_singleton : x ∈ unite first [a] ↔ x ∈ first ∨ x = a := by
  have hone : x ∈ difference [a].eraseDups first ↔ x ∈ [a] ∧ x ∉ first := mem_difference (List.nodup_singleton a)
  rw [unite, List.mem_append, hone, List.mem_singleton]
  by_cases hx : x ∈ first <;> simp [hx]

theorem nodup_unite_singleton (hnodup : first.Nodup) : (unite first [a]).Nodup := by
  have hone : [a].Nodup := List.nodup_singleton a
  refine List.nodup_append.mpr ⟨hnodup, nodup_difference hone, ?_⟩
  rintro x hx _ hmem rfl
  exact ((mem_difference hone).mp hmem).2 hx

end

theorem mem_weaklyRestrictedFields : f ∈ weaklyRestrictedFields ty ↔ .weak f ∈ ty.restricted := by
  refine ⟨fun hf => ?_, fun hf => List.mem_map.mpr ⟨_, List.mem_filter.mpr ⟨hf, rfl⟩, rfl⟩⟩
  obtain ⟨field, hfield, rfl⟩ := List.mem_map.mp hf
  cases field <;> simp_all [RestrictedField.isWeak, RestrictedField.fname]

theorem mem_stronglyRestrictedFields : f ∈ stronglyRestrictedFields ty ↔ .strong f ∈ ty.restricted := by
  refine ⟨fun hf => ?_, fun hf => List.mem_map.mpr ⟨_, List.mem_filter.mpr ⟨hf, rfl⟩, rfl⟩⟩
  obtain ⟨field, hfield, rfl⟩ := List.mem_map.mp hf
  cases field <;> simp_all [RestrictedField.isStrong, RestrictedField.fname]

theorem version_concat (ops : List (RestrictOp × Name)) (op : RestrictOp) (g : Name) :
    version clazz (ops ++ [(op, g)]) = op.apply (version clazz ops) g := List.foldl_concat ..

theorem lastOn_concat (f : Name) (ops : List (RestrictOp × Name)) (op : RestrictOp) (g : Name) :
    lastOn f (ops ++ [(op, g)]) = if g = f ∧ op ≠ .tilde then some op else lastOn f ops := List.foldl_concat ..

theorem restricted_withRestricted (ty : Ty) (l : List RestrictedField) : (ty.withRestricted l).restricted = l := rfl

/-- What a version says of a field is what the last operation on it said. -/
theorem version_restricted (hclazz : clazz.restricted = []) (ops : List (RestrictOp × Name)) :
    (version clazz ops).restricted.Nodup ∧ ∀ f, (.weak f ∈ (version clazz ops).restricted ↔ lastOn f ops = some .bar) ∧
      (.strong f ∈ (version clazz ops).restricted ↔ lastOn f ops = some .doubleBar) := by
  induction ops using List.reverseRecOn with
  | nil => simp [version, lastOn, hclazz]
  | append_singleton ops op ih =>
    obtain ⟨op, g⟩ := op
    obtain ⟨hnodup, hmem⟩ := ih
    simp only [version_concat, lastOn_concat]
    cases op with
    | bar | doubleBar =>
      refine ⟨nodup_unite_singleton (nodup_difference hnodup), fun f => ?_⟩
      simp only [RestrictOp.apply, Ty.bar, Ty.doubleBar, restricted_withRestricted, mem_unite_singleton,
        mem_difference hnodup, hmem]
      by_cases heq : g = f
      · simp [heq]
      · simp [heq, Ne.symm heq]
    | tilde =>
      refine ⟨nodup_unite_singleton hnodup, fun f => ?_⟩
      simp [RestrictOp.apply, Ty.tilde, restricted_withRestricted, mem_unite_singleton, hmem]
    | unrestrict =>
      refine ⟨nodup_difference hnodup, fun f => ?_⟩
      simp only [RestrictOp.apply, Ty.unrestrict, restricted_withRestricted, mem_difference hnodup, hmem]
      by_cases heq : g = f
      · simp [heq]
      · simp [heq, Ne.symm heq]

theorem weakOnly_version (hclazz : clazz.restricted = []) (ops : List (RestrictOp × Name)) :
    WeakOnly f (version clazz ops) ↔ lastOn f ops = some .bar := by
  obtain ⟨hweak, hstrong⟩ := (version_restricted hclazz ops).2 f
  rw [WeakOnly, mem_weaklyRestrictedFields, mem_stronglyRestrictedFields, hweak, hstrong]
  exact and_iff_left_of_imp fun hlast => by simp [hlast]

/-! ### What a flow keeps -/

theorem FlowsInto.restrictionsFlow (hflow : FlowsInto env ty1 ty2) : restrictionsFlow ty1 ty2 = true := by
  obtain ⟨depth, hflow⟩ := hflow
  rw [canFlowInto] at hflow
  cases hsub : subtypeOf env depth ty1 ty2 with
  | none => simp [hsub] at hflow
  | some isSubtype =>
    rw [hsub] at hflow
    have hboth : (isSubtype && Types.restrictionsFlow ty1 ty2) = true := Option.some.inj hflow
    exact (Bool.and_eq_true_iff.mp hboth).2

theorem mem_of_mem_of_difference_isEmpty {first second : List Name}
    (hempty : (difference first second).isEmpty = true) (hf : f ∈ first) : f ∈ second := by
  rw [List.isEmpty_iff, difference, ← List.diff_eq_foldl] at hempty
  by_contra hsecond
  have hmem : f ∈ first.diff second := List.mem_diff_of_mem hf hsecond
  rw [hempty] at hmem
  exact List.not_mem_nil hmem

theorem FlowsInto.mem_restrictedFields (hflow : FlowsInto env ty1 ty2) (hf : f ∈ restrictedFields ty1) :
    f ∈ restrictedFields ty2 := by
  have hboth := hflow.restrictionsFlow
  rw [Types.restrictionsFlow, Bool.and_eq_true_iff] at hboth
  exact mem_of_mem_of_difference_isEmpty hboth.1 hf

theorem FlowsInto.weakOnly (hflow : FlowsInto env ty1 ty2) (hf : f ∈ stronglyRestrictedFields ty1) :
    WeakOnly f ty2 := by
  have hboth := hflow.restrictionsFlow
  simp only [Types.restrictionsFlow, Bool.and_eq_true, List.all_eq_true, Bool.not_eq_true',
    List.any_eq_false, List.contains_iff_mem] at hboth
  obtain ⟨-, hweak, hstrong⟩ := hboth
  exact ⟨hweak f hf, hstrong f hf⟩

theorem mem_restrictedFields_of_chain (tys : Nat → Ty) {n : Nat} (hchain : ∀ i < n, FlowsInto env (tys i) (tys (i + 1)))
    (hf : f ∈ restrictedFields (tys 0)) : f ∈ restrictedFields (tys n) := by
  induction n with
  | zero => exact hf
  | succ n ih => exact (hchain n (Nat.lt_succ_self n)).mem_restrictedFields (ih fun i hi => hchain i (Nat.lt_succ_of_lt hi))

def nodeClass : Ty := typ (.clazz ⟨['N', 'o', 'd', 'e'], [], none⟩ .passive)

def elemField : Name := ['e', 'l', 'e', 'm']

def nodeEnv : Environment := ⟨[(['N', 'o', 'd', 'e'], ⟨nodeClass, typ .emptyCapability⟩)]⟩

/-- `Node || elem`, `Node | elem`, `Node || elem` and so on. -/
def alternating (i : Nat) : List (RestrictOp × Name) := [(if i % 2 = 0 then .doubleBar else .bar, elemField)]

theorem flowsInto_alternating (i : Nat) :
    FlowsInto nodeEnv (version nodeClass (alternating i)) (version nodeClass (alternating (i + 1))) := by
  rcases Nat.mod_two_eq_zero_or_one i with heven | hodd
  · rw [alternating, alternating, if_pos heven, if_neg (by omega)]
    exact ⟨1, by decide⟩
  · rw [alternating, alternating, if_neg (by omega), if_pos (by omega)]
    exact ⟨1, by decide⟩

end Lfmr.Types
