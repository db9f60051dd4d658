import Mathlib.Data.List.Forall2
import Mathlib.Tactic.Common
import Lfmr.Collections.DepthLimit
import Lfmr.Subtyping

/-!
# The rules that `subtypeOf` implements

Where `subtypeOf` has a result for all types, it is true exactly if one of the rules of `Rule` applies, whose
premises are about parts of the types and about the traits that a class implements.
-/

namespace Lfmr.Types

open Ty Collections

variable {env : Environment} {ty ty1 ty2 : Ty}

/-! ### The equation of `subtypeOf` -/

def pairStep (env : Environment) (f : Ty × Ty → Option Bool) (pair : Ty × Ty) : Option Bool :=
  subtypeStep env (fun a b => f (a, b)) pair.1 pair.2

theorem subtypeOf_eq_iterate (depth : Nat) : subtypeOf env depth ty1 ty2 = iterate (pairStep env) depth (ty1, ty2) := by
  induction depth generalizing ty1 ty2 with
  | zero => rfl
  | succ depth ih =>
    rw [subtypeOf, iterate, pairStep]
    congr 1
    funext a b
    exact ih

section Finitary

variable {α : Type} {p : α → (Ty × Ty → Option Bool) → Option Bool}

theorem finitary_anyM (hp : ∀ x, Finitary (p x)) (l : List α) : Finitary fun f => anyM (fun x => p x f) l :=
  Finitary.foldlM (fun _ x => (hp x).map _) l false

theorem finitary_allM (hp : ∀ x, Finitary (p x)) (l : List α) : Finitary fun f => allM (fun x => p x f) l :=
  Finitary.foldlM (fun _ x => (hp x).map _) l true

theorem finitary_zipAllM (tys1 tys2 : List Ty) :
    Finitary fun f : Ty × Ty → Option Bool => zipAllM (fun a b => f (a, b)) tys1 tys2 := by
  have hpairs : Finitary fun f : Ty × Ty → Option Bool => (tys1.zip tys2).mapM fun pair => f (pair.1, pair.2) :=
    Finitary.mapM (fun pair : Ty × Ty => Finitary.call (pair.1, pair.2)) _
  exact hpairs.map _

theorem finitary_refSubtypeOf (ref1 ref2 : Ty) :
    Finitary fun f : Ty × Ty → Option Bool => refSubtypeOf (fun a b => f (a, b)) ref1 ref2 :=
  .ite ((finitary_zipAllM _ _).bind fun _ => .const _) (.const _)

theorem finitary_capabilitySubtypeOf (cap1 cap2 : Ty) :
    Finitary fun f : Ty × Ty → Option Bool => capabilitySubtypeOf (fun a b => f (a, b)) cap1 cap2 :=
  (finitary_allM (fun _ => finitary_anyM (fun _ => .call _) _) _).bind fun _ => .const _

theorem finitary_pairStep (pair : Ty × Ty) : Finitary fun f => pairStep env f pair := by
  obtain ⟨ty1, ty2⟩ := pair
  refine .ite ((finitary_zipAllM _ _).bind fun _ => (Finitary.call _).bind fun _ => .const _) <|
    .ite ((Finitary.call _).map _) <| .ite (.const _) <| .ite (finitary_refSubtypeOf _ _) <|
    .ite ((Finitary.const _).bind fun _ => finitary_anyM (fun _ => .call _) _) <|
    .ite ((Finitary.const _).bind fun _ => finitary_capabilitySubtypeOf _ _) <|
    .ite ((finitary_zipAllM _ _).bind fun _ => .const _) <|
    .ite ((finitary_refSubtypeOf _ _).map _) <| .ite (finitary_allM (fun _ => .call _) _) <|
    .ite (finitary_anyM (fun _ => .call _) _) <| .ite (finitary_capabilitySubtypeOf _ _) <|
    .ite (.const _) <| .ite (.const _) (.const _)

end Finitary

noncomputable def decides (env : Environment) (ty1 ty2 : Ty) : Option Bool :=
  limit (pairStep env) (ty1, ty2)

theorem decides_eq (env : Environment) (ty1 ty2 : Ty) : decides env ty1 ty2 = subtypeStep env (decides env) ty1 ty2 :=
  limit_eq finitary_pairStep (ty1, ty2)

theorem isSubtype_iff : IsSubtype env ty1 ty2 ↔ decides env ty1 ty2 = some true := by
  rw [decides, limit_eq_some_iff finitary_pairStep, IsSubtype]
  simp only [subtypeOf_eq_iterate]

theorem not_isSubtype_of_eq_false {depth : Nat} (hsub : subtypeOf env depth ty1 ty2 = some false) :
    ¬ IsSubtype env ty1 ty2 := by
  rw [subtypeOf_eq_iterate] at hsub
  rw [isSubtype_iff, decides, (limit_eq_some_iff finitary_pairStep).mpr ⟨depth, hsub⟩]
  simp

/-! ### Lists of results -/

section Lists

variable {α : Type} {p : α → Option Bool} {l : List α} {sub : Ty → Ty → Option Bool} {tys1 tys2 : List Ty}

theorem foldlM_or_eq_true (b : Bool) : l.foldlM (fun b x => (b || ·) <$> p x) b = some true ↔
      (∀ x ∈ l, (p x).isSome) ∧ (b = true ∨ ∃ x ∈ l, p x = some true) := by
  induction l generalizing b with
  | nil => simp
  | cons x l ih =>
    rw [List.foldlM_cons, List.forall_mem_cons]
    cases hx : p x with
    | none => simp
    | some c =>
      change l.foldlM _ (b || c) = some true ↔ _
      rw [ih]
      simp only [Bool.or_eq_true, List.exists_mem_cons_iff, hx, Option.isSome_some, Option.some.injEq,
        true_and, or_assoc]

theorem anyM_eq_true : anyM p l = some true ↔ (∀ x ∈ l, (p x).isSome) ∧ ∃ x ∈ l, p x = some true := by
  rw [anyM, foldlM_or_eq_true]
  simp

theorem foldlM_and_eq_true (b : Bool) :
    l.foldlM (fun b x => (b && ·) <$> p x) b = some true ↔ b = true ∧ ∀ x ∈ l, p x = some true := by
  induction l generalizing b with
  | nil => simp
  | cons x l ih =>
    rw [List.foldlM_cons, List.forall_mem_cons]
    cases hx : p x with
    | none => simp
    | some c =>
      change l.foldlM _ (b && c) = some true ↔ _
      rw [ih]
      simp only [Bool.and_eq_true, Option.some.injEq, and_assoc]

theorem allM_eq_true : allM p l = some true ↔ ∀ x ∈ l, p x = some true := by
  rw [allM, foldlM_and_eq_true]
  simp

theorem isSome_foldlM {body : Bool → Bool → Bool} (b : Bool) (hp : ∀ x ∈ l, (p x).isSome) :
    (l.foldlM (fun b x => body b <$> p x) b).isSome := by
  induction l generalizing b with
  | nil => rfl
  | cons x l ih =>
    rw [List.foldlM_cons]
    obtain ⟨c, hc⟩ := Option.isSome_iff_exists.mp (hp x (by simp))
    rw [hc]
    exact ih _ fun y hy => hp y (by simp [hy])

theorem mapM_pairs_eq_some (hp : ∀ x ∈ l, (p x).isSome) : ∃ results, l.mapM p = some results := by
  induction l with
  | nil => exact ⟨[], rfl⟩
  | cons x l ih =>
    obtain ⟨c, hc⟩ := Option.isSome_iff_exists.mp (hp x (by simp))
    obtain ⟨results, hresults⟩ := ih fun y hy => hp y (by simp [hy])
    exact ⟨c :: results, by rw [List.mapM_cons, hc, hresults]; rfl⟩

theorem mapM_all_eq_true :
    (fun results : List Bool => results.all id) <$> l.mapM p = some true ↔ ∀ x ∈ l, p x = some true := by
  induction l with
  | nil => simp
  | cons x l ih =>
    rw [List.mapM_cons, List.forall_mem_cons, ← ih]
    cases p x with
    | none => simp
    | some c =>
      cases l.mapM p with
      | none | some results => simp

theorem zipAllM_eq_true : zipAllM sub tys1 tys2 = some true ↔ ∀ pair ∈ tys1.zip tys2, sub pair.1 pair.2 = some true :=
  mapM_all_eq_true

theorem isSome_zipAllM (hsub : ∀ pair ∈ tys1.zip tys2, (sub pair.1 pair.2).isSome) :
    (zipAllM sub tys1 tys2).isSome := by
  obtain ⟨results, hresults⟩ := mapM_pairs_eq_some hsub
  rw [zipAllM, hresults]
  rfl

end Lists

theorem isArrowType_iff : isArrowType ty = true ↔ ∃ args r b s, ty = mk (.arrow args r) b s := by
  obtain ⟨inner, box, restricted⟩ := ty
  cases inner <;> simp [isArrowType]

theorem isTupleType_iff : isTupleType ty = true ↔ ∃ args b s, ty = mk (.tuple args) b s := by
  obtain ⟨inner, box, restricted⟩ := ty
  cases inner <;> simp [isTupleType]

theorem isTraitType_iff : isTraitType ty = true ↔ ∃ info b s, ty = mk (.trait info) b s := by
  obtain ⟨inner, box, restricted⟩ := ty
  cases inner <;> simp [isTraitType]

theorem isClassType_iff : isClassType ty = true ↔ ∃ info a b s, ty = mk (.clazz info a) b s := by
  obtain ⟨inner, box, restricted⟩ := ty
  cases inner <;> simp [isClassType]

theorem isBottomType_iff : isBottomType ty = true ↔ ∃ b s, ty = mk (.basic .bottom) b s := by
  obtain ⟨inner, box, restricted⟩ := ty
  cases inner with
  | basic kind => cases kind <;> simp [isBottomType]
  | _ => simp [isBottomType]

theorem isBasic_iff {kind : Basic} : isBasic kind ty = true ↔ ∃ b, ty = mk (.basic kind) b [] := by
  obtain ⟨inner, box, restricted⟩ := ty
  change (eqInner inner (.basic kind) && restricted.isPerm []) = true ↔ _
  cases inner with
  | basic kind' => simp [eqInner, List.isPerm_iff]
  | _ => simp [eqInner]

theorem isCapabilityType_iff (htrait : isTraitType ty = false) (hempty : ty.inner ≠ .emptyCapability) :
    isCapabilityType ty = true ↔ ∃ op l r b s, ty = mk (.capability op l r) b s := by
  obtain ⟨inner, box, restricted⟩ := ty
  cases inner <;> simp_all [isCapabilityType, isTraitType, Ty.inner]

/-- One rule of subtyping, where `R` is subtyping for the premises. -/
inductive Rule (env : Environment) (R : Ty → Ty → Prop) : Ty → Ty → Prop
  | arrow {args1 args2 r1 r2 b1 b2 s1 s2}
      (hlength : args1.length = args2.length) (hargs : ∀ pair ∈ args2.zip args1, R pair.1 pair.2)
      (hresult : R r1 r2) : Rule env R (mk (.arrow args1 r1) b1 s1) (mk (.arrow args2 r2) b2 s2)
  | container {kind r1 r2 b1 b2 s1 s2}
      (hkind : hasSameKind r1 r2 = true) (hresult : R r1 r2) :
      Rule env R (mk (.container kind r1) b1 s1) (mk (.container kind r2) b2 s2)
  | tuple {args1 args2 b1 b2 s1 s2}
      (hlength : args1.length = args2.length) (hargs : ∀ pair ∈ args1.zip args2, R pair.1 pair.2) :
      Rule env R (mk (.tuple args1) b1 s1) (mk (.tuple args2) b2 s2)
  | clazz {info1 info2 a1 a2 b1 b2 s1 s2}
      (hid : info1.refId = info2.refId) (hlength : info1.parameters.length = info2.parameters.length)
      (hparams : ∀ pair ∈ info1.parameters.zip info2.parameters, R pair.1 pair.2)
      (hbox : b2 = some .pristine → b1 = some .pristine) :
      Rule env R (mk (.clazz info1 a1) b1 s1) (mk (.clazz info2 a2) b2 s2)
  | trait {info1 info2 b1 b2 s1 s2}
      (hmode : info1.mode = info2.mode)
      (hid : info1.refId = info2.refId) (hlength : info1.parameters.length = info2.parameters.length)
      (hparams : ∀ pair ∈ info1.parameters.zip info2.parameters, R pair.1 pair.2)
      (hbox : b2 = some .pristine → b1 = some .pristine) :
      Rule env R (mk (.trait info1) b1 s1) (mk (.trait info2) b2 s2)
  | classTrait {info1 info2 a1 b1 b2 s1 s2 cap t}
      (hcap : env.capabilityLookup (mk (.clazz info1 a1) b1 s1) = some cap) (ht : t ∈ typesFromCapability cap)
      (hsub : R t (mk (.trait info2) b2 s2)) : Rule env R (mk (.clazz info1 a1) b1 s1) (mk (.trait info2) b2 s2)
  | classCapability {info1 a1 op2 l2 r2 b1 b2 s1 s2 cap}
      (hcap : env.capabilityLookup (mk (.clazz info1 a1) b1 s1) = some cap)
      (hconj : preservesConjunctionsOf cap (mk (.capability op2 l2 r2) b2 s2) = true)
      (hsub : ∀ t2 ∈ typesFromCapability (mk (.capability op2 l2 r2) b2 s2),
        ∃ t1 ∈ typesFromCapability cap, R t1 t2) :
      Rule env R (mk (.clazz info1 a1) b1 s1) (mk (.capability op2 l2 r2) b2 s2)
  | traitCapability {info1 op2 l2 r2 b1 b2 s1 s2}
      (hsub : ∀ t2 ∈ typesFromCapability (mk (.capability op2 l2 r2) b2 s2), R (mk (.trait info1) b1 s1) t2) :
      Rule env R (mk (.trait info1) b1 s1) (mk (.capability op2 l2 r2) b2 s2)
  | capabilityTrait {op1 l1 r1 info2 b1 b2 s1 s2 t} (ht : t ∈ typesFromCapability (mk (.capability op1 l1 r1) b1 s1))
      (hsub : R t (mk (.trait info2) b2 s2)) :
      Rule env R (mk (.capability op1 l1 r1) b1 s1) (mk (.trait info2) b2 s2)
  | capability {op1 op2 l1 r1 l2 r2 b1 b2 s1 s2}
      (hconj : preservesConjunctionsOf (mk (.capability op1 l1 r1) b1 s1)
        (mk (.capability op2 l2 r2) b2 s2) = true)
      (hsub : ∀ t2 ∈ typesFromCapability (mk (.capability op2 l2 r2) b2 s2),
        ∃ t1 ∈ typesFromCapability (mk (.capability op1 l1 r1) b1 s1), R t1 t2) :
      Rule env R (mk (.capability op1 l1 r1) b1 s1) (mk (.capability op2 l2 r2) b2 s2)
  | typeVar {ident b1 b2 s1 s2} (hrestricted : s1.Perm s2) :
      Rule env R (mk (.typeVar ident) b1 s1) (mk (.typeVar ident) b2 s2)
  | ctype {ident b1 b2 s1 s2} (hrestricted : s1.Perm s2) :
      Rule env R (mk (.ctype ident) b1 s1) (mk (.ctype ident) b2 s2)
  | basic {kind b1 b2 s1 s2} (hrestricted : s1.Perm s2) :
      Rule env R (mk (.basic kind) b1 s1) (mk (.basic kind) b2 s2)
  | intReal {b1 b2} : Rule env R (mk (.basic .int) b1 []) (mk (.basic .real) b2 [])
  | nullTrait {info2 b1 b2 s2} :
      Rule env R (mk (.basic .null) b1 []) (mk (.trait info2) b2 s2)
  | nullClass {info2 a2 b1 b2 s2} :
      Rule env R (mk (.basic .null) b1 []) (mk (.clazz info2 a2) b2 s2)
  | bottom {b1 s1 ty2} (hty2 : isBottomType ty2 = false) :
      Rule env R (mk (.basic .bottom) b1 s1) ty2

theorem matchingPristiness_iff {ref1 ref2 : Ty} :
    matchingPristiness ref1 ref2 = true ↔ (ref2.box = some .pristine → ref1.box = some .pristine) := by
  simp only [matchingPristiness, isPristineRefType]
  by_cases h1 : ref1.box = some .pristine <;> by_cases h2 : ref2.box = some .pristine <;> simp [h1, h2]

theorem refSubtypeOf_eq_true {sub : Ty → Ty → Option Bool} {ref1 ref2 : Ty} :
    refSubtypeOf sub ref1 ref2 = some true ↔ ref1.getId = ref2.getId ∧
      ref1.getTypeParameters.length = ref2.getTypeParameters.length ∧
      (∀ pair ∈ ref1.getTypeParameters.zip ref2.getTypeParameters, sub pair.1 pair.2 = some true) ∧
      (ref2.box = some .pristine → ref1.box = some .pristine) := by
  rw [refSubtypeOf, ← matchingPristiness_iff, ← zipAllM_eq_true]
  by_cases hid : ref1.getId = ref2.getId <;>
    by_cases hlength : ref1.getTypeParameters.length = ref2.getTypeParameters.length
  · cases hall : zipAllM sub ref1.getTypeParameters ref2.getTypeParameters with
    | none => simp [hid, hlength]
    | some results => cases results <;> simp [hid, hlength]
  all_goals simp [hid, hlength]

theorem capabilitySubtypeOf_eq_true {sub : Ty → Ty → Option Bool} {cap1 cap2 : Ty} :
    capabilitySubtypeOf sub cap1 cap2 = some true ↔ preservesConjunctionsOf cap1 cap2 = true ∧
      ∀ t2 ∈ typesFromCapability cap2, (∀ t1 ∈ typesFromCapability cap1, (sub t1 t2).isSome) ∧
        ∃ t1 ∈ typesFromCapability cap1, sub t1 t2 = some true := by
  have hall := allM_eq_true (p := fun t2 => anyM (fun t1 => sub t1 t2) (typesFromCapability cap1))
    (l := typesFromCapability cap2)
  simp only [anyM_eq_true] at hall
  rw [capabilitySubtypeOf, ← hall]
  cases allM (fun t2 => anyM (fun t1 => sub t1 t2) (typesFromCapability cap1)) (typesFromCapability cap2) with
  | none | some isSubsumed => simp

theorem rule_of_hasResultType {R : Ty → Ty → Prop} (harrow : (isArrowType ty1 && isArrowType ty2) = false)
    (hboth : (hasResultType ty1 && hasResultType ty2) = true) (hkind : hasSameKind ty1 ty2 = true)
    (hresult : R ty1.getResultType ty2.getResultType) : Rule env R ty1 ty2 := by
  obtain ⟨inner1, b1, s1⟩ := ty1
  obtain ⟨inner2, b2, s2⟩ := ty2
  cases inner1 <;> cases inner2 <;> simp only [hasResultType, isArrowType, Bool.and_false, Bool.false_and,
    Bool.and_self, reduceCtorEq] at harrow hboth
  case container.container kind1 r1 kind2 r2 =>
    rw [hasSameKind] at hkind
    by_cases hsame : kind1 = kind2
    · subst hsame
      exact .container (by simpa using hkind) hresult
    · rw [if_neg hsame] at hkind
      exact absurd hkind Bool.false_ne_true
  case arrow.container => exact absurd hkind Bool.false_ne_true
  case container.arrow => exact absurd hkind Bool.false_ne_true

/-- Types for which nothing else applies are equal only if they are made of nothing. -/
theorem rule_of_eq {R : Ty → Ty → Prop} (heq : (ty1 == ty2) = true)
    (hleaf : (∃ ident, ty1.inner = .typeVar ident) ∨ (∃ ident, ty1.inner = .ctype ident) ∨
      ∃ kind, ty1.inner = .basic kind) : Rule env R ty1 ty2 := by
  obtain ⟨inner1, b1, s1⟩ := ty1
  obtain ⟨inner2, b2, s2⟩ := ty2
  obtain ⟨hinner, hperm⟩ := Bool.and_eq_true_iff.mp heq
  have hrestricted : s1.Perm s2 := List.isPerm_iff.mp hperm
  simp only [Ty.inner] at hinner hleaf
  rcases hleaf with ⟨ident, rfl⟩ | ⟨ident, rfl⟩ | ⟨kind, rfl⟩ <;> cases inner2 <;>
    simp only [eqInner, reduceCtorEq, beq_iff_eq] at hinner
  · subst hinner
    exact .typeVar hrestricted
  · subst hinner
    exact .ctype hrestricted
  · subst hinner
    exact .basic hrestricted

theorem leaf_of_eq (heq : (ty1 == ty2) = true) (hempty : ty1.inner ≠ .emptyCapability)
    (hresult : (hasResultType ty1 && hasResultType ty2) = false)
    (hclass : (isClassType ty1 && isClassType ty2) = false)
    (htuple : (isTupleType ty1 && isTupleType ty2) = false)
    (hcap : (isCapabilityType ty1 && isCapabilityType ty2) = false) :
    (∃ ident, ty1.inner = .typeVar ident) ∨ (∃ ident, ty1.inner = .ctype ident) ∨ ∃ kind, ty1.inner = .basic kind := by
  obtain ⟨inner1, b1, s1⟩ := ty1
  obtain ⟨inner2, b2, s2⟩ := ty2
  obtain ⟨hinner, -⟩ := Bool.and_eq_true_iff.mp heq
  simp only [Ty.inner] at hinner hempty ⊢
  cases inner1 with
  | emptyCapability => exact absurd rfl hempty
  | typeVar ident => exact .inl ⟨ident, rfl⟩
  | ctype ident => exact .inr (.inl ⟨ident, rfl⟩)
  | basic kind => exact .inr (.inr ⟨kind, rfl⟩)
  | _ =>
    exfalso
    cases inner2 <;> simp [eqInner, hasResultType, isClassType, isTupleType, isCapabilityType] at *

section Cases

variable {R : Ty → Ty → Prop} {sub : Ty → Ty → Option Bool}

theorem rule_of_arrow {contravariance covariance : Bool} (hboth : (isArrowType ty1 && isArrowType ty2) = true)
    (hargs : zipAllM sub ty2.getArgTypes ty1.getArgTypes = some contravariance)
    (hresult : sub ty1.getResultType ty2.getResultType = some covariance)
    (hsub : (ty1.getArgTypes.length == ty2.getArgTypes.length && contravariance && covariance) = true) :
    Rule env (fun ty1 ty2 => sub ty1 ty2 = some true) ty1 ty2 := by
  obtain ⟨⟨args1, r1, b1, s1, rfl⟩, args2, r2, b2, s2, rfl⟩ :=
    (Bool.and_eq_true_iff.mp hboth).imp isArrowType_iff.mp isArrowType_iff.mp
  simp only [Bool.and_eq_true, beq_iff_eq] at hsub
  obtain ⟨⟨hlength, rfl⟩, rfl⟩ := hsub
  exact .arrow hlength (zipAllM_eq_true.mp hargs) hresult

theorem rule_of_null (hnull : isNullType ty1 = true) (hsub : (isNullType ty2 || isRefType ty2) = true) :
    Rule env R ty1 ty2 := by
  obtain ⟨b1, rfl⟩ := isBasic_iff.mp hnull
  rw [Bool.or_eq_true, isRefType, Bool.or_eq_true] at hsub
  rcases hsub with hnull2 | htrait2 | hclass2
  · obtain ⟨b2, rfl⟩ := isBasic_iff.mp hnull2
    exact .basic (.refl _)
  · obtain ⟨info2, b2, s2, rfl⟩ := isTraitType_iff.mp htrait2
    exact .nullTrait
  · obtain ⟨info2, a2, b2, s2, rfl⟩ := isClassType_iff.mp hclass2
    exact .nullClass

theorem rule_of_class (hboth : (isClassType ty1 && isClassType ty2) = true)
    (hsub : refSubtypeOf sub ty1 ty2 = some true) : Rule env (fun ty1 ty2 => sub ty1 ty2 = some true) ty1 ty2 := by
  obtain ⟨⟨info1, a1, b1, s1, rfl⟩, info2, a2, b2, s2, rfl⟩ :=
    (Bool.and_eq_true_iff.mp hboth).imp isClassType_iff.mp isClassType_iff.mp
  obtain ⟨hid, hlength, hparams, hbox⟩ := refSubtypeOf_eq_true.mp hsub
  exact .clazz (Option.some.inj hid) hlength hparams hbox

theorem rule_of_classTrait {cap : Ty} (hboth : (isClassType ty1 && isTraitType ty2) = true)
    (hcap : env.capabilityLookup ty1 = some cap)
    (hsub : anyM (fun t => sub t ty2) (typesFromCapability cap) = some true) :
    Rule env (fun ty1 ty2 => sub ty1 ty2 = some true) ty1 ty2 := by
  obtain ⟨⟨info1, a1, b1, s1, rfl⟩, info2, b2, s2, rfl⟩ :=
    (Bool.and_eq_true_iff.mp hboth).imp isClassType_iff.mp isTraitType_iff.mp
  obtain ⟨-, t, ht, hsub⟩ := anyM_eq_true.mp hsub
  exact .classTrait hcap ht hsub

theorem rule_of_classCapability {cap : Ty} (hempty2 : ty2.inner ≠ .emptyCapability)
    (htrait : ¬ (isClassType ty1 && isTraitType ty2) = true)
    (hboth : (isClassType ty1 && isCapabilityType ty2) = true) (hcap : env.capabilityLookup ty1 = some cap)
    (hsub : capabilitySubtypeOf sub cap ty2 = some true) :
    Rule env (fun ty1 ty2 => sub ty1 ty2 = some true) ty1 ty2 := by
  obtain ⟨hclass1, hcap2⟩ := Bool.and_eq_true_iff.mp hboth
  have htrait2 : isTraitType ty2 = false := by simpa [hclass1] using htrait
  obtain ⟨info1, a1, b1, s1, rfl⟩ := isClassType_iff.mp hclass1
  obtain ⟨op2, l2, r2, b2, s2, rfl⟩ := (isCapabilityType_iff htrait2 hempty2).mp hcap2
  obtain ⟨hconj, hsub⟩ := capabilitySubtypeOf_eq_true.mp hsub
  exact .classCapability hcap hconj fun t2 ht2 => (hsub t2 ht2).2

theorem rule_of_tuple {results : Bool} (hboth : (isTupleType ty1 && isTupleType ty2) = true)
    (hargs : zipAllM sub ty1.getArgTypes ty2.getArgTypes = some results)
    (hsub : (results && ty1.getArgTypes.length == ty2.getArgTypes.length) = true) :
    Rule env (fun ty1 ty2 => sub ty1 ty2 = some true) ty1 ty2 := by
  obtain ⟨⟨args1, b1, s1, rfl⟩, args2, b2, s2, rfl⟩ :=
    (Bool.and_eq_true_iff.mp hboth).imp isTupleType_iff.mp isTupleType_iff.mp
  rw [Bool.and_eq_true, beq_iff_eq] at hsub
  obtain ⟨rfl, hlength⟩ := hsub
  exact .tuple hlength (zipAllM_eq_true.mp hargs)

theorem rule_of_trait (hboth : (isTraitType ty1 && isTraitType ty2) = true)
    (hmode : modeSubtypeOf ty1 ty2 = true) (hsub : refSubtypeOf sub ty1 ty2 = some true) :
    Rule env (fun ty1 ty2 => sub ty1 ty2 = some true) ty1 ty2 := by
  obtain ⟨⟨info1, b1, s1, rfl⟩, info2, b2, s2, rfl⟩ :=
    (Bool.and_eq_true_iff.mp hboth).imp isTraitType_iff.mp isTraitType_iff.mp
  obtain ⟨hid, hlength, hparams, hbox⟩ := refSubtypeOf_eq_true.mp hsub
  exact .trait (eq_of_beq hmode) (Option.some.inj hid) hlength hparams hbox

theorem rule_of_traitCapability (hempty2 : ty2.inner ≠ .emptyCapability)
    (htrait : ¬ (isTraitType ty1 && isTraitType ty2) = true)
    (hboth : (isTraitType ty1 && isCapabilityType ty2) = true)
    (hsub : allM (fun t => sub ty1 t) (typesFromCapability ty2) = some true) :
    Rule env (fun ty1 ty2 => sub ty1 ty2 = some true) ty1 ty2 := by
  obtain ⟨htrait1, hcap2⟩ := Bool.and_eq_true_iff.mp hboth
  have htrait2 : isTraitType ty2 = false := by simpa [htrait1] using htrait
  obtain ⟨info1, b1, s1, rfl⟩ := isTraitType_iff.mp htrait1
  obtain ⟨op2, l2, r2, b2, s2, rfl⟩ := (isCapabilityType_iff htrait2 hempty2).mp hcap2
  exact .traitCapability (allM_eq_true.mp hsub)

theorem rule_of_capabilityTrait (hempty1 : ty1.inner ≠ .emptyCapability)
    (htrait : ¬ (isTraitType ty1 && isTraitType ty2) = true)
    (hboth : (isCapabilityType ty1 && isTraitType ty2) = true)
    (hsub : anyM (fun t => sub t ty2) (typesFromCapability ty1) = some true) :
    Rule env (fun ty1 ty2 => sub ty1 ty2 = some true) ty1 ty2 := by
  obtain ⟨hcap1, htrait2⟩ := Bool.and_eq_true_iff.mp hboth
  have htrait1 : isTraitType ty1 = false := by simpa [htrait2] using htrait
  obtain ⟨info2, b2, s2, rfl⟩ := isTraitType_iff.mp htrait2
  obtain ⟨op1, l1, r1, b1, s1, rfl⟩ := (isCapabilityType_iff htrait1 hempty1).mp hcap1
  obtain ⟨-, t, ht, hsub⟩ := anyM_eq_true.mp hsub
  exact .capabilityTrait ht hsub

theorem rule_of_capability (hempty1 : ty1.inner ≠ .emptyCapability) (hempty2 : ty2.inner ≠ .emptyCapability)
    (htraitCap : ¬ (isTraitType ty1 && isCapabilityType ty2) = true)
    (hcapTrait : ¬ (isCapabilityType ty1 && isTraitType ty2) = true)
    (hboth : (isCapabilityType ty1 && isCapabilityType ty2) = true)
    (hsub : capabilitySubtypeOf sub ty1 ty2 = some true) :
    Rule env (fun ty1 ty2 => sub ty1 ty2 = some true) ty1 ty2 := by
  obtain ⟨hcap1, hcap2⟩ := Bool.and_eq_true_iff.mp hboth
  have htrait1 : isTraitType ty1 = false := by simpa [hcap2] using htraitCap
  have htrait2 : isTraitType ty2 = false := by simpa [hcap1] using hcapTrait
  obtain ⟨op1, l1, r1, b1, s1, rfl⟩ := (isCapabilityType_iff htrait1 hempty1).mp hcap1
  obtain ⟨op2, l2, r2, b2, s2, rfl⟩ := (isCapabilityType_iff htrait2 hempty2).mp hcap2
  obtain ⟨hconj, hsub⟩ := capabilitySubtypeOf_eq_true.mp hsub
  exact .capability hconj fun t2 ht2 => (hsub t2 ht2).2

theorem rule_of_numeric (hboth : (isNumeric ty1 && isNumeric ty2) = true)
    (hsub : numericSubtypeOf ty1 ty2 = true) : Rule env R ty1 ty2 := by
  rw [numericSubtypeOf] at hsub
  split_ifs at hsub with hintReal
  · obtain ⟨⟨b1, rfl⟩, b2, rfl⟩ := (Bool.and_eq_true_iff.mp hintReal).imp isBasic_iff.mp isBasic_iff.mp
    exact .intReal
  · refine rule_of_eq hsub (.inr (.inr ?_))
    rcases Bool.or_eq_true_iff.mp (Bool.and_eq_true_iff.mp hboth).1 with hreal | hint
    · obtain ⟨b1, rfl⟩ := isBasic_iff.mp hreal
      exact ⟨_, rfl⟩
    · obtain ⟨b1, rfl⟩ := isBasic_iff.mp hint
      exact ⟨_, rfl⟩

end Cases

/-- A result that is true was reached by one of the rules. -/
theorem rule_of_decides (hempty1 : ty1.inner ≠ .emptyCapability) (hempty2 : ty2.inner ≠ .emptyCapability)
    (hsub : decides env ty1 ty2 = some true) :
    Rule env (fun ty1 ty2 => decides env ty1 ty2 = some true) ty1 ty2 := by
  rw [decides_eq, subtypeStep] at hsub
  -- The cases in the order of the source.
  rcases ite_eq_iff.mp hsub with ⟨harrow, hsub⟩ | ⟨harrow, hsub⟩
  · obtain ⟨_, hargs, hsub⟩ := Option.bind_eq_some_iff.mp hsub
    obtain ⟨_, hresult, hsub⟩ := Option.bind_eq_some_iff.mp hsub
    exact rule_of_arrow harrow hargs hresult (Option.some.inj hsub)
  rcases ite_eq_iff.mp hsub with ⟨hresult, hsub⟩ | ⟨hresult, hsub⟩
  · obtain ⟨_, hsub, hand⟩ := Option.map_eq_some_iff.mp hsub
    obtain ⟨hkind, rfl⟩ := Bool.and_eq_true_iff.mp hand
    exact rule_of_hasResultType (by simpa using harrow) hresult hkind hsub
  rcases ite_eq_iff.mp hsub with ⟨hnull, hsub⟩ | ⟨hnull, hsub⟩
  · exact rule_of_null hnull (Option.some.inj hsub)
  rcases ite_eq_iff.mp hsub with ⟨hclass, hsub⟩ | ⟨hclass, hsub⟩
  · exact rule_of_class hclass hsub
  rcases ite_eq_iff.mp hsub with ⟨hclassTrait, hsub⟩ | ⟨hclassTrait, hsub⟩
  · obtain ⟨cap, hcap, hsub⟩ := Option.bind_eq_some_iff.mp hsub
    exact rule_of_classTrait hclassTrait hcap hsub
  rcases ite_eq_iff.mp hsub with ⟨hclassCap, hsub⟩ | ⟨hclassCap, hsub⟩
  · obtain ⟨cap, hcap, hsub⟩ := Option.bind_eq_some_iff.mp hsub
    exact rule_of_classCapability hempty2 hclassTrait hclassCap hcap hsub
  rcases ite_eq_iff.mp hsub with ⟨htuple, hsub⟩ | ⟨htuple, hsub⟩
  · obtain ⟨_, hargs, hsub⟩ := Option.bind_eq_some_iff.mp hsub
    exact rule_of_tuple htuple hargs (Option.some.inj hsub)
  rcases ite_eq_iff.mp hsub with ⟨htrait, hsub⟩ | ⟨htrait, hsub⟩
  · obtain ⟨_, hsub, hand⟩ := Option.map_eq_some_iff.mp hsub
    obtain ⟨hmode, rfl⟩ := Bool.and_eq_true_iff.mp hand
    exact rule_of_trait htrait hmode hsub
  rcases ite_eq_iff.mp hsub with ⟨htraitCap, hsub⟩ | ⟨htraitCap, hsub⟩
  · exact rule_of_traitCapability hempty2 htrait htraitCap hsub
  rcases ite_eq_iff.mp hsub with ⟨hcapTrait, hsub⟩ | ⟨hcapTrait, hsub⟩
  · exact rule_of_capabilityTrait hempty1 htrait hcapTrait hsub
  rcases ite_eq_iff.mp hsub with ⟨hcap, hsub⟩ | ⟨hcap, hsub⟩
  · exact rule_of_capability hempty1 hempty2 htraitCap hcapTrait hcap hsub
  rcases ite_eq_iff.mp hsub with ⟨hbottom, hsub⟩ | ⟨hbottom, hsub⟩
  · obtain ⟨hbottom1, hbottom2⟩ := Bool.and_eq_true_iff.mp hbottom
    obtain ⟨b1, s1, rfl⟩ := isBottomType_iff.mp hbottom1
    exact .bottom (Bool.not_eq_true' _ ▸ hbottom2)
  rcases ite_eq_iff.mp hsub with ⟨hnumeric, hsub⟩ | ⟨hnumeric, hsub⟩
  · exact rule_of_numeric hnumeric (Option.some.inj hsub)
  have heq := Option.some.inj hsub
  exact rule_of_eq heq (leaf_of_eq heq hempty1 (by simpa using hresult) (by simpa using hclass)
    (by simpa using htuple) (by simpa using hcap))

end Lfmr.Types
