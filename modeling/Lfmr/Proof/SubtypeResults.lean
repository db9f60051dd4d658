import Mathlib.Data.List.Nodup
import Mathlib.Tactic.Common
import Lfmr.Proof.SubtypeRules
import Lfmr.Proof.TypeSubstitution

/-!
# Where `subtypeOf` always has a result

If the classes in two types implement traits without parameters only, looking up the traits of a class does
not lead to new types to compare. If moreover all capabilities are made of traits, `subtypeOf` has a result, and
it is true exactly if a rule applies.
-/

namespace Lfmr.Types

open Ty

variable {env : Environment} {nulls : Bool} {ty ty1 ty2 ty3 t piece : Ty}

namespace Ty

def parts (ty : Ty) : List Ty := ty.inner.parts

theorem listComponents_eq (tys : List Ty) : listComponents tys = tys.flatMap typeComponents := by
  induction tys with
  | nil => rfl
  | cons ty tys ih => rw [listComponents, ih, List.flatMap_cons]

theorem typeComponents_eq (ty : Ty) : typeComponents ty = ty :: (parts ty).flatMap typeComponents := by
  obtain ⟨inner, box, restricted⟩ := ty
  rw [typeComponents]
  cases inner <;> simp [innerComponents, parts, inner, InnerType.parts, listComponents_eq]

theorem mem_typeComponents_self (ty : Ty) : ty ∈ typeComponents ty := by
  rw [typeComponents_eq]
  exact List.mem_cons_self

theorem typeComponents_subset (hpart : piece ∈ parts ty) : typeComponents piece ⊆ typeComponents ty := by
  intro c hc
  rw [typeComponents_eq ty]
  exact List.mem_cons_of_mem _ (List.mem_flatMap.mpr ⟨piece, hpart, hc⟩)

theorem mem_parts_of_mem_getArgTypes (ht : t ∈ ty.getArgTypes) : t ∈ parts ty := by
  obtain ⟨inner, b, s⟩ := ty
  cases inner with
  | arrow args r => exact List.mem_append_left _ ht
  | tuple args => exact ht
  | _ => exact absurd ht List.not_mem_nil

theorem mem_parts_of_mem_getTypeParameters (ht : t ∈ ty.getTypeParameters) : t ∈ parts ty := by
  obtain ⟨inner, b, s⟩ := ty
  cases inner with
  | trait info | clazz info a => exact ht
  | _ => exact absurd ht List.not_mem_nil

theorem getResultType_mem_parts (hresult : hasResultType ty = true) : ty.getResultType ∈ parts ty := by
  obtain ⟨inner, b, s⟩ := ty
  cases inner with
  | arrow args r => exact List.mem_append_right _ List.mem_cons_self
  | container kind r => exact List.mem_cons_self
  | _ => exact absurd hresult Bool.false_ne_true

theorem hasResultType_of_isArrowType (harrow : isArrowType ty = true) : hasResultType ty = true := by
  obtain ⟨args, r, b, s, rfl⟩ := isArrowType_iff.mp harrow
  rfl

def size (ty : Ty) : Nat := (typeComponents ty).length

theorem size_lt_of_mem_parts (hpart : piece ∈ parts ty) : piece.size < ty.size := by
  rw [size, size, typeComponents_eq ty, List.length_cons, Nat.lt_succ_iff, List.flatMap_def]
  exact (List.sublist_flatten_of_mem (List.mem_map_of_mem hpart)).length_le

theorem typesFromCapability_spec (ht : t ∈ typesFromCapability ty) :
    typeComponents t ⊆ typeComponents ty ∧ t.size ≤ ty.size := by
  induction ty using typesFromCapability.induct with
  | case1 op l r b s ihl ihr =>
    rw [typesFromCapability, List.mem_append] at ht
    have hl : l ∈ parts (mk (.capability op l r) b s) := List.mem_cons_self
    have hr : r ∈ parts (mk (.capability op l r) b s) := List.mem_cons_of_mem _ List.mem_cons_self
    rcases ht with ht | ht
    · obtain ⟨hsub, hle⟩ := ihl ht
      exact ⟨List.Subset.trans hsub (typeComponents_subset hl), Nat.le_trans hle (Nat.le_of_lt (size_lt_of_mem_parts hl))⟩
    · obtain ⟨hsub, hle⟩ := ihr ht
      exact ⟨List.Subset.trans hsub (typeComponents_subset hr), Nat.le_trans hle (Nat.le_of_lt (size_lt_of_mem_parts hr))⟩
  | case2 b s => simp [typesFromCapability] at ht
  | case3 ty hcap hempty =>
    have hself : typesFromCapability ty = [ty] := by
      rw [typesFromCapability]
      · exact hcap
      · exact hempty
    rw [hself, List.mem_singleton] at ht
    subst ht
    exact ⟨List.Subset.refl _, Nat.le_refl _⟩

theorem size_lt_of_mem_capability {op : TypeOp} {l r : Ty} {b : Option Box} {s : List RestrictedField}
    (ht : t ∈ typesFromCapability (mk (.capability op l r) b s)) : t.size < (mk (.capability op l r) b s).size := by
  rw [typesFromCapability, List.mem_append] at ht
  rcases ht with ht | ht
  · exact Nat.lt_of_le_of_lt (typesFromCapability_spec ht).2 (size_lt_of_mem_parts List.mem_cons_self)
  · exact Nat.lt_of_le_of_lt (typesFromCapability_spec ht).2
      (size_lt_of_mem_parts (List.mem_cons_of_mem _ List.mem_cons_self))

end Ty

/-! ### Types in which nothing goes wrong -/

structure ClassDecl.Paramless (cls : ClassDecl) : Prop where
  formals : ∀ p ∈ cls.cname.getTypeParameters, isTypeVar p = true
  traits : ∀ t ∈ typesFromCapability cls.ccapability, isTraitType t = true ∧ t.getTypeParameters = []

/-- A class is in the table and implements traits without parameters, and the traits of a capability have
different names. A capability that is not a trait and the null type do not go together. -/
def Regular (env : Environment) (nulls : Bool) : Ty → Prop
  | mk (.clazz info _) _ _ => ∃ cls, env.classLookup info.refId = some cls ∧ cls.Paramless
  | mk (.capability op l r) b s => nulls = false ∧
      (∀ t ∈ typesFromCapability (mk (.capability op l r) b s), isTraitType t = true) ∧
      ((typesFromCapability (mk (.capability op l r) b s)).map getId).Nodup
  | mk .emptyCapability _ _ => False
  | mk (.basic .null) _ _ => nulls = true
  | _ => True

def Plain (env : Environment) (nulls : Bool) (ty : Ty) : Prop :=
  ∀ c ∈ typeComponents ty, Regular env nulls c

section

variable (hplain : Plain env nulls ty)
include hplain

theorem Plain.regular : Regular env nulls ty :=
  hplain ty (mem_typeComponents_self ty)

theorem Plain.part (hpart : piece ∈ parts ty) : Plain env nulls piece :=
  fun c hc => hplain c (typeComponents_subset hpart hc)

theorem Plain.of_mem_capability (ht : t ∈ typesFromCapability ty) : Plain env nulls t :=
  fun c hc => hplain c ((typesFromCapability_spec ht).1 hc)

theorem Plain.inner_ne : ty.inner ≠ .emptyCapability := by
  obtain ⟨inner, box, restricted⟩ := ty
  rintro rfl
  exact hplain.regular

theorem Plain.typesFromCapability_ne_nil : typesFromCapability ty ≠ [] := by
  induction ty using typesFromCapability.induct with
  | case1 op l r b s ihl ihr =>
    rw [typesFromCapability]
    exact List.append_ne_nil_of_left_ne_nil (ihl (hplain.part List.mem_cons_self)) _
  | case2 b s => exact absurd rfl hplain.inner_ne
  | case3 ty hcap hempty =>
    rw [typesFromCapability]
    · exact List.cons_ne_nil _ _
    · exact hcap
    · exact hempty

end

theorem Plain.two_traits {op : TypeOp} {l r : Ty} {b : Option Box} {s : List RestrictedField}
    (hplain : Plain env nulls (mk (.capability op l r) b s)) :
    ∃ t1 ∈ typesFromCapability (mk (.capability op l r) b s),
      ∃ t2 ∈ typesFromCapability (mk (.capability op l r) b s), t1.getId ≠ t2.getId := by
  obtain ⟨t1, h1⟩ := List.exists_mem_of_ne_nil _ (hplain.part List.mem_cons_self).typesFromCapability_ne_nil
  obtain ⟨t2, h2⟩ := List.exists_mem_of_ne_nil _
    (hplain.part (List.mem_cons_of_mem _ List.mem_cons_self)).typesFromCapability_ne_nil
  obtain ⟨-, -, hnodup⟩ := hplain.regular
  rw [typesFromCapability, List.map_append, List.nodup_append] at hnodup
  refine ⟨t1, ?_, t2, ?_, hnodup.2.2 _ (List.mem_map_of_mem h1) _ (List.mem_map_of_mem h2)⟩
  · exact List.mem_append_left _ h1
  · exact List.mem_append_right _ h2

/-! ### Classes that implement traits without parameters -/

theorem lookup_eq_none {bindings : List (Ty × Ty)} (hkeys : ∀ binding ∈ bindings, isTypeVar binding.1 = true)
    (hvar : isTypeVar ty = false) : lookup ty bindings = none := by
  rw [lookup, Option.map_eq_none_iff, List.find?_eq_none]
  intro binding hbinding heq
  obtain ⟨⟨inner, b, s⟩, actual⟩ := binding
  have hkey := hkeys _ hbinding
  obtain ⟨inner', b', s'⟩ := ty
  obtain ⟨hinner, -⟩ := Bool.and_eq_true_iff.mp heq
  cases inner <;> simp only [isTypeVar, reduceCtorEq] at hkey
  cases inner' <;> simp_all [isTypeVar, eqInner, Ty.inner]

theorem replaceTypeVars_eq_self (bindings : List (Ty × Ty))
    (hkeys : ∀ binding ∈ bindings, isTypeVar binding.1 = true) {cap : Ty}
    (htraits : ∀ t ∈ typesFromCapability cap, isTraitType t = true ∧ t.getTypeParameters = []) :
    replaceTypeVars bindings cap = cap := by
  induction cap using typesFromCapability.induct with
  | case1 op l r b s ihl ihr =>
    rw [typesFromCapability] at htraits
    have hl := ihl fun t ht => htraits t (List.mem_append_left _ ht)
    have hr := ihr fun t ht => htraits t (List.mem_append_right _ ht)
    rw [replaceTypeVars] at hl hr ⊢
    rw [typeMap, innerMap, hl, hr, lookup_eq_none hkeys rfl]
    rfl
  | case2 b s =>
    rw [replaceTypeVars, typeMap, innerMap, lookup_eq_none hkeys rfl]
    · rfl
    all_goals simp
  | case3 ty hcap hempty =>
    have hself : typesFromCapability ty = [ty] := by
      rw [typesFromCapability]
      · exact hcap
      · exact hempty
    obtain ⟨htrait, hparams⟩ := htraits ty (hself ▸ List.mem_singleton_self ty)
    obtain ⟨⟨refId, parameters, mode⟩, b, s, rfl⟩ := isTraitType_iff.mp htrait
    obtain rfl : parameters = [] := hparams
    rw [replaceTypeVars, typeMap, innerMap, listMap, lookup_eq_none hkeys rfl]
    rfl

theorem ClassDecl.Paramless.capabilityLookup_eq {cls : ClassDecl} (hparamless : cls.Paramless) {info : RefInfo Ty}
    {a : Activity} {b : Option Box} {s : List RestrictedField} (hcls : env.classLookup info.refId = some cls) :
    env.capabilityLookup (Ty.mk (.clazz info a) b s) = some cls.ccapability := by
  have hself := replaceTypeVars_eq_self (Environment.formalBindings cls.cname (Ty.mk (.clazz info a) b s))
    (fun binding hbinding => hparamless.formals _ (List.of_mem_zip hbinding).1) hparamless.traits
  simp [Environment.capabilityLookup, getId, refInfo, hcls, hself]

/-! ### There is always a result -/

section Results

variable {sub : Ty → Ty → Option Bool}

theorem isSome_ite {p : Prop} [Decidable p] {first second : Option Bool} (hfirst : p → first.isSome)
    (hsecond : ¬ p → second.isSome) : (if p then first else second).isSome := by
  by_cases hp : p
  · rw [if_pos hp]
    exact hfirst hp
  · rw [if_neg hp]
    exact hsecond hp

theorem isSome_bind {first : Option Bool} {rest : Bool → Option Bool} (hfirst : first.isSome)
    (hrest : ∀ b, (rest b).isSome) : (first >>= rest).isSome := by
  obtain ⟨b, rfl⟩ := Option.isSome_iff_exists.mp hfirst
  exact hrest b

theorem isSome_map {first : Option Bool} {f : Bool → Bool} (hfirst : first.isSome) : (f <$> first).isSome := by
  obtain ⟨b, rfl⟩ := Option.isSome_iff_exists.mp hfirst
  rfl

theorem isSome_refSubtypeOf (hparams : ∀ pair ∈ ty1.getTypeParameters.zip ty2.getTypeParameters,
    (sub pair.1 pair.2).isSome) : (refSubtypeOf sub ty1 ty2).isSome :=
  isSome_ite (fun _ => isSome_bind (isSome_zipAllM hparams) fun _ => rfl) fun _ => rfl

theorem isSome_capabilitySubtypeOf (htraits : ∀ t2 ∈ typesFromCapability ty2, ∀ t1 ∈ typesFromCapability ty1,
    (sub t1 t2).isSome) : (capabilitySubtypeOf sub ty1 ty2).isSome :=
  isSome_bind (isSome_foldlM _ fun t2 ht2 => isSome_foldlM _ (htraits t2 ht2)) fun _ => rfl

end Results

theorem isSome_decides_paramless (htrait1 : isTraitType ty1 = true) (hparams : ty1.getTypeParameters = [])
    (htrait2 : isTraitType ty2 = true) : (decides env ty1 ty2).isSome := by
  obtain ⟨info1, b1, s1, rfl⟩ := isTraitType_iff.mp htrait1
  obtain ⟨info2, b2, s2, rfl⟩ := isTraitType_iff.mp htrait2
  rw [decides_eq]
  have hsome : (refSubtypeOf (decides env) (mk (.trait info1) b1 s1) (mk (.trait info2) b2 s2)).isSome :=
    isSome_refSubtypeOf (by simp [hparams])
  exact isSome_map hsome

theorem Plain.traits_of_capability (hplain : Plain env nulls ty) (hcap : isCapabilityType ty = true)
    (ht : t ∈ typesFromCapability ty) : isTraitType t = true := by
  obtain ⟨inner, b, s⟩ := ty
  cases inner <;> simp only [isCapabilityType, reduceCtorEq] at hcap
  · rw [typesFromCapability, List.mem_singleton] at ht
    · rw [ht]
      rfl
    all_goals simp
  · exact hplain.regular.2.1 t ht
  · exact absurd rfl hplain.inner_ne

theorem Plain.size_lt_of_mem (hplain : Plain env nulls ty) (hcap : isCapabilityType ty = true)
    (htrait : isTraitType ty = false) (ht : t ∈ typesFromCapability ty) : t.size < ty.size := by
  obtain ⟨op, l, r, b, s, rfl⟩ := (isCapabilityType_iff htrait hplain.inner_ne).mp hcap
  exact size_lt_of_mem_capability ht

theorem Plain.exists_capability (hplain : Plain env nulls ty)
    (hclass : isClassType ty = true) : ∃ cap, env.capabilityLookup ty = some cap ∧
      ∀ t ∈ typesFromCapability cap, isTraitType t = true ∧ t.getTypeParameters = [] := by
  obtain ⟨info, a, b, s, rfl⟩ := isClassType_iff.mp hclass
  obtain ⟨cls, hcls, hparamless⟩ := hplain.regular
  exact ⟨cls.ccapability, hparamless.capabilityLookup_eq hcls, hparamless.traits⟩

theorem decides_isSome (hplain1 : Plain env nulls ty1)
    (hplain2 : Plain env nulls ty2) : (decides env ty1 ty2).isSome := by
  induction hn : ty1.size + ty2.size using Nat.strongRecOn generalizing ty1 ty2 with
  | ind n ih =>
  subst hn
  -- Calls for parts of both types.
  have hparts : ∀ {a b}, a ∈ parts ty1 → b ∈ parts ty2 → (decides env a b).isSome := fun ha hb =>
    ih _ (Nat.add_lt_add (size_lt_of_mem_parts ha) (size_lt_of_mem_parts hb)) (hplain1.part ha) (hplain2.part hb) rfl
  have hpartsBack : ∀ {a b}, a ∈ parts ty1 → b ∈ parts ty2 → (decides env b a).isSome := by
    intro a b ha hb
    have hlt := Nat.add_lt_add (size_lt_of_mem_parts hb) (size_lt_of_mem_parts ha)
    exact ih _ (by omega) (hplain2.part hb) (hplain1.part ha) rfl
  rw [decides_eq, subtypeStep]
  refine isSome_ite (fun harrow => ?_) fun _ => isSome_ite (fun hresult => ?_) fun _ =>
    isSome_ite (fun _ => rfl) fun _ => isSome_ite (fun hclass => ?_) fun _ =>
    isSome_ite (fun hclassTrait => ?_) fun _ => isSome_ite (fun hclassCap => ?_) fun _ =>
    isSome_ite (fun htuple => ?_) fun _ => isSome_ite (fun htrait => ?_) fun hnotTrait =>
    isSome_ite (fun htraitCap => ?_) fun hnotTraitCap => isSome_ite (fun hcapTrait => ?_) fun hnotCapTrait =>
    isSome_ite (fun hcap => ?_) fun _ => isSome_ite (fun _ => rfl) fun _ => isSome_ite (fun _ => rfl) fun _ => rfl
  · obtain ⟨h1, h2⟩ := (Bool.and_eq_true_iff.mp harrow).imp hasResultType_of_isArrowType hasResultType_of_isArrowType
    refine isSome_bind (isSome_zipAllM fun pair hpair => ?_) fun _ => isSome_bind ?_ fun _ => rfl
    · obtain ⟨h2, h1⟩ := List.of_mem_zip hpair
      exact hpartsBack (mem_parts_of_mem_getArgTypes h1) (mem_parts_of_mem_getArgTypes h2)
    · exact hparts (getResultType_mem_parts h1) (getResultType_mem_parts h2)
  · obtain ⟨h1, h2⟩ := Bool.and_eq_true_iff.mp hresult
    exact isSome_map (hparts (getResultType_mem_parts h1) (getResultType_mem_parts h2))
  · refine isSome_refSubtypeOf fun pair hpair => ?_
    obtain ⟨h1, h2⟩ := List.of_mem_zip hpair
    exact hparts (mem_parts_of_mem_getTypeParameters h1) (mem_parts_of_mem_getTypeParameters h2)
  · obtain ⟨hclass1, htrait2⟩ := Bool.and_eq_true_iff.mp hclassTrait
    obtain ⟨cap, hcap, htraits⟩ := hplain1.exists_capability hclass1
    rw [hcap]
    refine isSome_foldlM _ fun t ht => ?_
    obtain ⟨htrait, hparams⟩ := htraits t ht
    exact isSome_decides_paramless htrait hparams htrait2
  · obtain ⟨hclass1, hcap2⟩ := Bool.and_eq_true_iff.mp hclassCap
    obtain ⟨cap, hcap, htraits⟩ := hplain1.exists_capability hclass1
    rw [hcap]
    refine isSome_capabilitySubtypeOf fun t2 ht2 t1 ht1 => ?_
    obtain ⟨htrait, hparams⟩ := htraits t1 ht1
    exact isSome_decides_paramless htrait hparams (hplain2.traits_of_capability hcap2 ht2)
  · refine isSome_bind (isSome_zipAllM fun pair hpair => ?_) fun _ => rfl
    obtain ⟨h1, h2⟩ := List.of_mem_zip hpair
    exact hparts (mem_parts_of_mem_getArgTypes h1) (mem_parts_of_mem_getArgTypes h2)
  · refine isSome_map (isSome_refSubtypeOf fun pair hpair => ?_)
    obtain ⟨h1, h2⟩ := List.of_mem_zip hpair
    exact hparts (mem_parts_of_mem_getTypeParameters h1) (mem_parts_of_mem_getTypeParameters h2)
  · obtain ⟨htrait1, hcap2⟩ := Bool.and_eq_true_iff.mp htraitCap
    have htrait2 : isTraitType ty2 = false := by simpa [htrait1] using hnotTrait
    refine isSome_foldlM _ fun t ht => ih _ ?_ hplain1 (hplain2.of_mem_capability ht) rfl
    exact Nat.add_lt_add_left (hplain2.size_lt_of_mem hcap2 htrait2 ht) _
  · obtain ⟨hcap1, htrait2⟩ := Bool.and_eq_true_iff.mp hcapTrait
    have htrait1 : isTraitType ty1 = false := by simpa [htrait2] using hnotTrait
    refine isSome_foldlM _ fun t ht => ih _ ?_ (hplain1.of_mem_capability ht) hplain2 rfl
    exact Nat.add_lt_add_right (hplain1.size_lt_of_mem hcap1 htrait1 ht) _
  · obtain ⟨hcap1, hcap2⟩ := Bool.and_eq_true_iff.mp hcap
    have htrait1 : isTraitType ty1 = false := by simpa [hcap2] using hnotTraitCap
    have htrait2 : isTraitType ty2 = false := by simpa [hcap1] using hnotCapTrait
    refine isSome_capabilitySubtypeOf fun t2 ht2 t1 ht1 =>
      ih _ ?_ (hplain1.of_mem_capability ht1) (hplain2.of_mem_capability ht2) rfl
    exact Nat.add_lt_add (hplain1.size_lt_of_mem hcap1 htrait1 ht1) (hplain2.size_lt_of_mem hcap2 htrait2 ht2)

/-! ### The rules are what is decided -/

def Decided (env : Environment) (ty1 ty2 : Ty) : Prop := decides env ty1 ty2 = some true

theorem eq_of_inner {inner : InnerType Ty} {b1 b2 : Option Box} {s1 s2 : List RestrictedField}
    (hinner : eqInner inner inner = true) (hrestricted : s1.Perm s2) : (mk inner b1 s1 == mk inner b2 s2) = true :=
  Bool.and_eq_true_iff.mpr ⟨hinner, List.isPerm_iff.mpr hrestricted⟩

theorem numericSubtypeOf_of_eq (heq : (ty1 == ty2) = true) : numericSubtypeOf ty1 ty2 = true := by
  rw [numericSubtypeOf]
  split_ifs
  · rfl
  · exact heq

theorem subtypeStep_basic {sub : Ty → Ty → Option Bool} {kind : Basic} {b1 b2 : Option Box}
    {s1 s2 : List RestrictedField} (hrestricted : s1.Perm s2) :
    subtypeStep env sub (mk (.basic kind) b1 s1) (mk (.basic kind) b2 s2) = some true := by
  have heq : (mk (.basic kind) b1 s1 == mk (.basic kind) b2 s2) = true :=
    eq_of_inner (beq_self_eq_true kind) hrestricted
  -- Only null is treated before numbers, and what follows is equality.
  change (if isNullType (mk (.basic kind) b1 s1) = true then some (isNullType (mk (.basic kind) b2 s2) || false)
    else if (isBottomType (mk (.basic kind) b1 s1) && !isBottomType (mk (.basic kind) b2 s2)) = true then some true
    else if (isNumeric (mk (.basic kind) b1 s1) && isNumeric (mk (.basic kind) b2 s2)) = true then
      some (numericSubtypeOf (mk (.basic kind) b1 s1) (mk (.basic kind) b2 s2))
    else some (mk (.basic kind) b1 s1 == mk (.basic kind) b2 s2)) = some true
  split_ifs with hnull
  · obtain ⟨b, hty⟩ := isBasic_iff.mp hnull
    cases hty
    obtain rfl := hrestricted.symm.eq_nil
    rfl
  · rfl
  · exact congrArg some (numericSubtypeOf_of_eq heq)
  · exact congrArg some heq

theorem decided_of_rule (hplain1 : Plain env nulls ty1)
    (hplain2 : Plain env nulls ty2) (hrule : Rule env (Decided env) ty1 ty2) : Decided env ty1 ty2 := by
  rw [Decided, decides_eq]
  cases hrule with
  | arrow hlength hargs hresult =>
    refine Option.bind_eq_some_iff.mpr ⟨true, zipAllM_eq_true.mpr hargs, ?_⟩
    refine Option.bind_eq_some_iff.mpr ⟨true, hresult, ?_⟩
    simp [getArgTypes, hlength]
  | container hkind hresult =>
    refine Option.map_eq_some_iff.mpr ⟨true, hresult, ?_⟩
    rw [hasSameKind, if_pos rfl, hkind]
    rfl
  | tuple hlength hargs =>
    refine Option.bind_eq_some_iff.mpr ⟨true, zipAllM_eq_true.mpr hargs, ?_⟩
    simp [getArgTypes, hlength]
  | clazz hid hlength hparams hbox =>
    exact refSubtypeOf_eq_true.mpr ⟨congrArg some hid, hlength, hparams, hbox⟩
  | trait hmode hid hlength hparams hbox =>
    refine Option.map_eq_some_iff.mpr ⟨true, refSubtypeOf_eq_true.mpr ⟨congrArg some hid, hlength, hparams, hbox⟩, ?_⟩
    rw [Bool.and_true]
    exact beq_iff_eq.mpr hmode
  | classTrait hcap ht hsub =>
    refine Option.bind_eq_some_iff.mpr ⟨_, hcap, anyM_eq_true.mpr ⟨fun t ht => ?_, _, ht, hsub⟩⟩
    obtain ⟨cap, hcap', htraits⟩ := hplain1.exists_capability rfl
    obtain rfl := Option.some.inj (hcap.symm.trans hcap')
    obtain ⟨htrait, hparams⟩ := htraits t ht
    exact isSome_decides_paramless htrait hparams rfl
  | classCapability hcap hconj hsub =>
    refine Option.bind_eq_some_iff.mpr ⟨_, hcap, capabilitySubtypeOf_eq_true.mpr ⟨hconj, fun t2 ht2 =>
      ⟨fun t1 ht1 => ?_, hsub t2 ht2⟩⟩⟩
    obtain ⟨cap, hcap', htraits⟩ := hplain1.exists_capability rfl
    obtain rfl := Option.some.inj (hcap.symm.trans hcap')
    obtain ⟨htrait, hparams⟩ := htraits t1 ht1
    exact isSome_decides_paramless htrait hparams (hplain2.traits_of_capability rfl ht2)
  | traitCapability hsub => exact allM_eq_true.mpr hsub
  | capabilityTrait ht hsub =>
    exact anyM_eq_true.mpr ⟨fun t ht => decides_isSome (hplain1.of_mem_capability ht) hplain2, _, ht, hsub⟩
  | capability hconj hsub =>
    exact capabilitySubtypeOf_eq_true.mpr ⟨hconj, fun t2 ht2 => ⟨fun t1 ht1 =>
      decides_isSome (hplain1.of_mem_capability ht1) (hplain2.of_mem_capability ht2), hsub t2 ht2⟩⟩
  | typeVar hrestricted | ctype hrestricted => exact congrArg some (eq_of_inner (beq_self_eq_true _) hrestricted)
  | basic hrestricted => exact subtypeStep_basic hrestricted
  | intReal | nullTrait | nullClass => rfl
  | bottom hty2 =>
    change (if (true && !isBottomType ty2) = true then some true else _) = some true
    rw [hty2]
    rfl

end Lfmr.Types
