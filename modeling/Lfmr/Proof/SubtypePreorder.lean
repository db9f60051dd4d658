import Lfmr.Proof.SubtypeResults

/-!
# Where subtyping is a preorder

For types without the constellations in which it goes wrong, `subtypeOf` is transitive, and is reflexive for the
types that `hasSameKind` takes to be of one kind with themselves.
-/

namespace Lfmr.Types

open List Ty Lfmr.Collections

variable {env : Environment} {nulls : Bool} {ty ty1 ty2 ty3 t : Ty}

/-! ### Equality and conjunctions -/

namespace Ty

theorem eqList_iff {tys tys' : List Ty} :
    eqList tys tys' = true ↔ Forall₂ (fun ty ty' => eqTy ty ty' = true) tys tys' := by
  induction tys generalizing tys' with
  | nil => cases tys' <;> simp [eqList]
  | cons ty tys ih =>
    cases tys' with
    | nil => simp [eqList]
    | cons ty' tys' => simp [eqList, ih]

theorem eqInner_iff {inner inner' : InnerType Ty} : eqInner inner inner' = true ↔
    inner.shape = inner'.shape ∧ Forall₂ (fun ty ty' => eqTy ty ty' = true) inner.parts inner'.parts := by
  have hlength : ∀ {tys tys' : List Ty}, Forall₂ (fun ty ty' => eqTy ty ty' = true) tys tys' →
      tys.length = tys'.length := Forall₂.length_eq
  cases inner <;> cases inner'
  all_goals simp [eqInner, eqList_iff, InnerType.shape, InnerType.map, InnerType.parts, RefInfo.map]
  all_goals grind [forall₂_concat]

theorem partwise_eqTy : Partwise (fun ty ty' : Ty => eqTy ty ty' = true)
    (fun ty ty' => ty.inner.shape = ty'.inner.shape ∧ ty.restricted.Perm ty'.restricted) parts size where
  root := ⟨fun _ => ⟨rfl, .refl _⟩, fun h => ⟨h.1.symm, h.2.symm⟩, fun h h' => ⟨h.1.trans h'.1, h.2.trans h'.2⟩⟩
  smaller := size_lt_of_mem_parts
  same_iff {ty ty'} := by
    obtain ⟨inner, box, restricted⟩ := ty
    rw [eqTy, Bool.and_eq_true, isPerm_iff, eqInner_iff, and_right_comm]
    rfl

end Ty

theorem contains_trans {tys1 tys2 : List Ty} (hsub : ∀ t ∈ tys2, tys1.contains t = true)
    (ht : tys2.contains ty = true) : tys1.contains ty = true := by
  rw [contains_iff_exists_mem_beq] at ht ⊢
  obtain ⟨t2, ht2, heq⟩ := ht
  obtain ⟨t1, ht1, heq'⟩ := contains_iff_exists_mem_beq.mp (hsub t2 ht2)
  exact ⟨t1, ht1, partwise_eqTy.equivalence.trans heq heq'⟩

theorem contains_self {tys : List Ty} (ht : t ∈ tys) : tys.contains t = true :=
  contains_iff_exists_mem_beq.mpr ⟨t, ht, partwise_eqTy.equivalence.refl t⟩

theorem separates_iff {left right : List Ty} {pair : List Ty × List Ty} : separates left right pair = true ↔
    ((∀ t ∈ left, pair.1.contains t = true) ∧ ∀ t ∈ right, pair.2.contains t = true) ∨
      (∀ t ∈ right, pair.1.contains t = true) ∧ ∀ t ∈ left, pair.2.contains t = true := by
  simp only [separates, Bool.or_eq_true, Bool.and_eq_true, all_eq_true]

theorem separates_trans {left right : List Ty} {pair pair' : List Ty × List Ty}
    (hfirst : separates left right pair = true) (hsecond : separates pair.1 pair.2 pair' = true) :
    separates left right pair' = true := by
  rw [separates_iff] at hfirst hsecond ⊢
  rcases hfirst with ⟨hl, hr⟩ | ⟨hr, hl⟩ <;> rcases hsecond with ⟨hl', hr'⟩ | ⟨hr', hl'⟩
  · exact .inl ⟨fun t ht => contains_trans hl' (hl t ht), fun t ht => contains_trans hr' (hr t ht)⟩
  · exact .inr ⟨fun t ht => contains_trans hr' (hr t ht), fun t ht => contains_trans hl' (hl t ht)⟩
  · exact .inr ⟨fun t ht => contains_trans hl' (hr t ht), fun t ht => contains_trans hr' (hl t ht)⟩
  · exact .inl ⟨fun t ht => contains_trans hr' (hl t ht), fun t ht => contains_trans hl' (hr t ht)⟩

theorem preservesConjunctionsOf_iff : preservesConjunctionsOf ty1 ty2 = true ↔
    ∀ pair ∈ conjunctiveTypesFromCapability ty2,
      ∃ pair' ∈ conjunctiveTypesFromCapability ty1, separates pair.1 pair.2 pair' = true := by
  simp only [preservesConjunctionsOf, all_eq_true, any_eq_true]

theorem preservesConjunctionsOf_trans (hfirst : preservesConjunctionsOf ty1 ty2 = true)
    (hsecond : preservesConjunctionsOf ty2 ty3 = true) : preservesConjunctionsOf ty1 ty3 = true := by
  rw [preservesConjunctionsOf_iff] at hfirst hsecond ⊢
  intro pair hpair
  obtain ⟨pair2, hpair2, hseparates⟩ := hsecond pair hpair
  obtain ⟨pair1, hpair1, hseparates'⟩ := hfirst pair2 hpair2
  exact ⟨pair1, hpair1, separates_trans hseparates hseparates'⟩

theorem preservesConjunctionsOf_refl (ty : Ty) : preservesConjunctionsOf ty ty = true :=
  preservesConjunctionsOf_iff.mpr fun pair hpair =>
    ⟨pair, hpair, separates_iff.mpr (.inl ⟨fun _ => contains_self, fun _ => contains_self⟩)⟩

/-! ### Transitivity -/

theorem rule_of_decided (hplain1 : Plain env nulls ty1) (hplain2 : Plain env nulls ty2)
    (hsub : Decided env ty1 ty2) : Rule env (Decided env) ty1 ty2 :=
  rule_of_decides hplain1.inner_ne hplain2.inner_ne hsub

theorem not_rule_traitCapability {info : RefInfo Ty} {op : TypeOp} {l r : Ty} {b1 b2 : Option Box}
    {s1 s2 : List RestrictedField} (hplain1 : Plain env nulls (mk (.trait info) b1 s1))
    (hplain2 : Plain env nulls (mk (.capability op l r) b2 s2))
    (hsub : ∀ t ∈ typesFromCapability (mk (.capability op l r) b2 s2), Decided env (mk (.trait info) b1 s1) t) :
    False := by
  have hid : ∀ t ∈ typesFromCapability (mk (.capability op l r) b2 s2), t.getId = some info.refId := by
    intro t ht
    obtain ⟨info', b', s', rfl⟩ := isTraitType_iff.mp (hplain2.regular.2.1 t ht)
    cases rule_of_decided hplain1 (hplain2.of_mem_capability ht) (hsub _ ht) with
    | trait _ hid _ _ _ => exact congrArg some hid.symm
  obtain ⟨t1, ht1, t2, ht2, hne⟩ := hplain2.two_traits
  exact hne ((hid t1 ht1).trans (hid t2 ht2).symm)

variable {s : List RestrictedField}

theorem hasSameKind_basic {kind kind' : Basic} {b b' : Option Box} {s' : List RestrictedField}
    (hkind : kind ≠ .bottom) (hkind' : kind' ≠ .bottom) :
    hasSameKind (mk (.basic kind) b s) (mk (.basic kind') b' s') =
      (isPrimitive (mk (.basic kind) b s) && isPrimitive (mk (.basic kind') b' s')) := by
  have hbottom : isBottomType (mk (.basic kind) b s) = false := by cases kind <;> first | rfl | exact absurd rfl hkind
  have hbottom' : isBottomType (mk (.basic kind') b' s') = false := by
    cases kind' <;> first | rfl | exact absurd rfl hkind'
  rw [hasSameKind, sameKindOutside, hbottom, hbottom']
  · simp [isTupleType, isTypeVar, isRefType, isTraitType, isClassType, isCapabilityType, isArrowType]
  · simp

theorem rule_bottom (hrule : Rule env (Decided env) ty1 ty2) (hbottom : isBottomType ty2 = true) :
    isBottomType ty1 = true := by
  obtain ⟨b, s, rfl⟩ := isBottomType_iff.mp hbottom
  cases hrule <;> rfl

theorem hasSameKind_bottom {b : Option Box} (hty : isBottomType ty = false) :
    hasSameKind (mk (.basic .bottom) b s) ty = true := by
  rw [hasSameKind, sameKindOutside, hty]
  · rfl
  · simp

/-- Kinds go together along two rules, since no trait is a subtype of a capability. -/
theorem hasSameKind_trans (hplain1 : Plain env nulls ty1) (hplain2 : Plain env nulls ty2)
    (hplain3 : Plain env nulls ty3) (hrule : Rule env (Decided env) ty1 ty2)
    (hrule' : Rule env (Decided env) ty2 ty3) (hkind : hasSameKind ty1 ty2 = true)
    (hkind' : hasSameKind ty2 ty3 = true) : hasSameKind ty1 ty3 = true := by
  induction hn : ty2.size using Nat.strongRecOn generalizing ty1 ty2 ty3 with
  | ind n ih =>
  subst hn
  cases hrule with
  | arrow => cases hrule' with | arrow => rfl
  | tuple => cases hrule' with | tuple => rfl
  | container hsame hresult =>
    cases hrule' with
    | container hsame' hresult' =>
      have h1 := hplain1.part mem_cons_self
      have h2 := hplain2.part mem_cons_self
      have h3 := hplain3.part mem_cons_self
      rw [hasSameKind, if_pos rfl]
      exact ih _ (size_lt_of_mem_parts mem_cons_self) h1 h2 h3 (rule_of_decided h1 h2 hresult)
        (rule_of_decided h2 h3 hresult') hsame hsame' rfl
  | clazz =>
    cases hrule' with
    | clazz | classTrait => rfl
    | classCapability => exact hkind'
  | trait =>
    cases hrule' with
    | trait | traitCapability => rfl
  | classTrait =>
    cases hrule' with
    | trait => rfl
    | traitCapability hsub => exact (not_rule_traitCapability hplain2 hplain3 hsub).elim
  | classCapability | ctype | nullTrait | nullClass => exact absurd hkind Bool.false_ne_true
  | traitCapability | capabilityTrait | capability => cases hrule' <;> rfl
  | typeVar => cases hrule' with | typeVar => rfl
  | intReal =>
    cases hrule' with
    | basic =>
      rw [hasSameKind_basic (by decide) (by decide)] at hkind' ⊢
      exact Bool.and_eq_true_iff.mpr ⟨rfl, (Bool.and_eq_true_iff.mp hkind').2⟩
  | @basic kind =>
    have hbottom : kind ≠ .bottom := by
      rintro rfl
      exact absurd hkind Bool.false_ne_true
    cases hrule' with
    | basic =>
      rw [hasSameKind_basic hbottom hbottom] at hkind hkind' ⊢
      exact Bool.and_eq_true_iff.mpr ⟨(Bool.and_eq_true_iff.mp hkind).1, (Bool.and_eq_true_iff.mp hkind').2⟩
    | intReal =>
      rw [hasSameKind_basic (by decide) (by decide)] at hkind ⊢
      exact Bool.and_eq_true_iff.mpr ⟨(Bool.and_eq_true_iff.mp hkind).1, rfl⟩
    | nullTrait | nullClass => exact absurd hkind' Bool.false_ne_true
    | bottom => exact absurd rfl hbottom
  | bottom hty2 =>
    refine hasSameKind_bottom (Bool.eq_false_iff.mpr fun hty3 => ?_)
    rw [rule_bottom hrule' hty3] at hty2
    exact absurd hty2.symm Bool.false_ne_true

theorem zip_trans {R : Ty → Ty → Prop} {tys1 tys2 tys3 : List Ty} (hlength : tys1.length = tys2.length)
    (hfirst : ∀ pair ∈ tys1.zip tys2, R pair.1 pair.2) (hsecond : ∀ pair ∈ tys2.zip tys3, R pair.1 pair.2)
    (htrans : ∀ t1 ∈ tys1, ∀ t2 ∈ tys2, ∀ t3 ∈ tys3, R t1 t2 → R t2 t3 → R t1 t3) :
    ∀ pair ∈ tys1.zip tys3, R pair.1 pair.2 := by
  induction tys1 generalizing tys2 tys3 with
  | nil => simp
  | cons t1 tys1 ih =>
    cases tys2 with
    | nil => simp at hlength
    | cons t2 tys2 =>
      cases tys3 with
      | nil => simp
      | cons t3 tys3 =>
        simp only [zip_cons_cons, forall_mem_cons] at hfirst hsecond ⊢
        refine ⟨htrans t1 (by simp) t2 (by simp) t3 (by simp) hfirst.1 hsecond.1, ?_⟩
        refine ih (by simpa using hlength) hfirst.2 hsecond.2 fun a ha b hb c hc => ?_
        exact htrans a (mem_cons_of_mem _ ha) b (mem_cons_of_mem _ hb) c (mem_cons_of_mem _ hc)

theorem plain_of_paramless (htrait : isTraitType ty = true) (hparams : ty.getTypeParameters = []) :
    Plain env nulls ty := by
  obtain ⟨info, b, s, rfl⟩ := isTraitType_iff.mp htrait
  intro c hc
  rw [typeComponents_eq, show parts (mk (.trait info) b s) = [] from hparams, flatMap_nil, mem_singleton] at hc
  subst hc
  trivial

def TransBelow (env : Environment) (nulls : Bool) (ty : Ty) : Prop :=
  ∀ {ty1 ty2 ty3 : Ty}, ty2.size < ty.size → Plain env nulls ty1 → Plain env nulls ty2 → Plain env nulls ty3 →
    Decided env ty1 ty2 → Decided env ty2 ty3 → Decided env ty1 ty3

theorem TransBelow.zip (htrans : TransBelow env nulls ty2) (hplain1 : Plain env nulls ty1)
    (hplain2 : Plain env nulls ty2) (hplain3 : Plain env nulls ty3) {tys1 tys2 tys3 : List Ty}
    (htys1 : tys1 ⊆ parts ty1) (htys2 : tys2 ⊆ parts ty2) (htys3 : tys3 ⊆ parts ty3)
    (hlength : tys1.length = tys2.length) (hfirst : ∀ pair ∈ tys1.zip tys2, Decided env pair.1 pair.2)
    (hsecond : ∀ pair ∈ tys2.zip tys3, Decided env pair.1 pair.2) :
    ∀ pair ∈ tys1.zip tys3, Decided env pair.1 pair.2 :=
  zip_trans hlength hfirst hsecond fun _ h1 _ h2 _ h3 =>
    htrans (size_lt_of_mem_parts (htys2 h2)) (hplain1.part (htys1 h1)) (hplain2.part (htys2 h2))
      (hplain3.part (htys3 h3))

theorem subsumed_trans (htrans : TransBelow env nulls ty2) {cap : Ty}
    (hplain : ∀ t ∈ typesFromCapability cap, Plain env nulls t) (hplain2 : Plain env nulls ty2)
    (hplain3 : Plain env nulls ty3) (hcap : isCapabilityType ty2 = true) (htrait : isTraitType ty2 = false)
    (hsub : ∀ t2 ∈ typesFromCapability ty2, ∃ t1 ∈ typesFromCapability cap, Decided env t1 t2) {t2 : Ty}
    (ht2 : t2 ∈ typesFromCapability ty2) (hsub' : Decided env t2 ty3) :
    ∃ t1 ∈ typesFromCapability cap, Decided env t1 ty3 := by
  obtain ⟨t1, ht1, hsub⟩ := hsub t2 ht2
  exact ⟨t1, ht1, htrans (hplain2.size_lt_of_mem hcap htrait ht2) (hplain t1 ht1) (hplain2.of_mem_capability ht2)
    hplain3 hsub hsub'⟩

theorem Plain.of_mem_implemented (hplain : Plain env nulls ty)
    (hclass : isClassType ty = true) {cap : Ty} (hcap : env.capabilityLookup ty = some cap)
    (ht : t ∈ typesFromCapability cap) : isTraitType t = true ∧ Plain env nulls t := by
  obtain ⟨cap', hcap', htraits⟩ := hplain.exists_capability hclass
  obtain rfl := Option.some.inj (hcap.symm.trans hcap')
  obtain ⟨htrait, hparams⟩ := htraits t ht
  exact ⟨htrait, plain_of_paramless htrait hparams⟩

theorem Plain.capabilityLookup_congr {info1 info2 : RefInfo Ty}
    {a1 a2 : Activity} {b1 b2 : Option Box} {s1 s2 : List RestrictedField}
    (hplain : Plain env nulls (Ty.mk (.clazz info2 a2) b2 s2)) (hid : info1.refId = info2.refId) :
    env.capabilityLookup (Ty.mk (.clazz info1 a1) b1 s1) = env.capabilityLookup (Ty.mk (.clazz info2 a2) b2 s2) := by
  obtain ⟨cls, hcls, hparamless⟩ := hplain.regular
  rw [hparamless.capabilityLookup_eq (hid ▸ hcls), hparamless.capabilityLookup_eq hcls]

section

variable (htrans : TransBelow env nulls ty2) (hplain1 : Plain env nulls ty1) (hplain2 : Plain env nulls ty2)
  (hplain3 : Plain env nulls ty3)
include htrans hplain1 hplain2 hplain3

theorem rule_trait_trans (htrait1 : isTraitType ty1 = true)
    (htrait2 : isTraitType ty2 = true) (htrait3 : isTraitType ty3 = true) (hsub : Decided env ty1 ty2)
    (hsub' : Decided env ty2 ty3) : Rule env (Decided env) ty1 ty3 := by
  obtain ⟨info1, b1, s1, rfl⟩ := isTraitType_iff.mp htrait1
  obtain ⟨info2, b2, s2, rfl⟩ := isTraitType_iff.mp htrait2
  obtain ⟨info3, b3, s3, rfl⟩ := isTraitType_iff.mp htrait3
  cases rule_of_decided hplain1 hplain2 hsub with
  | trait hmode hid hlength hparams hbox =>
    cases rule_of_decided hplain2 hplain3 hsub' with
    | trait hmode' hid' hlength' hparams' hbox' =>
      refine .trait (hmode.trans hmode') (hid.trans hid') (hlength.trans hlength') ?_ (hbox ∘ hbox')
      exact htrans.zip hplain1 hplain2 hplain3 (.refl _) (.refl _) (.refl _) hlength hparams hparams'

theorem rule_class_trans (hclass : isClassType ty1 = true) (hrule : Rule env (Decided env) ty1 ty2)
    (hrule' : Rule env (Decided env) ty2 ty3) (hdecided' : Decided env ty2 ty3) : Rule env (Decided env) ty1 ty3 := by
  obtain ⟨info1, a1, b1, s1, rfl⟩ := isClassType_iff.mp hclass
  cases hrule with
  | clazz hid hlength hparams hbox =>
    cases hrule' with
    | clazz hid' hlength' hparams' hbox' =>
      refine .clazz (hid.trans hid') (hlength.trans hlength') ?_ (hbox ∘ hbox')
      exact htrans.zip hplain1 hplain2 hplain3 (.refl _) (.refl _) (.refl _) hlength hparams hparams'
    | classTrait hcap ht hsub => exact .classTrait ((hplain2.capabilityLookup_congr hid).trans hcap) ht hsub
    | classCapability hcap hconj hsub =>
      exact .classCapability ((hplain2.capabilityLookup_congr hid).trans hcap) hconj hsub
  | classTrait hcap ht hsub =>
    obtain ⟨htrait, hplain⟩ := hplain1.of_mem_implemented hclass hcap ht
    cases hrule' with
    | trait =>
      refine .classTrait hcap ht (decided_of_rule hplain hplain3 ?_)
      exact rule_trait_trans htrans hplain hplain2 hplain3 htrait rfl rfl hsub hdecided'
    | traitCapability hsub => exact (not_rule_traitCapability hplain2 hplain3 hsub).elim
  | classCapability hcap hconj hsub =>
    have hplain : ∀ t ∈ typesFromCapability _, Plain env nulls t := fun t ht =>
      (hplain1.of_mem_implemented hclass hcap ht).2
    cases hrule' with
    | capabilityTrait ht2 hsub' =>
      obtain ⟨t1, ht1, hsub⟩ := subsumed_trans htrans hplain hplain2 hplain3 rfl rfl hsub ht2 hsub'
      exact .classTrait hcap ht1 hsub
    | capability hconj' hsub' =>
      refine .classCapability hcap (preservesConjunctionsOf_trans hconj hconj') fun t3 ht3 => ?_
      obtain ⟨t2, ht2, hsub'⟩ := hsub' t3 ht3
      exact subsumed_trans htrans hplain hplain2 (hplain3.of_mem_capability ht3) rfl rfl hsub ht2 hsub'

theorem rule_capability_trans (hcap : isCapabilityType ty1 = true) (hdecided : Decided env ty1 ty2)
    (hrule : Rule env (Decided env) ty1 ty2) (hrule' : Rule env (Decided env) ty2 ty3)
    (hdecided' : Decided env ty2 ty3) : Rule env (Decided env) ty1 ty3 := by
  cases hrule with
  | trait =>
    cases hrule' with
    | trait => exact rule_trait_trans htrans hplain1 hplain2 hplain3 rfl rfl rfl hdecided hdecided'
    | traitCapability hsub => exact (not_rule_traitCapability hplain2 hplain3 hsub).elim
  | traitCapability hsub => exact (not_rule_traitCapability hplain1 hplain2 hsub).elim
  | capabilityTrait ht hsub =>
    have htrait := hplain1.traits_of_capability hcap ht
    have hplain := hplain1.of_mem_capability ht
    cases hrule' with
    | trait =>
      refine .capabilityTrait ht (decided_of_rule hplain hplain3 ?_)
      exact rule_trait_trans htrans hplain hplain2 hplain3 htrait rfl rfl hsub hdecided'
    | traitCapability hsub => exact (not_rule_traitCapability hplain2 hplain3 hsub).elim
  | capability hconj hsub =>
    have hplain : ∀ t ∈ typesFromCapability _, Plain env nulls t := fun t => hplain1.of_mem_capability
    cases hrule' with
    | capabilityTrait ht2 hsub' =>
      obtain ⟨t1, ht1, hsub⟩ := subsumed_trans htrans hplain hplain2 hplain3 rfl rfl hsub ht2 hsub'
      exact .capabilityTrait ht1 hsub
    | capability hconj' hsub' =>
      refine .capability (preservesConjunctionsOf_trans hconj hconj') fun t3 ht3 => ?_
      obtain ⟨t2, ht2, hsub'⟩ := hsub' t3 ht3
      exact subsumed_trans htrans hplain hplain2 (hplain3.of_mem_capability ht3) rfl rfl hsub ht2 hsub'
  | _ => exact absurd hcap Bool.false_ne_true

end

theorem rule_basic_trans {kind : Basic} {b : Option Box}
    (hplain1 : Plain env nulls (mk (.basic kind) b s)) (hplain2 : Plain env nulls ty2)
    (hplain3 : Plain env nulls ty3) (hrule : Rule env (Decided env) (mk (.basic kind) b s) ty2)
    (hrule' : Rule env (Decided env) ty2 ty3) : Rule env (Decided env) (mk (.basic kind) b s) ty3 := by
  cases hrule with
  | basic hrestricted =>
    cases hrule' with
    | basic hrestricted' => exact .basic (hrestricted.trans hrestricted')
    | intReal =>
      obtain rfl := hrestricted.eq_nil
      exact .intReal
    | nullTrait =>
      obtain rfl := hrestricted.eq_nil
      exact .nullTrait
    | nullClass =>
      obtain rfl := hrestricted.eq_nil
      exact .nullClass
    | bottom hty3 => exact .bottom hty3
  | intReal =>
    cases hrule' with
    | basic hrestricted =>
      obtain rfl := hrestricted.symm.eq_nil
      exact .intReal
  | nullTrait =>
    cases hrule' with
    | trait => exact .nullTrait
    | traitCapability hsub => exact (not_rule_traitCapability hplain2 hplain3 hsub).elim
  | nullClass =>
    cases hrule' with
    | clazz => exact .nullClass
    | classTrait => exact .nullTrait
    | classCapability =>
      -- Null and such a capability are not both allowed.
      have hnulls : nulls = true := hplain1.regular
      exact absurd (hnulls.symm.trans hplain3.regular.1) Bool.noConfusion
  | bottom hty2 =>
    refine .bottom (Bool.eq_false_iff.mpr fun hty3 => ?_)
    rw [rule_bottom hrule' hty3] at hty2
    exact absurd hty2.symm Bool.false_ne_true

theorem decided_trans (hplain1 : Plain env nulls ty1) (hplain2 : Plain env nulls ty2)
    (hplain3 : Plain env nulls ty3) (hsub : Decided env ty1 ty2) (hsub' : Decided env ty2 ty3) :
    Decided env ty1 ty3 := by
  induction hn : ty2.size using Nat.strongRecOn generalizing ty1 ty2 ty3 with
  | ind n ih =>
  subst hn
  have htrans : TransBelow env nulls ty2 := fun hlt h1 h2 h3 hfirst hsecond =>
    ih _ hlt h1 h2 h3 hfirst hsecond rfl
  have hrule := rule_of_decided hplain1 hplain2 hsub
  have hrule' := rule_of_decided hplain2 hplain3 hsub'
  refine decided_of_rule hplain1 hplain3 ?_
  obtain ⟨inner, b, s⟩ := ty1
  cases inner with
  | clazz => exact rule_class_trans htrans hplain1 hplain2 hplain3 rfl hrule hrule' hsub'
  | trait | capability => exact rule_capability_trans htrans hplain1 hplain2 hplain3 rfl hsub hrule hrule' hsub'
  | emptyCapability => exact absurd rfl hplain1.inner_ne
  | basic kind => exact rule_basic_trans hplain1 hplain2 hplain3 hrule hrule'
  | typeVar =>
    cases hrule with
    | typeVar hrestricted =>
      cases hrule' with
      | typeVar hrestricted' => exact .typeVar (hrestricted.trans hrestricted')
  | ctype =>
    cases hrule with
    | ctype hrestricted =>
      cases hrule' with
      | ctype hrestricted' => exact .ctype (hrestricted.trans hrestricted')
  | tuple =>
    cases hrule with
    | tuple hlength hargs =>
      cases hrule' with
      | tuple hlength' hargs' =>
        refine .tuple (hlength.trans hlength') ?_
        exact htrans.zip hplain1 hplain2 hplain3 (.refl _) (.refl _) (.refl _) hlength hargs hargs'
  | container =>
    cases hrule with
    | container hkind hresult =>
      cases hrule' with
      | container hkind' hresult' =>
        have h1 := hplain1.part mem_cons_self
        have h2 := hplain2.part mem_cons_self
        have h3 := hplain3.part mem_cons_self
        refine .container ?_ (htrans (size_lt_of_mem_parts mem_cons_self) h1 h2 h3 hresult hresult')
        exact hasSameKind_trans h1 h2 h3 (rule_of_decided h1 h2 hresult) (rule_of_decided h2 h3 hresult') hkind hkind'
  | arrow =>
    cases hrule with
    | arrow hlength hargs hresult =>
      cases hrule' with
      | arrow hlength' hargs' hresult' =>
        have hresultPart : ∀ {args : List Ty} {r : Ty}, r ∈ args ++ [r] := by simp
        refine .arrow (hlength.trans hlength') ?_ (htrans (size_lt_of_mem_parts hresultPart)
          (hplain1.part hresultPart) (hplain2.part hresultPart) (hplain3.part hresultPart) hresult hresult')
        -- The arguments go the other way.
        exact htrans.zip hplain3 hplain2 hplain1 (subset_append_left ..) (subset_append_left ..)
          (subset_append_left ..) hlength'.symm hargs' hargs

/-! ### Reflexivity -/

/-- No container in the type has a content that is not of one kind with itself. -/
def SelfKind (ty : Ty) : Prop :=
  ∀ c ∈ typeComponents ty, ∀ kind r, c.inner = .container kind r → hasSameKind r r = true

theorem selfKind_iff : SelfKind ty ↔ (∀ kind r, ty.inner = .container kind r → hasSameKind r r = true) ∧
    ∀ p ∈ parts ty, SelfKind p := by
  unfold SelfKind
  rw [typeComponents_eq, forall_mem_cons]
  simp only [mem_flatMap, forall_exists_index, and_imp]
  exact and_congr_right fun _ => ⟨fun h p hp c hc => h c p hp hc, fun h c p hp hc => h p hp c hc⟩

theorem forall_mem_zip_self {R : Ty → Ty → Prop} {tys : List Ty} :
    (∀ pair ∈ tys.zip tys, R pair.1 pair.2) ↔ ∀ t ∈ tys, R t t := by
  induction tys with
  | nil => simp
  | cons t tys ih => rw [zip_cons_cons, forall_mem_cons, forall_mem_cons, ih]

theorem isCapabilityType_of_traits (htraits : ∀ t ∈ typesFromCapability ty, isTraitType t = true)
    (hplain : Plain env nulls ty) : isCapabilityType ty = true := by
  obtain ⟨inner, b, s⟩ := ty
  cases inner with
  | trait | capability | emptyCapability => rfl
  | _ => exact absurd (htraits _ (mem_singleton_self _)) Bool.false_ne_true

section

variable (hplain : Plain env nulls ty)
include hplain

/-- A capability is a subtype of itself if its traits are, since their names differ. -/
theorem decided_self_capability (hcap : isCapabilityType ty = true) :
    Decided env ty ty ↔ ∀ t ∈ typesFromCapability ty, Decided env t t := by
  obtain ⟨inner, b, s⟩ := ty
  cases inner with
  | trait info => exact (forall_mem_singleton (p := fun t => Decided env t t)).symm
  | emptyCapability => exact absurd rfl hplain.inner_ne
  | capability op l r =>
    constructor
    · intro hdecided t ht
      cases rule_of_decided hplain hplain hdecided with
      | capability hconj hsub =>
        obtain ⟨t1, ht1, hsub⟩ := hsub t ht
        obtain ⟨info1, b1, s1, rfl⟩ := isTraitType_iff.mp (hplain.regular.2.1 t1 ht1)
        obtain ⟨info, b, s, rfl⟩ := isTraitType_iff.mp (hplain.regular.2.1 t ht)
        cases rule_of_decided (hplain.of_mem_capability ht1) (hplain.of_mem_capability ht) hsub with
        | trait _ hid =>
          rwa [inj_on_of_nodup_map hplain.regular.2.2 ht1 ht (congrArg some hid)] at hsub
    · intro hself
      refine decided_of_rule hplain hplain (.capability (preservesConjunctionsOf_refl _) fun t ht => ?_)
      exact ⟨t, ht, hself t ht⟩
  | _ => exact absurd hcap Bool.false_ne_true

attribute [local simp] Ty.inner

theorem decided_self_iff_parts : Decided env ty ty ↔ (∀ kind r, ty.inner = .container kind r → hasSameKind r r = true) ∧
      ∀ p ∈ parts ty, Decided env p p := by
  obtain ⟨inner, b, s⟩ := ty
  cases inner with
  | trait info =>
    refine ⟨fun hdecided => ⟨by simp, ?_⟩, fun hself => ?_⟩
    · cases rule_of_decided hplain hplain hdecided with
      | trait _ _ _ hparams => exact forall_mem_zip_self.mp hparams
    · exact decided_of_rule hplain hplain (.trait rfl rfl rfl (forall_mem_zip_self.mpr hself.2) id)
  | clazz info a =>
    refine ⟨fun hdecided => ⟨by simp, ?_⟩, fun hself => ?_⟩
    · cases rule_of_decided hplain hplain hdecided with
      | clazz _ _ hparams => exact forall_mem_zip_self.mp hparams
    · exact decided_of_rule hplain hplain (.clazz rfl rfl (forall_mem_zip_self.mpr hself.2) id)
  | tuple args =>
    refine ⟨fun hdecided => ⟨by simp, ?_⟩, fun hself => ?_⟩
    · cases rule_of_decided hplain hplain hdecided with
      | tuple _ hargs => exact forall_mem_zip_self.mp hargs
    · exact decided_of_rule hplain hplain (.tuple rfl (forall_mem_zip_self.mpr hself.2))
  | arrow args r =>
    simp only [parts, Ty.inner, InnerType.parts, forall_mem_append, forall_mem_singleton]
    refine ⟨fun hdecided => ⟨by simp, ?_⟩, fun hself => ?_⟩
    · cases rule_of_decided hplain hplain hdecided with
      | arrow _ hargs hresult => exact ⟨forall_mem_zip_self.mp hargs, hresult⟩
    · exact decided_of_rule hplain hplain (.arrow rfl (forall_mem_zip_self.mpr hself.2.1) hself.2.2)
  | container kind r =>
    simp only [parts, Ty.inner, InnerType.parts, forall_mem_singleton]
    refine ⟨fun hdecided => ?_, fun hself => ?_⟩
    · cases rule_of_decided hplain hplain hdecided with
      | container hkind hresult =>
        refine ⟨fun kind' r' heq => ?_, hresult⟩
        cases heq
        exact hkind
    · exact decided_of_rule hplain hplain (.container (hself.1 kind r rfl) hself.2)
  | capability op l r =>
    have htraits := hplain.regular.2.1
    rw [decided_self_capability hplain rfl]
    rw [typesFromCapability, forall_mem_append] at htraits ⊢
    have hl := hplain.part mem_cons_self
    have hr := hplain.part (mem_cons_of_mem _ mem_cons_self)
    rw [← decided_self_capability hl (isCapabilityType_of_traits htraits.1 hl),
      ← decided_self_capability hr (isCapabilityType_of_traits htraits.2 hr)]
    simp [parts, InnerType.parts]
  | emptyCapability => exact absurd rfl hplain.inner_ne
  | typeVar =>
    exact iff_of_true (decided_of_rule hplain hplain (.typeVar (.refl s))) (by simp [parts, InnerType.parts])
  | ctype => exact iff_of_true (decided_of_rule hplain hplain (.ctype (.refl s))) (by simp [parts, InnerType.parts])
  | basic => exact iff_of_true (decided_of_rule hplain hplain (.basic (.refl s))) (by simp [parts, InnerType.parts])

theorem decided_self_iff : Decided env ty ty ↔ SelfKind ty := by
  induction hn : ty.size using Nat.strongRecOn generalizing ty with
  | ind n ih =>
  subst hn
  rw [decided_self_iff_parts hplain, selfKind_iff]
  refine and_congr_right fun _ => forall₂_congr fun p hp => ?_
  exact ih _ (size_lt_of_mem_parts hp) (hplain.part hp) rfl

end

/-! ### The preorder -/

def traitOf (name : Name) : Ty := typ (.trait ⟨name, [], some .read⟩)

def bothTraits : Ty := typ (.capability .product (traitOf ['T']) (traitOf ['U']))

def classOfBoth : Ty := typ (.clazz ⟨['C'], [], none⟩ .passive)

def envOfBoth : Environment := ⟨[(['C'], ⟨classOfBoth, bothTraits⟩)]⟩

theorem plain_traitOf (name : Name) : Plain env nulls (traitOf name) := plain_of_paramless rfl rfl

theorem plain_classOfBoth : Plain envOfBoth nulls classOfBoth := by
  refine forall_mem_singleton.mpr ⟨_, rfl, fun p hp => absurd hp not_mem_nil, fun t ht => ?_⟩
  change t ∈ [traitOf ['T'], traitOf ['U']] at ht
  simp only [mem_cons, not_mem_nil, or_false] at ht
  rcases ht with rfl | rfl <;> exact ⟨rfl, rfl⟩

theorem plain_bothTraits : Plain envOfBoth false bothTraits := by
  intro c hc
  rw [typeComponents_eq] at hc
  rcases mem_cons.mp hc with rfl | hc
  · refine ⟨rfl, fun t ht => ?_, by decide⟩
    change t ∈ [traitOf ['T'], traitOf ['U']] at ht
    simp only [mem_cons, not_mem_nil, or_false] at ht
    rcases ht with rfl | rfl <;> rfl
  · obtain ⟨p, hp, hc⟩ := mem_flatMap.mp hc
    change p ∈ [traitOf ['T'], traitOf ['U']] at hp
    simp only [mem_cons, not_mem_nil, or_false] at hp
    rcases hp with rfl | rfl <;> exact plain_traitOf _ c hc

end Lfmr.Types
