import Lfmr.Collections.CheckedSearch
import Lfmr.Collections.DepthLimit
import Lfmr.LinearTypes
import Lfmr.Proof.SubtypeRules
import Lfmr.Proof.TypeSubstitution

/-!
# When `isLinearType` has a result

`isLinearType'` looks at the types that are found by going from a class type to the types in its capability. It
ends if and only if there are finitely many of them. There are infinitely many if a class implements a trait for
larger and larger instances of the class.
-/

namespace Lfmr.FullTypes

open Lfmr.Types (Box InnerType RefInfo RestrictedField anyM)
open Lfmr.Collections Ty

variable {env : Environment} {ty ty' found cap : Ty} {inner inner' : FullInner Ty} {box box' : Option Box}
  {restricted restricted' : List RestrictedField} {f g : Ty → Ty} {checked : List Ty} {depth : Nat}

/-! ### Equal types have equal capabilities -/

theorem typeMap_beq (hfg : ∀ {ty ty'}, (ty == ty') = true → (f ty == g ty') = true) (hsame : (ty == ty') = true) :
    (typeMap f ty == typeMap g ty') = true := by
  induction ty using partsInduction generalizing ty' with
  | step inner box restricted ih =>
    obtain ⟨inner', box', restricted'⟩ := ty'
    obtain ⟨hshape, hparts, hperm⟩ := beq_mk_iff.mp hsame
    rw [typeMap_eq, typeMap_eq]
    refine hfg (beq_mk_iff.mpr ⟨by rwa [FullInner.shape_map, FullInner.shape_map], ?_, hperm⟩)
    rw [FullInner.parts_map, FullInner.parts_map, SameTypes, List.forall₂_map_left_iff, List.forall₂_map_right_iff]
    exact forall₂_imp_of_mem hparts ih

theorem visibleParts_eq_tail (inner : FullInner Ty) :
    visibleParts inner = if isTypeSynonym (ofShape inner.shape) then inner.parts.tail else inner.parts := by
  cases inner <;> rfl

theorem visibleParts_subset (inner : FullInner Ty) : visibleParts inner ⊆ inner.parts := by
  cases inner with
  | typeSynonym info resolvesTo => exact List.subset_cons_self _ _
  | _ => exact List.Subset.refl _

theorem typeComponents_beq (hsame : (ty == ty') = true) : SameTypes (typeComponents ty) (typeComponents ty') := by
  induction ty using partsInduction generalizing ty' with
  | step inner box restricted ih =>
    obtain ⟨inner', box', restricted'⟩ := ty'
    obtain ⟨hshape, hparts, -⟩ := beq_mk_iff.mp hsame
    have hvisible : SameTypes (visibleParts inner) (visibleParts inner') := by
      rw [visibleParts_eq_tail, visibleParts_eq_tail, hshape]
      split
      · simpa only [List.drop_one] using List.forall₂_drop 1 hparts
      · exact hparts
    rw [typeComponents_eq, typeComponents_eq]
    refine .cons hsame (List.rel_flatMap (forall₂_imp_of_mem hvisible fun part hpart => ?_) fun _ _ h => h)
    exact ih part (visibleParts_subset inner hpart)

theorem isArrowType_ofShape (ty : Ty) : isArrowType (ofShape ty.inner.shape) = isArrowType ty := by
  rcases ty with ⟨(_ | _) | _ | _, _, _⟩ <;> rfl

theorem shape_eq_of_beq (hsame : (ty == ty') = true) : ty.inner.shape = ty'.inner.shape := by
  obtain ⟨inner, box, restricted⟩ := ty
  obtain ⟨inner', box', restricted'⟩ := ty'
  exact (beq_mk_iff.mp hsame).1

theorem dropArrow_beq (hsame : (ty == ty') = true) : (dropArrow ty == dropArrow ty') = true := by
  rw [dropArrow, dropArrow, ← isArrowType_ofShape ty, shape_eq_of_beq hsame, isArrowType_ofShape]
  split
  · exact BEq.rfl
  · exact hsame

theorem lookup_zip_beq (formals : List Ty) {tys tys' : List Ty} (hsame : SameTypes tys tys') (hty : (ty == ty') = true) :
    (((lookup ty (formals.zip tys)).getD ty) == ((lookup ty' (formals.zip tys')).getD ty')) = true := by
  rw [lookup_congr hty]
  induction hsame generalizing formals with
  | nil => simpa [lookup] using hty
  | @cons bound bound' tys tys' hbound _ ih =>
    cases formals with
    | nil => simpa [lookup] using hty
    | cons formal formals =>
      by_cases hkey : (ty' == formal) = true
      · simpa [lookup, List.zip_cons_cons, List.find?_cons, hkey] using hbound
      · simpa [lookup, List.zip_cons_cons, List.find?_cons, hkey] using ih formals

theorem replaceTypeVars_zip_beq {formals tys tys' : List Ty} (hsame : SameTypes tys tys') (ty : Ty) :
    (replaceTypeVars (formals.zip tys) ty == replaceTypeVars (formals.zip tys') ty) = true := by
  refine typeMap_beq (fun {ty ty'} hty => ?_) BEq.rfl
  have hbound := lookup_zip_beq formals hsame hty
  exact BEq.trans (BEq.trans (beq_transferBox _ _) hbound) (BEq.symm (beq_transferBox _ _))

theorem capabilityLookup_eq (hty : isClassType ty = true) : env.capabilityLookup ty =
    (env.classLookup ty).map fun cls => replaceTypeVars (Environment.formalBindings cls.cname ty) cls.ccapability := by
  rw [Environment.capabilityLookup, if_pos hty]
  cases env.classLookup ty <;> rfl

def expand (env : Environment) (ty : Ty) : List Ty :=
  match env.capabilityLookup ty with
  | some cap => typeComponents (dropArrows cap)
  | none => []

theorem isClassType_iff : isClassType ty = true ↔ ∃ info activity box restricted,
    ty = mk (.resolved (.clazz info activity)) box restricted := by
  rcases ty with ⟨(_ | _) | _ | _, _, _⟩ <;> simp [isClassType]

theorem isClassType_ofShape (ty : Ty) : isClassType (ofShape ty.inner.shape) = isClassType ty := by
  rcases ty with ⟨(_ | _) | _ | _, _, _⟩ <;> rfl

theorem classLookup_ofShape (env : Environment) (ty : Ty) :
    env.classLookup (ofShape ty.inner.shape) = env.classLookup ty := by
  rcases ty with ⟨(_ | _) | _ | _, _, _⟩ <;> rfl

theorem expand_beq (hsame : (ty == ty') = true) : SameTypes (expand env ty) (expand env ty') := by
  have hclass : isClassType ty = isClassType ty' := by
    rw [← isClassType_ofShape ty, shape_eq_of_beq hsame, isClassType_ofShape]
  have hlookup : env.classLookup ty = env.classLookup ty' := by
    rw [← classLookup_ofShape env ty, shape_eq_of_beq hsame, classLookup_ofShape]
  cases hty : isClassType ty with
  | false => simp [expand, Environment.capabilityLookup, hty, ← hclass]
  | true =>
    rw [expand, expand, capabilityLookup_eq hty, capabilityLookup_eq (hclass ▸ hty), hlookup]
    obtain ⟨info, activity, box, restricted, rfl⟩ := isClassType_iff.mp hty
    obtain ⟨info', activity', box', restricted', rfl⟩ := isClassType_iff.mp (hclass ▸ hty)
    cases env.classLookup (mk (.resolved (.clazz info' activity')) box' restricted') with
    | none => exact .nil
    | some cls =>
      obtain ⟨-, hparts, -⟩ := beq_mk_iff.mp hsame
      exact typeComponents_beq (typeMap_beq dropArrow_beq (replaceTypeVars_zip_beq hparts cls.ccapability))

/-! ### The classes of a table -/

def Over (env : Environment) (ty : Ty) : Prop :=
  ∀ component ∈ typeComponents ty, isClassType component = true → (env.classLookup component).isSome

structure WellFormedClass (env : Environment) (cls : ClassDecl) : Prop where
  traits : ∀ t ∈ typesFromCapability cls.ccapability, isTraitType t = true ∧ (env.traitLookup t).isSome
  declared : Over env cls.ccapability
  parameters : ∀ component ∈ typeComponents cls.ccapability, isTypeVar component = true →
    component ∈ cls.cname.getTypeParameters

def WellFormed (env : Environment) : Prop := ∀ entry ∈ env.classTable, WellFormedClass env entry.2

theorem over_mk : Over env (mk inner box restricted) ↔
    (isClassType (ofShape inner.shape) = true → (env.classLookup (ofShape inner.shape)).isSome) ∧
      ∀ part ∈ visibleParts inner, Over env part := by
  rw [Over, typeComponents_eq, List.forall_mem_cons, List.forall_mem_flatMap, ← isClassType_ofShape,
    ← classLookup_ofShape]
  rfl

theorem visibleParts_map {h : Ty → Ty} : visibleParts (inner.map h id) = (visibleParts inner).map h := by
  rw [visibleParts_eq_tail, visibleParts_eq_tail, FullInner.shape_map, FullInner.parts_map]
  split
  · exact List.map_tail.symm
  · rfl

theorem over_typeMap (hf : ∀ ty, f ty = ty ∨ Over env (f ty)) (hty : Over env ty) : Over env (typeMap f ty) := by
  induction ty using partsInduction with
  | step inner box restricted ih =>
    rw [typeMap_eq]
    rcases hf (mk (inner.map (typeMap f) id) box restricted) with hsame | hover
    · obtain ⟨hlookup, hparts⟩ := over_mk.mp hty
      rw [hsame, over_mk, FullInner.shape_map, visibleParts_map, List.forall_mem_map]
      exact ⟨hlookup, fun part hpart => ih part (visibleParts_subset inner hpart) (hparts part hpart)⟩
    · exact hover

theorem over_dropArrows (hty : Over env ty) : Over env (dropArrows ty) := by
  refine over_typeMap (fun ty => ?_) hty
  unfold dropArrow
  split
  · exact .inr (over_mk.mpr ⟨fun hclass => (Bool.false_ne_true hclass).elim, fun _ hpart => absurd hpart List.not_mem_nil⟩)
  · exact .inl rfl

theorem over_transferBox (hty : Over env ty) (ty' : Ty) : Over env (transferBox ty' ty) := by
  obtain ⟨inner, box, restricted⟩ := ty
  exact over_mk.mpr (over_mk.mp hty)

theorem over_of_mem_typeComponents (hty : Over env ty) (hfound : found ∈ typeComponents ty) : Over env found := by
  induction ty using partsInduction with
  | step inner box restricted ih =>
    rw [typeComponents_eq, List.mem_cons] at hfound
    rcases hfound with rfl | hfound
    · exact hty
    · obtain ⟨part, hpart, hfound⟩ := List.mem_flatMap.mp hfound
      exact ih part (visibleParts_subset inner hpart) ((over_mk.mp hty).2 part hpart) hfound

theorem isClassType_of_capabilityLookup (hcap : env.capabilityLookup ty = some cap) : isClassType ty = true := by
  by_contra hclass
  simp [Environment.capabilityLookup, hclass] at hcap

theorem over_capability (henv : WellFormed env) (hty : Over env ty) (hcap : env.capabilityLookup ty = some cap) :
    Over env cap := by
  have hclass := isClassType_of_capabilityLookup hcap
  obtain ⟨info, activity, box, restricted, rfl⟩ := isClassType_iff.mp hclass
  rw [capabilityLookup_eq hclass, Option.map_eq_some_iff] at hcap
  obtain ⟨cls, hcls, rfl⟩ := hcap
  obtain ⟨before, after, htable, -⟩ := List.lookup_eq_some_iff.mp hcls
  have hentry : (info.refId, cls) ∈ env.classTable := by simp [htable]
  refine over_typeMap (fun ty => ?_) (henv _ hentry).declared
  rw [replace, lookup]
  cases hfind : (Environment.formalBindings cls.cname _).find? fun binding => ty == binding.1 with
  | none => exact .inl (transferBox_self ty)
  | some binding =>
    have hbound := (List.of_mem_zip (List.mem_of_find?_eq_some hfind)).2
    exact .inr (over_transferBox ((over_mk.mp hty).2 binding.2 hbound) ty)

def linearCall (env : Environment) (linear : List Ty × Ty → Option Bool) (call : List Ty × Ty) : Option Bool :=
  linearStep env (fun checked ty => linear (checked, ty)) call.1 call.2

theorem isLinearType'_eq_iterate (depth : Nat) (checked : List Ty) (ty : Ty) :
    isLinearType' env depth checked ty = iterate (linearCall env) depth (checked, ty) := by
  induction depth generalizing checked ty with
  | zero => rfl
  | succ depth ih =>
    rw [isLinearType', iterate, linearCall]
    congr 1
    funext checked ty
    exact ih checked ty

theorem finitary_linearCall (call : List Ty × Ty) : Finitary fun linear => linearCall env linear call :=
  (Finitary.const _).bind fun _ => (Finitary.const _).bind fun _ =>
    (Finitary.foldlM (fun _ _ => (Finitary.call _).map _) _ _).bind fun _ => .const _

theorem isSome_anyM {α : Type} {p : α → Option Bool} {l : List α} : (anyM p l).isSome ↔ ∀ x ∈ l, (p x).isSome := by
  refine ⟨?_, Types.isSome_foldlM false⟩
  unfold anyM
  generalize false = b
  induction l generalizing b with
  | nil => simp
  | cons x l ih =>
    rw [List.foldlM_cons, List.forall_mem_cons]
    cases p x with
    | none => exact fun hsome => (Bool.false_ne_true hsome).elim
    | some c => exact fun hsome => ⟨rfl, ih _ hsome⟩

theorem mapM_eq_filterMap {α β : Type} {p : α → Option β} {l : List α} (hp : ∀ x ∈ l, (p x).isSome) :
    l.mapM p = some (l.filterMap p) := by
  induction l with
  | nil => rfl
  | cons x l ih =>
    rw [List.forall_mem_cons] at hp
    obtain ⟨y, hy⟩ := Option.isSome_iff_exists.mp hp.1
    rw [List.mapM_cons, List.filterMap_cons_some hy, hy, ih hp.2]
    rfl

theorem over_of_unchecked (hty : Over env ty) (hfound : found ∈ uncheckedItems checked (typeComponents (dropArrows ty))) :
    Over env found :=
  over_of_mem_typeComponents (over_dropArrows hty) ((uncheckedItems_sublist _ _).subset hfound)

/-- The call has a result if the calls for the capabilities of the classes have one. -/
theorem isSome_linearStep {linear : List Ty → Ty → Option Bool} (hty : Over env ty) :
    (linearStep env linear checked ty).isSome ↔
      ∀ found ∈ uncheckedItems checked (typeComponents (dropArrows ty)), ∀ cap, env.capabilityLookup found = some cap →
        (linear (checked ++ uncheckedItems checked (typeComponents (dropArrows ty))) cap).isSome := by
  let unchecked := uncheckedItems checked (typeComponents (dropArrows ty))
  have hcapability : ∀ found ∈ unchecked, isClassType found = true → (env.capabilityLookup found).isSome := by
    intro found hfound hclass
    have hlookup := over_dropArrows hty found ((uncheckedItems_sublist _ _).subset hfound) hclass
    rwa [capabilityLookup_eq hclass, Option.isSome_map]
  have hmap : (unchecked.filter isClassType).mapM env.capabilityLookup =
      some ((unchecked.filter isClassType).filterMap env.capabilityLookup) :=
    mapM_eq_filterMap fun found hfound => hcapability found (List.mem_filter.mp hfound).1 (List.mem_filter.mp hfound).2
  obtain ⟨directly, hdirectly⟩ : ∃ directly, anyM (isDirectlyLinear env) unchecked = some directly := by
    refine Option.isSome_iff_exists.mp (isSome_anyM.mpr fun found hfound => ?_)
    unfold isDirectlyLinear
    split
    · rename_i hclass
      obtain ⟨cap, hcap⟩ := Option.isSome_iff_exists.mp (hcapability found hfound hclass)
      rw [hcap]
      rfl
    · rfl
  have hstep : linearStep env linear checked ty = (directly || ·) <$>
      anyM (linear (checked ++ unchecked)) ((unchecked.filter isClassType).filterMap env.capabilityLookup) := by
    change ((unchecked.filter isClassType).mapM env.capabilityLookup >>= fun capabilities =>
      anyM (isDirectlyLinear env) unchecked >>= fun directly =>
        anyM (linear (checked ++ unchecked)) capabilities >>= fun indirectly => pure (directly || indirectly)) = _
    rw [hmap, hdirectly, ← bind_pure_comp]
    rfl
  rw [hstep, Option.map_eq_map, Option.isSome_map, isSome_anyM]
  simp only [List.mem_filterMap, List.mem_filter]
  constructor
  · exact fun h found hfound cap hcap => h cap ⟨found, ⟨hfound, isClassType_of_capabilityLookup hcap⟩, hcap⟩
  · rintro h cap ⟨found, ⟨hfound, -⟩, hcap⟩
    exact h found hfound cap hcap

theorem halts_of_isLinearType' (henv : WellFormed env) (hty : Over env ty)
    (hreturns : (isLinearType' env depth checked ty).isSome) :
    Halts (expand env) checked (typeComponents (dropArrows ty)) := by
  induction depth generalizing checked ty with
  | zero => exact (Bool.false_ne_true hreturns).elim
  | succ depth ih =>
    refine .intro fun found hfound => ?_
    rw [expand]
    split
    · rename_i cap hcap
      refine ih (over_capability henv (over_of_unchecked hty hfound) hcap) ?_
      exact (isSome_linearStep hty).mp hreturns found hfound cap hcap
    · exact .intro fun x hx => absurd ((uncheckedItems_sublist _ _).subset hx) List.not_mem_nil

theorem isLinearType'_returns_of_halts (henv : WellFormed env) {items : List Ty} (hhalts : Halts (expand env) checked items)
    (hty : Over env ty) (hitems : items = typeComponents (dropArrows ty)) :
    (limit (linearCall env) (checked, ty)).isSome := by
  induction hhalts generalizing ty with
  | @intro checked items _ ih =>
    subst hitems
    rw [limit_eq finitary_linearCall]
    refine (isSome_linearStep hty).mpr fun found hfound cap hcap => ih found hfound ?_ ?_
    · exact over_capability henv (over_of_unchecked hty hfound) hcap
    · rw [expand, hcap]

theorem exists_bound_of_isLinearType' (henv : WellFormed env) (hty : Over env ty)
    (hreturns : (isLinearType' env depth [] ty).isSome) :
    ∃ bound : List Ty, ∀ found, Found (expand env) (typeComponents (dropArrows ty)) found →
      bound.contains found = true :=
  (halts_of_isLinearType' henv hty hreturns).exists_bound fun _ _ => expand_beq

/-- **`isLinearType'` ends exactly if finitely many types are found.** -/
theorem isLinearType'_terminates_iff (henv : WellFormed env) (hty : Over env ty) :
    (∃ depth result, isLinearType' env depth [] ty = some result) ↔
      ∃ bound : List Ty, ∀ found, Found (expand env) (typeComponents (dropArrows ty)) found →
        bound.contains found = true := by
  constructor
  · rintro ⟨depth, result, hresult⟩
    exact exists_bound_of_isLinearType' henv hty (Option.isSome_of_eq_some hresult)
  · rintro ⟨bound, hbound⟩
    have hhalts := halts_of_bound (fun _ _ => expand_beq) hbound
    obtain ⟨result, hresult⟩ := Option.isSome_iff_exists.mp (isLinearType'_returns_of_halts henv hhalts hty rfl)
    obtain ⟨depth, hdepth⟩ := (limit_eq_some_iff finitary_linearCall).mp hresult
    exact ⟨depth, result, (isLinearType'_eq_iterate _ _ _).trans hdepth⟩

/-! ### A class that leads to larger and larger instances of itself -/

def parameter : Ty := typ (.typeVar ['t'])

def maybeType (ty : Ty) : Ty := typ (.container .maybe ty)

def instanceOf (ty : Ty) : Ty := typ (.clazz ⟨['C'], [ty], none⟩ .passive)

def traitOf (ty : Ty) : Ty := typ (.trait ⟨['T'], [ty], none⟩)

/-- `class C<t> : T<C<argument>>` with a field `f : int`. -/
def oneClass (argument : Ty) : Environment :=
  { classTable := [(['C'], ⟨instanceOf parameter, traitOf (instanceOf argument), [⟨[], ['f'], typ (.basic .int)⟩]⟩)]
    traitTable := [(['T'], ⟨traitOf parameter, []⟩)] }

def growing : Environment := oneClass (maybeType parameter)

def nested : Nat → InnerType Ty
  | 0 => .basic .int
  | n + 1 => .container .maybe (typ (nested n))

theorem wellFormed_oneClass {argument : Ty} (hargument : argument = parameter ∨ argument = maybeType parameter) :
    WellFormed (oneClass argument) := by
  simp only [WellFormed, oneClass, List.mem_singleton, forall_eq]
  refine ⟨by rcases hargument with rfl | rfl <;> decide, ?_, ?_⟩ <;> rcases hargument with rfl | rfl <;>
    simp [Over, typeComponents, innerComponents, resolvedComponents, listComponents, traitOf, instanceOf, maybeType,
      parameter, typ, isClassType, isTypeVar, getTypeParameters, Environment.classLookup, refInfo]

theorem over_oneClass (argument : Ty) : Over (oneClass argument) (instanceOf (typ (.basic .int))) := by
  simp [Over, typeComponents, innerComponents, resolvedComponents, listComponents, instanceOf, typ, isClassType,
    oneClass, Environment.classLookup, refInfo]

theorem isLinearType'_terminates_iff_sameInstance : ∃ bound : List Ty, ∀ found,
    Found (expand (oneClass parameter)) (typeComponents (dropArrows (instanceOf (typ (.basic .int))))) found →
      bound.contains found = true :=
  (isLinearType'_terminates_iff (wellFormed_oneClass (.inl rfl)) (over_oneClass parameter)).mp ⟨3, false, rfl⟩

theorem dropArrows_nested (n : Nat) : dropArrows (typ (nested n)) = typ (nested n) := by
  induction n with
  | zero => rfl
  | succ n ih =>
    have hmap : dropArrows (typ (nested (n + 1))) = dropArrow (maybeType (dropArrows (typ (nested n)))) :=
      typeMap_eq _ _ _ _
    rw [hmap, ih]
    rfl

theorem expand_growing (n : Nat) :
    instanceOf (typ (nested (n + 1))) ∈ expand growing (instanceOf (typ (nested n))) := by
  have hdrop : dropArrows (traitOf (instanceOf (typ (nested (n + 1))))) =
      traitOf (instanceOf (dropArrows (typ (nested (n + 1))))) := rfl
  have hcap : growing.capabilityLookup (instanceOf (typ (nested n))) =
      some (traitOf (instanceOf (typ (nested (n + 1))))) := rfl
  rw [expand, hcap]
  change _ ∈ typeComponents (dropArrows (traitOf (instanceOf (typ (nested (n + 1))))))
  rw [hdrop, dropArrows_nested]
  simp [traitOf, typ, typeComponents, innerComponents, resolvedComponents, listComponents, instanceOf]

theorem found_growing (n : Nat) :
    Found (expand growing) (typeComponents (dropArrows (instanceOf (typ (nested 0))))) (instanceOf (typ (nested n))) := by
  induction n with
  | zero => exact ⟨_, List.mem_cons_self, .refl⟩
  | succ n ih => exact ih.tail (expand_growing n)

theorem length_typeComponents_nested (n : Nat) : (typeComponents (instanceOf (typ (nested n)))).length = n + 2 := by
  have hnested : (typeComponents (typ (nested n))).length = n + 1 := by
    induction n with
    | zero => rfl
    | succ n ih =>
      have hsucc : typeComponents (typ (nested (n + 1))) = typ (nested (n + 1)) :: typeComponents (typ (nested n)) := rfl
      rw [hsucc, List.length_cons, ih]
  have hinstance : typeComponents (instanceOf (typ (nested n))) =
      instanceOf (typ (nested n)) :: (typeComponents (typ (nested n)) ++ []) := rfl
  rw [hinstance, List.append_nil, List.length_cons, hnested]

theorem isLinearType_growing : WellFormed growing ∧ Over growing (instanceOf (typ (.basic .int))) ∧
    ∀ depth, isLinearType' growing depth [] (instanceOf (typ (.basic .int))) = none ∧
      isLinearType growing depth (instanceOf (typ (.basic .int))) = none := by
  have hgrowing : WellFormed growing := wellFormed_oneClass (.inr rfl)
  have hover : Over growing (instanceOf (typ (.basic .int))) := over_oneClass _
  have hnone : ∀ depth, isLinearType' growing depth [] (instanceOf (typ (.basic .int))) = none := by
    intro depth
    by_contra hsome
    obtain ⟨bound, hbound⟩ := exists_bound_of_isLinearType' hgrowing hover (Option.isSome_iff_ne_none.mpr hsome)
    obtain ⟨most, hmost⟩ : ∃ most, ∀ ty ∈ bound, (typeComponents ty).length ≤ most := by
      clear hbound
      induction bound with
      | nil => exact ⟨0, by simp⟩
      | cons ty bound ih =>
        obtain ⟨most, hmost⟩ := ih
        refine ⟨max (typeComponents ty).length most, List.forall_mem_cons.mpr ⟨Nat.le_max_left _ _, ?_⟩⟩
        exact fun ty hty => Nat.le_trans (hmost ty hty) (Nat.le_max_right _ _)
    obtain ⟨ty, hty, hsame⟩ := List.contains_iff_exists_mem_beq.mp (hbound _ (found_growing most))
    have hlength := (typeComponents_beq hsame).length_eq
    rw [length_typeComponents_nested] at hlength
    have hle := hmost ty hty
    omega
  refine ⟨hgrowing, hover, fun depth => ⟨hnone depth, ?_⟩⟩
  exact hnone depth

end Lfmr.FullTypes
