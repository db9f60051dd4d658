import Mathlib.Tactic.Common
import Lfmr.Collections.Partwise
import Lfmr.FullTypes

/-!
# Substitution in types

`typeMap` calls its function for a type whose parts it has rewritten. For type variables as keys,
`replaceTypeVars` changes nothing but these variables, so two substitutions one after the other are one, and
synonyms can be unfolded before or after.
-/

namespace Lfmr.Types

variable {α β : Type}

def RefInfo.map (g : α → β) (h : Option Mode → Option Mode) (info : RefInfo α) : RefInfo β :=
  ⟨info.refId, info.parameters.map g, h info.mode⟩

def InnerType.map (g : α → β) (h : Option Mode → Option Mode) : InnerType α → InnerType β
  | .trait info => .trait (info.map g h)
  | .clazz info activity => .clazz (info.map g h) activity
  | .capability typeop ltype rtype => .capability typeop (g ltype) (g rtype)
  | .emptyCapability => .emptyCapability
  | .typeVar ident => .typeVar ident
  | .arrow argTypes resultType => .arrow (argTypes.map g) (g resultType)
  | .container kind resultType => .container kind (g resultType)
  | .tuple argTypes => .tuple (argTypes.map g)
  | .ctype ident => .ctype ident
  | .basic kind => .basic kind

def InnerType.parts : InnerType α → List α
  | .trait info | .clazz info _ => info.parameters
  | .capability _ ltype rtype => [ltype, rtype]
  | .arrow argTypes resultType => argTypes ++ [resultType]
  | .container _ resultType => [resultType]
  | .tuple argTypes => argTypes
  | _ => []

def InnerType.shape : InnerType α → InnerType Unit := map (fun _ => ()) fun _ => none

end Lfmr.Types

namespace Lfmr.FullTypes

open Lfmr.Collections
open Lfmr.Types (Box InnerType Mode Name RefInfo RestrictedField)

variable {α β γ : Type}

namespace FullInner

def map (g : α → β) (h : Option Mode → Option Mode) : FullInner α → FullInner β
  | resolved inner => resolved (inner.map g h)
  | unresolved info => unresolved (info.map g h)
  | typeSynonym info resolvesTo => typeSynonym (info.map g h) (g resolvesTo)

def parts : FullInner α → List α
  | resolved inner => inner.parts
  | unresolved info => info.parameters
  | typeSynonym info resolvesTo => resolvesTo :: info.parameters

def shape : FullInner α → FullInner Unit := map (fun _ => ()) fun _ => none

variable {g : α → β} {h : Option Mode → Option Mode}

theorem map_congr {g' : α → β} {inner : FullInner α} (hsame : ∀ part ∈ inner.parts, g part = g' part) :
    inner.map g h = inner.map g' h := by
  rcases inner with (_ | _) | _ | _ <;> simp_all [map, parts, InnerType.map, InnerType.parts, RefInfo.map]

theorem map_map (g' : β → γ) (h' : Option Mode → Option Mode) (inner : FullInner α) :
    (inner.map g h).map g' h' = inner.map (g' ∘ g) (h' ∘ h) := by
  rcases inner with (_ | _) | _ | _ <;> simp [map, InnerType.map, RefInfo.map]

theorem map_id (inner : FullInner α) : inner.map id id = inner := by
  rcases inner with (_ | _) | _ | _ <;> simp [map, InnerType.map, RefInfo.map]

theorem parts_map (inner : FullInner α) : (inner.map g h).parts = inner.parts.map g := by
  rcases inner with (_ | _) | _ | _ <;> simp [map, parts, InnerType.map, InnerType.parts, RefInfo.map]

theorem shape_map (inner : FullInner α) : (inner.map g h).shape = inner.shape := map_map _ _ inner

end FullInner

namespace Ty

variable {ty part : Ty} {inner inner' : FullInner Ty} {box box' : Option Box}
  {restricted restricted' : List RestrictedField} {s t bindings : List (Ty × Ty)}

theorem listMap_eq (f : Ty → Ty) (tys : List Ty) : listMap f tys = tys.map (typeMap f) := by
  induction tys with
  | nil => rfl
  | cons ty tys ih => rw [listMap, ih, List.map_cons]

theorem refInfoTypeMap_eq (f : Ty → Ty) (info : RefInfo Ty) : refInfoTypeMap f info = info.map (typeMap f) id := by
  obtain ⟨refId, parameters, mode⟩ := info
  rw [refInfoTypeMap, listMap_eq]
  rfl

theorem typeMap_eq (f : Ty → Ty) (inner : FullInner Ty) (box : Option Box) (restricted : List RestrictedField) :
    typeMap f (mk inner box restricted) = f (mk (inner.map (typeMap f) id) box restricted) := by
  have hinner : innerMap f inner = inner.map (typeMap f) id := by
    rcases inner with (_ | _) | _ | _ <;>
      simp [innerMap, resolvedMap, refInfoTypeMap_eq, listMap_eq, FullInner.map, InnerType.map]
  rw [typeMap, hinner]

theorem sizeOf_lt_of_mem_parts (hpart : part ∈ inner.parts) : sizeOf part < sizeOf inner := by
  have hlist : ∀ l : List Ty, part ∈ l → sizeOf part < sizeOf l := fun l => List.sizeOf_lt_of_mem
  have hinfo : ∀ info : RefInfo Ty, part ∈ info.parameters → sizeOf part < sizeOf info := by
    rintro ⟨refId, parameters, mode⟩ hmem
    have hlt := hlist parameters hmem
    simp only [RefInfo.mk.sizeOf_spec]
    omega
  rcases inner with (_ | _) | _ | _ <;>
    simp only [FullInner.parts, InnerType.parts, List.mem_append, List.mem_cons, List.not_mem_nil, or_false] at hpart
  all_goals simp
  all_goals grind

theorem sizeOf_lt_of_mem_inner (hpart : part ∈ ty.inner.parts) : sizeOf part < sizeOf ty := by
  obtain ⟨inner, box, restricted⟩ := ty
  exact Nat.lt_of_lt_of_le (sizeOf_lt_of_mem_parts hpart) (by simp [Ty.inner]; omega)

theorem partsInduction {motive : Ty → Prop}
    (step : ∀ inner box restricted, (∀ part ∈ inner.parts, motive part) → motive (mk inner box restricted)) :
    ∀ ty, motive ty
  | mk inner box restricted => step inner box restricted fun part _ => partsInduction step part
termination_by ty => sizeOf ty
decreasing_by exact sizeOf_lt_of_mem_inner (by assumption)

abbrev SameTypes : List Ty → List Ty → Prop := List.Forall₂ fun ty ty' => (ty == ty') = true

@[simp]
theorem eqTy_eq (ty ty' : Ty) : eqTy ty ty' = (ty == ty') := rfl

theorem eqList_iff {tys tys' : List Ty} : eqList tys tys' = true ↔ SameTypes tys tys' := by
  induction tys generalizing tys' with
  | nil => cases tys' <;> simp [eqList]
  | cons ty tys ih =>
    cases tys' with
    | nil => simp [eqList]
    | cons ty' tys' => simp [eqList, ih]

theorem eqInfo_iff {info info' : RefInfo Ty} :
    eqInfo info info' = true ↔ info.refId = info'.refId ∧ SameTypes info.parameters info'.parameters := by
  obtain ⟨refId, parameters, mode⟩ := info
  simp [eqInfo, eqList_iff]

theorem eqInner_iff : eqInner inner inner' = true ↔ inner.shape = inner'.shape ∧ SameTypes inner.parts inner'.parts := by
  have hlength : ∀ {tys tys' : List Ty}, SameTypes tys tys' → tys.length = tys'.length := List.Forall₂.length_eq
  rcases inner with (_ | _) | _ | _ <;> rcases inner' with (_ | _) | _ | _
  all_goals simp [eqInner, eqResolved, eqInfo_iff, eqList_iff, FullInner.shape, FullInner.map, FullInner.parts,
    InnerType.map, InnerType.parts, RefInfo.map]
  all_goals grind [forall₂_concat]

theorem inner_mk : (mk inner box restricted).inner = inner := rfl

theorem beq_mk_iff : (mk inner box restricted == mk inner' box' restricted') = true ↔
    inner.shape = inner'.shape ∧ SameTypes inner.parts inner'.parts ∧ restricted.Perm restricted' := by
  rw [← eqTy_eq, eqTy, Bool.and_eq_true, List.isPerm_iff, inner_mk, eqInner_iff, and_assoc]
  rfl

theorem partwise_beq : Partwise (fun ty ty' : Ty => (ty == ty') = true)
    (fun ty ty' => ty.inner.shape = ty'.inner.shape ∧ ty.restricted.Perm ty'.restricted) (fun ty => ty.inner.parts)
    sizeOf where
  root := ⟨fun _ => ⟨rfl, .refl _⟩, fun h => ⟨h.1.symm, h.2.symm⟩, fun h h' => ⟨h.1.trans h'.1, h.2.trans h'.2⟩⟩
  smaller {ty part} hpart := sizeOf_lt_of_mem_inner hpart
  same_iff {ty ty'} := by
    obtain ⟨inner, box, restricted⟩ := ty
    obtain ⟨inner', box', restricted'⟩ := ty'
    rw [beq_mk_iff, and_assoc, and_comm (b := List.Perm _ _)]
    rfl

instance : EquivBEq Ty where
  rfl := partwise_beq.equivalence.refl _
  symm := partwise_beq.equivalence.symm
  trans := partwise_beq.equivalence.trans

/-! ### Substitution -/

def ofShape (shape : FullInner Unit) : Ty := mk (shape.map (fun _ => typ .emptyCapability) id) none []

theorem isTypeVar_ofShape (ty : Ty) : isTypeVar (ofShape ty.inner.shape) = isTypeVar ty := by
  rcases ty with ⟨(_ | _) | _ | _, _, _⟩ <;> rfl

theorem isTypeSynonym_ofShape (ty : Ty) : isTypeSynonym (ofShape ty.inner.shape) = isTypeSynonym ty := by
  rcases ty with ⟨(_ | _) | _ | _, _, _⟩ <;> rfl

def IsVariable (ty : Ty) : Prop := isTypeVar ty = true ∧ ty.restricted = []

theorem isVariable_iff : IsVariable ty ↔ ∃ ident box, ty = mk (.resolved (.typeVar ident)) box [] := by
  obtain ⟨inner, box, restricted⟩ := ty
  rcases inner with (_ | _) | _ | _ <;> simp [IsVariable, isTypeVar, Ty.restricted]

theorem isVariable_map {g : Ty → Ty} :
    IsVariable (mk (inner.map g id) box restricted) ↔ IsVariable (mk inner box restricted) := by
  rw [IsVariable, IsVariable, ← isTypeVar_ofShape, ← isTypeVar_ofShape (mk inner box restricted), inner_mk,
    FullInner.shape_map]
  rfl

theorem isVariable_congr {ty' : Ty} (hsame : (ty == ty') = true) (hty' : IsVariable ty') : IsVariable ty := by
  obtain ⟨inner, box, restricted⟩ := ty
  obtain ⟨inner', box', restricted'⟩ := ty'
  obtain ⟨hshape, -, hperm⟩ := beq_mk_iff.mp hsame
  obtain ⟨htypeVar, hrestricted⟩ := hty'
  refine ⟨?_, List.perm_nil.mp (hperm.trans (.of_eq hrestricted))⟩
  rw [← isTypeVar_ofShape] at htypeVar ⊢
  rwa [inner_mk, hshape]

def VariableKeys (bindings : List (Ty × Ty)) : Prop := ∀ binding ∈ bindings, IsVariable binding.1

theorem lookup_eq_none (hkeys : VariableKeys bindings) (hty : ¬ IsVariable ty) : lookup ty bindings = none := by
  have hfind : bindings.find? (fun binding => ty == binding.1) = none := by
    rw [List.find?_eq_none]
    exact fun binding hbinding hsame => hty (isVariable_congr hsame (hkeys binding hbinding))
  rw [lookup, hfind, Option.map_none]

theorem lookup_congr {ty' : Ty} (hsame : (ty == ty') = true) : lookup ty bindings = lookup ty' bindings := by
  have hkeys : (fun binding : Ty × Ty => ty == binding.1) = fun binding => ty' == binding.1 :=
    funext fun binding => BEq.congr_left hsame
  rw [lookup, lookup, hkeys]

theorem transferBox_self (ty : Ty) : transferBox ty ty = ty := by
  cases ty
  rfl

theorem replaceTypeVars_of_not_isVariable (hkeys : VariableKeys bindings)
    (hty : ¬ IsVariable (mk inner box restricted)) :
    replaceTypeVars bindings (mk inner box restricted) =
      mk (inner.map (replaceTypeVars bindings) id) box restricted := by
  refine (typeMap_eq _ _ _ _).trans ?_
  rw [replace, lookup_eq_none hkeys (isVariable_map.not.mpr hty)]
  rfl

theorem replaceTypeVars_of_isVariable (bindings : List (Ty × Ty)) (hty : IsVariable ty) :
    replaceTypeVars bindings ty = replace bindings ty := by
  obtain ⟨ident, box, rfl⟩ := isVariable_iff.mp hty
  exact typeMap_eq _ _ _ _

theorem beq_transferBox (ty ty' : Ty) : (transferBox ty ty' == ty') = true := by
  obtain ⟨inner, box, restricted⟩ := ty'
  exact beq_mk_iff.mpr ⟨rfl, List.forall₂_same.mpr fun _ _ => BEq.rfl, .refl _⟩

/-- A box stands only at the top, and substitution takes it along. -/
theorem replaceTypeVars_transferBox (bindings : List (Ty × Ty)) (ty ty' : Ty) :
    replaceTypeVars bindings (transferBox ty ty') = transferBox ty (replaceTypeVars bindings ty') := by
  obtain ⟨inner, box, restricted⟩ := ty'
  let rebuilt := mk (inner.map (replaceTypeVars bindings) id) box restricted
  have hlookup : lookup (transferBox ty rebuilt) bindings = lookup rebuilt bindings :=
    lookup_congr (beq_transferBox ty rebuilt)
  have hleft : replaceTypeVars bindings (transferBox ty (mk inner box restricted)) =
      replace bindings (transferBox ty rebuilt) := typeMap_eq _ _ _ _
  have hright : replaceTypeVars bindings (mk inner box restricted) = replace bindings rebuilt :=
    typeMap_eq _ _ _ _
  rw [hleft, hright, replace, replace, hlookup]
  cases lookup rebuilt bindings <;> rfl

/-- The substitution that does what `s` does and then what `t` does. -/
def compose (s t : List (Ty × Ty)) : List (Ty × Ty) :=
  s.map (fun binding => (binding.1, replaceTypeVars t binding.2)) ++
    t.filter fun binding => (lookup binding.1 s).isNone

theorem lookup_compose (s t : List (Ty × Ty)) (ty : Ty) :
    lookup ty (compose s t) = ((lookup ty s).map (replaceTypeVars t)).or (lookup ty t) := by
  have hfirst : lookup ty (s.map fun binding => (binding.1, replaceTypeVars t binding.2)) =
      (lookup ty s).map (replaceTypeVars t) := by
    simp only [lookup, List.find?_map, Option.map_map]
    rfl
  have happend : lookup ty (compose s t) =
      (lookup ty (s.map fun binding => (binding.1, replaceTypeVars t binding.2))).or
        (lookup ty (t.filter fun binding => (lookup binding.1 s).isNone)) := by
    simp only [lookup, compose, List.find?_append, Option.map_or]
  rw [happend, hfirst]
  cases hs : lookup ty s with
  | some bound => rfl
  | none =>
    -- No key of `s` is equal to `ty`, so the bindings of `t` for `ty` are all there.
    have hkept : lookup ty (t.filter fun binding => (lookup binding.1 s).isNone) = lookup ty t := by
      rw [lookup, lookup, List.find?_filter]
      congr 2
      funext binding
      by_cases hsame : (ty == binding.1) = true
      · rw [← lookup_congr hsame, hs, hsame]
        rfl
      · simp [hsame]
    rw [hkept]

theorem variableKeys_compose (hs : VariableKeys s) (ht : VariableKeys t) : VariableKeys (compose s t) := by
  intro binding hbinding
  rcases List.mem_append.mp hbinding with hbinding | hbinding
  · obtain ⟨first, hfirst, rfl⟩ := List.mem_map.mp hbinding
    exact hs first hfirst
  · exact ht binding (List.mem_filter.mp hbinding).1

theorem replaceTypeVars_replaceTypeVars (hs : VariableKeys s) (ht : VariableKeys t) (ty : Ty) :
    replaceTypeVars t (replaceTypeVars s ty) = replaceTypeVars (compose s t) ty := by
  induction ty using partsInduction with
  | step inner box restricted ih =>
    by_cases hvariable : IsVariable (mk inner box restricted)
    · rw [replaceTypeVars_of_isVariable s hvariable, replaceTypeVars_of_isVariable _ hvariable, replace, replace,
        lookup_compose]
      cases lookup (mk inner box restricted) s with
      | none =>
        rw [Option.getD_none, transferBox_self, replaceTypeVars_of_isVariable t hvariable]
        rfl
      | some bound => exact replaceTypeVars_transferBox t _ bound
    · rw [replaceTypeVars_of_not_isVariable hs hvariable,
        replaceTypeVars_of_not_isVariable ht (isVariable_map.not.mpr hvariable),
        replaceTypeVars_of_not_isVariable (variableKeys_compose hs ht) hvariable, FullInner.map_map]
      exact congrArg (mk · box restricted) (FullInner.map_congr ih)

/-! ### Unfolding synonyms -/

def NoSynonym (ty : Ty) : Prop := ∀ component ∈ typeComponents ty, isTypeSynonym component = false

theorem listComponents_eq (tys : List Ty) : listComponents tys = tys.flatMap typeComponents := by
  induction tys with
  | nil => rfl
  | cons ty tys ih => rw [listComponents, ih, List.flatMap_cons]

/-- What `typeComponents` goes into: not what a synonym stands for. -/
def visibleParts : FullInner Ty → List Ty
  | .typeSynonym info _ => info.parameters
  | inner => inner.parts

theorem typeComponents_eq (inner : FullInner Ty) (box : Option Box) (restricted : List RestrictedField) :
    typeComponents (mk inner box restricted) =
      mk inner box restricted :: (visibleParts inner).flatMap typeComponents := by
  rw [typeComponents]
  rcases inner with (_ | _) | _ | _ <;>
    simp [innerComponents, resolvedComponents, visibleParts, FullInner.parts, InnerType.parts, listComponents_eq]

theorem visibleParts_eq (hinner : isTypeSynonym (mk inner box restricted) = false) :
    visibleParts inner = inner.parts := by
  cases inner with
  | typeSynonym info resolvesTo => simp [isTypeSynonym] at hinner
  | _ => rfl

theorem noSynonym_mk : NoSynonym (mk inner box restricted) ↔
    isTypeSynonym (mk inner box restricted) = false ∧ ∀ part ∈ inner.parts, NoSynonym part := by
  rw [NoSynonym, typeComponents_eq, List.forall_mem_cons]
  refine and_congr_right fun hinner => ?_
  rw [visibleParts_eq hinner, List.forall_mem_flatMap]
  rfl

theorem unfoldTypeSynonyms_eq (hinner : isTypeSynonym (mk inner box restricted) = false) :
    unfoldTypeSynonyms (mk inner box restricted) = mk (inner.map unfoldTypeSynonyms id) box restricted := by
  refine (typeMap_eq _ _ _ _).trans ?_
  cases inner with
  | typeSynonym info resolvesTo => simp [isTypeSynonym] at hinner
  | _ => rfl

theorem unfoldTypeSynonyms_typeSynonym (info : RefInfo Ty) (resolvesTo : Ty) (box : Option Box)
    (restricted : List RestrictedField) :
    unfoldTypeSynonyms (mk (.typeSynonym info resolvesTo) box restricted) = unfoldTypeSynonyms resolvesTo :=
  typeMap_eq _ _ _ _

theorem isTypeSynonym_map {g : Ty → Ty} :
    isTypeSynonym (mk (inner.map g id) box restricted) = isTypeSynonym (mk inner box restricted) := by
  rw [← isTypeSynonym_ofShape, ← isTypeSynonym_ofShape (mk inner box restricted), inner_mk, FullInner.shape_map]
  rfl

theorem noSynonym_unfoldTypeSynonyms (ty : Ty) : NoSynonym (unfoldTypeSynonyms ty) := by
  induction ty using partsInduction with
  | step inner box restricted ih =>
    cases hinner : isTypeSynonym (mk inner box restricted) with
    | false =>
      rw [unfoldTypeSynonyms_eq hinner, noSynonym_mk, isTypeSynonym_map, FullInner.parts_map, List.forall_mem_map]
      exact ⟨hinner, ih⟩
    | true =>
      cases inner with
      | typeSynonym info resolvesTo =>
        rw [unfoldTypeSynonyms_typeSynonym]
        exact ih resolvesTo List.mem_cons_self
      | _ => cases hinner

theorem unfoldTypeSynonyms_of_noSynonym (hty : NoSynonym ty) : unfoldTypeSynonyms ty = ty := by
  induction ty using partsInduction with
  | step inner box restricted ih =>
    obtain ⟨hinner, hparts⟩ := noSynonym_mk.mp hty
    have hid : ∀ part ∈ inner.parts, unfoldTypeSynonyms part = id part := fun part hpart =>
      ih part hpart (hparts part hpart)
    rw [unfoldTypeSynonyms_eq hinner, FullInner.map_congr hid, FullInner.map_id]

theorem noSynonym_of_isVariable (hty : IsVariable ty) : NoSynonym ty := by
  obtain ⟨ident, box, rfl⟩ := isVariable_iff.mp hty
  exact noSynonym_mk.mpr ⟨rfl, fun part hpart => absurd hpart List.not_mem_nil⟩

theorem noSynonym_transferBox {ty' : Ty} (hty' : NoSynonym ty') : NoSynonym (transferBox ty ty') := by
  obtain ⟨inner, box, restricted⟩ := ty'
  obtain ⟨hinner, hparts⟩ := noSynonym_mk.mp hty'
  refine noSynonym_mk.mpr ⟨?_, hparts⟩
  rwa [← isTypeSynonym_ofShape] at hinner ⊢

theorem noSynonym_replace (hs : ∀ binding ∈ s, NoSynonym binding.2) (hty : NoSynonym ty) :
    NoSynonym (replace s ty) := by
  apply noSynonym_transferBox
  rw [lookup]
  cases hfind : s.find? fun binding => ty == binding.1 with
  | none => exact hty
  | some binding => exact hs binding (List.mem_of_find?_eq_some hfind)

theorem unfoldTypeSynonyms_replaceTypeVars (hkeys : VariableKeys s) (hs : ∀ binding ∈ s, NoSynonym binding.2)
    (ty : Ty) : unfoldTypeSynonyms (replaceTypeVars s ty) = replaceTypeVars s (unfoldTypeSynonyms ty) := by
  induction ty using partsInduction with
  | step inner box restricted ih =>
    by_cases hvariable : IsVariable (mk inner box restricted)
    · have hty := noSynonym_of_isVariable hvariable
      rw [unfoldTypeSynonyms_of_noSynonym hty, replaceTypeVars_of_isVariable s hvariable]
      exact unfoldTypeSynonyms_of_noSynonym (noSynonym_replace hs hty)
    · rw [replaceTypeVars_of_not_isVariable hkeys hvariable]
      cases hinner : isTypeSynonym (mk inner box restricted) with
      | false =>
        rw [unfoldTypeSynonyms_eq hinner, unfoldTypeSynonyms_eq (isTypeSynonym_map.trans hinner),
          replaceTypeVars_of_not_isVariable hkeys (isVariable_map.not.mpr hvariable), FullInner.map_map,
          FullInner.map_map]
        exact congrArg (mk · box restricted) (FullInner.map_congr ih)
      | true =>
        cases inner with
        | typeSynonym info resolvesTo =>
          rw [unfoldTypeSynonyms_typeSynonym]
          exact (unfoldTypeSynonyms_typeSynonym _ _ _ _).trans (ih resolvesTo List.mem_cons_self)
        | _ => cases hinner

/-- **Substitution composes and commutes with unfolding synonyms.** -/
theorem replaceTypeVars_compose_unfold (hs : VariableKeys s) (ht : VariableKeys t) (ty : Ty) :
    (replaceTypeVars t (replaceTypeVars s ty) == replaceTypeVars (compose s t) ty) = true ∧
      ((∀ binding ∈ s, NoSynonym binding.2) →
        (unfoldTypeSynonyms (replaceTypeVars s ty) == replaceTypeVars s (unfoldTypeSynonyms ty)) = true ∧
          NoSynonym (unfoldTypeSynonyms (replaceTypeVars s ty))) := by
  rw [replaceTypeVars_replaceTypeVars hs ht]
  refine ⟨BEq.rfl, fun hbound => ⟨?_, noSynonym_unfoldTypeSynonyms _⟩⟩
  rw [unfoldTypeSynonyms_replaceTypeVars hs hbound]
  exact BEq.rfl

/-- `S<a>` stands for `(a, Maybe b)`; `a` is replaced by `Maybe b`, and then `b` by `int`. -/
theorem replaceTypeVars_compose_unfold_synonym :
    let a := typ (.typeVar ['a'])
    let b := typ (.typeVar ['b'])
    let maybe := fun ty => typ (.container .maybe ty)
    let synonym := mk (.typeSynonym ⟨['S'], [a], none⟩ (typ (.tuple [a, maybe b]))) none []
    let s := [(a, maybe b)]
    let t := [(b, typ (.basic .int))]
    (replaceTypeVars t (replaceTypeVars s synonym) == replaceTypeVars (compose s t) synonym) = true ∧
      (unfoldTypeSynonyms (replaceTypeVars s synonym) == replaceTypeVars s (unfoldTypeSynonyms synonym)) = true ∧
        NoSynonym (unfoldTypeSynonyms (replaceTypeVars s synonym)) := by
  intro a b maybe synonym s t
  have hs : VariableKeys s := by simp [VariableKeys, s, IsVariable, a, typ, isTypeVar, Ty.restricted]
  have ht : VariableKeys t := by simp [VariableKeys, t, IsVariable, b, typ, isTypeVar, Ty.restricted]
  have hbound : ∀ binding ∈ s, NoSynonym binding.2 := by
    simp [s, NoSynonym, maybe, b, typ, typeComponents, innerComponents, resolvedComponents, isTypeSynonym]
  exact ⟨(replaceTypeVars_compose_unfold hs ht synonym).1, (replaceTypeVars_compose_unfold hs ht synonym).2 hbound⟩

end Ty

end Lfmr.FullTypes
