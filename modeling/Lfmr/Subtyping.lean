import Lfmr.EncoreTypes

/-!
# Subtyping in Encore

`subtypeOf` and `canFlowInto` of `Typechecker/Util.hs`. A class is a subtype of the traits it implements,
which are looked up, so that the recursion is not on parts of the types and there are tables for which it
does not end. It is given a number of calls that may be open at a time, and has no result when it needs
more, or when a class is not in the table.
-/

namespace Lfmr.Types

structure ClassDecl where
  cname : Ty
  ccapability : Ty

structure Environment where
  classTable : List (Name × ClassDecl)

namespace Environment

def classLookup (env : Environment) (name : Name) : Option ClassDecl :=
  (env.classTable.find? fun entry => entry.1 == name).map Prod.snd

def formalBindings (formal actual : Ty) : List (Ty × Ty) :=
  formal.getTypeParameters.zip actual.getTypeParameters

def capabilityLookup (env : Environment) (ty : Ty) : Option Ty := do
  let name ← ty.getId
  let cls ← env.classLookup name
  return Ty.replaceTypeVars (formalBindings cls.cname ty) cls.ccapability

end Environment

open Ty

def anyM {α : Type} (p : α → Option Bool) (l : List α) : Option Bool :=
  l.foldlM (fun b x => (b || ·) <$> p x) false

def allM {α : Type} (p : α → Option Bool) (l : List α) : Option Bool :=
  l.foldlM (fun b x => (b && ·) <$> p x) true

/-- `liftM and $ zipWithM sub tys1 tys2`. -/
def zipAllM (sub : Ty → Ty → Option Bool) (tys1 tys2 : List Ty) : Option Bool :=
  (fun results => results.all id) <$> (tys1.zip tys2).mapM fun pair => sub pair.1 pair.2

def matchingPristiness (ref1 ref2 : Ty) : Bool :=
  if isPristineRefType ref1 then true
  else if !isPristineRefType ref1 && !isPristineRefType ref2 then true
  else false

def refSubtypeOf (sub : Ty → Ty → Option Bool) (ref1 ref2 : Ty) : Option Bool :=
  let params1 := ref1.getTypeParameters
  let params2 := ref2.getTypeParameters
  if ref1.getId == ref2.getId && params1.length == params2.length then do
    let results ← zipAllM sub params1 params2
    return results && matchingPristiness ref1 ref2
  else some false

def separates (left right : List Ty) (pair : List Ty × List Ty) : Bool :=
  (left.all (pair.1.contains ·) && right.all (pair.2.contains ·)) ||
    (right.all (pair.1.contains ·) && left.all (pair.2.contains ·))

def preservesConjunctionsOf (cap1 cap2 : Ty) : Bool :=
  (conjunctiveTypesFromCapability cap2).all fun pair =>
    (conjunctiveTypesFromCapability cap1).any (separates pair.1 pair.2)

def capabilitySubtypeOf (sub : Ty → Ty → Option Bool) (cap1 cap2 : Ty) : Option Bool := do
  let traits1 := typesFromCapability cap1
  let traits2 := typesFromCapability cap2
  let isSubsumed ← allM (fun t2 => anyM (fun t1 => sub t1 t2) traits1) traits2
  return preservesConjunctionsOf cap1 cap2 && isSubsumed

def numericSubtypeOf (ty1 ty2 : Ty) : Bool :=
  if isIntType ty1 && isRealType ty2 then true else ty1 == ty2

/-- One call of `subtypeOf`, with what it calls for the parts. -/
def subtypeStep (env : Environment) (sub : Ty → Ty → Option Bool) (ty1 ty2 : Ty) : Option Bool :=
  if isArrowType ty1 && isArrowType ty2 then do
    let argTys1 := ty1.getArgTypes
    let argTys2 := ty2.getArgTypes
    let contravariance ← zipAllM sub argTys2 argTys1
    let covariance ← sub ty1.getResultType ty2.getResultType
    return argTys1.length == argTys2.length && contravariance && covariance
  else if hasResultType ty1 && hasResultType ty2 then
    (hasSameKind ty1 ty2 && ·) <$> sub ty1.getResultType ty2.getResultType
  else if isNullType ty1 then some (isNullType ty2 || isRefType ty2)
  else if isClassType ty1 && isClassType ty2 then refSubtypeOf sub ty1 ty2
  else if isClassType ty1 && isTraitType ty2 then do
    let capability ← env.capabilityLookup ty1
    anyM (fun t => sub t ty2) (typesFromCapability capability)
  else if isClassType ty1 && isCapabilityType ty2 then do
    let capability ← env.capabilityLookup ty1
    capabilitySubtypeOf sub capability ty2
  else if isTupleType ty1 && isTupleType ty2 then do
    let argTys1 := ty1.getArgTypes
    let argTys2 := ty2.getArgTypes
    let results ← zipAllM sub argTys1 argTys2
    return results && argTys1.length == argTys2.length
  else if isTraitType ty1 && isTraitType ty2 then
    (modeSubtypeOf ty1 ty2 && ·) <$> refSubtypeOf sub ty1 ty2
  else if isTraitType ty1 && isCapabilityType ty2 then
    allM (fun t => sub ty1 t) (typesFromCapability ty2)
  else if isCapabilityType ty1 && isTraitType ty2 then
    anyM (fun t => sub t ty2) (typesFromCapability ty1)
  else if isCapabilityType ty1 && isCapabilityType ty2 then capabilitySubtypeOf sub ty1 ty2
  else if isBottomType ty1 && !isBottomType ty2 then some true
  else if isNumeric ty1 && isNumeric ty2 then some (numericSubtypeOf ty1 ty2)
  else some (ty1 == ty2)

def subtypeOf (env : Environment) : Nat → Ty → Ty → Option Bool
  | 0, _, _ => none
  | depth + 1, ty1, ty2 => subtypeStep env (subtypeOf env depth) ty1 ty2

def IsSubtype (env : Environment) (ty1 ty2 : Ty) : Prop :=
  ∃ depth, subtypeOf env depth ty1 ty2 = some true

def restrictionsFlow (ty1 ty2 : Ty) : Bool :=
  let restricted1 := restrictedFields ty1
  let restricted2 := restrictedFields ty2
  let strong1 := stronglyRestrictedFields ty1
  let strong2 := stronglyRestrictedFields ty2
  let weak2 := weaklyRestrictedFields ty2
  let restrictionsPreserved := (difference restricted1 restricted2).isEmpty
  let strongRestrictionsOK := strong1.all (weak2.contains ·) && !strong1.any (strong2.contains ·)
  restrictionsPreserved && strongRestrictionsOK

def canFlowInto (env : Environment) (depth : Nat) (ty1 ty2 : Ty) : Option Bool := do
  let isSubtype ← subtypeOf env depth ty1 ty2
  return isSubtype && restrictionsFlow ty1 ty2

def FlowsInto (env : Environment) (ty1 ty2 : Ty) : Prop :=
  ∃ depth, canFlowInto env depth ty1 ty2 = some true

end Lfmr.Types
