import Lfmr.FullTypes
import Lfmr.Subtyping

/-!
# Linear types

`isLinearType` of `Typechecker/Util.hs` with the lookups of `Typechecker/Environment.hs` that it uses. It goes
from class types to their capabilities, which need not end, so it is given a number of calls that may be open at
a time. It has no result when it needs more, or when a class or a trait is not in the tables.
-/

namespace Lfmr.FullTypes

open Lfmr.Types (Mode Name RefInfo RestrictedField anyM)
open Lfmr.Types.Ty (difference)

inductive Modifier
  | val
  | spec
  | once
  deriving DecidableEq

structure FieldDecl where
  fmods : List Modifier
  fname : Name
  ftype : Ty

def FieldDecl.isValField (f : FieldDecl) : Bool := f.fmods.contains .val

def FieldDecl.isSpecField (f : FieldDecl) : Bool := f.fmods.contains .spec

structure ClassDecl where
  cname : Ty
  ccapability : Ty
  cfields : List FieldDecl

structure TraitDecl where
  tname : Ty
  requiredFields : List FieldDecl

structure Environment where
  classTable : List (Name × ClassDecl)
  traitTable : List (Name × TraitDecl)

namespace Ty

def refInfo : Ty → Option (RefInfo Ty)
  | mk (.resolved (.trait info)) _ _ => some info
  | mk (.resolved (.clazz info _)) _ _ => some info
  | mk (.unresolved info) _ _ => some info
  | mk (.typeSynonym info _) _ _ => some info
  | _ => none

def getTypeParameters (ty : Ty) : List Ty := (ty.refInfo.map RefInfo.parameters).getD []

def getMode (ty : Ty) : Option Mode := ty.refInfo.bind RefInfo.mode

def isLinearRefType (ty : Ty) : Bool := ty.getMode == some .linear || ty.getMode == some .spine

def isPristineRefType (ty : Ty) : Bool := ty.box == some .pristine

def transferRestrictedFields (ty : Ty) : List Name :=
  ty.restricted.filterMap fun | .transfer f => some f | _ => none

def barredFields (ty : Ty) : List Name :=
  ty.restricted.filterMap fun | .transfer _ => none | .strong f => some f | .weak f => some f

def typesFromCapability : Ty → List Ty
  | mk (.resolved (.capability _ ltype rtype)) _ _ => typesFromCapability ltype ++ typesFromCapability rtype
  | mk (.resolved .emptyCapability) _ _ => []
  | ty => [ty]

end Ty

open Ty

namespace Environment

def formalBindings (formal actual : Ty) : List (Ty × Ty) :=
  formal.getTypeParameters.zip actual.getTypeParameters

def classLookup (env : Environment) (ty : Ty) : Option ClassDecl := do
  let info ← ty.refInfo
  env.classTable.lookup info.refId

def traitLookup (env : Environment) (ty : Ty) : Option TraitDecl := do
  let info ← ty.refInfo
  env.traitTable.lookup info.refId

def capabilityLookup (env : Environment) (ty : Ty) : Option Ty :=
  if isClassType ty then do
    let cls ← env.classLookup ty
    return replaceTypeVars (formalBindings cls.cname ty) cls.ccapability
  else none

def trim (bindings : List (Ty × Ty)) (barred transferRestricted : List Name) (fields : List FieldDecl) :
    List FieldDecl :=
  let actualFields := fields.map fun f => { f with ftype := replaceTypeVars bindings f.ftype }
  let stabilized := actualFields.map fun f =>
    if transferRestricted.contains f.fname then { f with fmods := [.val] } else f
  stabilized.filter fun f => !barred.contains f.fname

def fields (env : Environment) (ty : Ty) : Option (List FieldDecl) :=
  if isTraitType ty then do
    let trait ← env.traitLookup ty
    return trim (formalBindings trait.tname ty) ty.barredFields ty.transferRestrictedFields trait.requiredFields
  else if isClassType ty then do
    let cls ← env.classLookup ty
    return trim (formalBindings cls.cname ty) ty.barredFields ty.transferRestrictedFields cls.cfields
  else none

end Environment

def dropArrow (ty : Ty) : Ty := if isArrowType ty then typ (.basic .void) else ty

def dropArrows : Ty → Ty := typeMap dropArrow

def isDirectlyLinear (env : Environment) (ty : Ty) : Option Bool :=
  if isClassType ty then do
    let cap ← env.capabilityLookup ty
    let components := typeComponents (dropArrows ty) ++ typeComponents (dropArrows cap)
    return components.any isLinearRefType
  else
    some ((typeComponents (dropArrows ty)).any isLinearRefType)

def linearStep (env : Environment) (linear : List Ty → Ty → Option Bool) (checked : List Ty) (ty : Ty) :
    Option Bool := do
  let components := typeComponents (dropArrows ty)
  let unchecked := difference components checked
  let classes := unchecked.filter isClassType
  let capabilities ← classes.mapM env.capabilityLookup
  let directly ← anyM (isDirectlyLinear env) unchecked
  let indirectly ← anyM (linear (checked ++ unchecked)) capabilities
  return directly || indirectly

def isLinearType' (env : Environment) : Nat → List Ty → Ty → Option Bool
  | 0, _, _ => none
  | depth + 1, checked, ty => linearStep env (isLinearType' env depth) checked ty

def isLinearType (env : Environment) (depth : Nat) (ty : Ty) : Option Bool :=
  if isPristineRefType ty then some true
  else if isRefType ty then do
    let flds ← env.fields ty
    if flds.all fun f => f.isValField || f.isSpecField then some false else isLinearType' env depth [] ty
  else isLinearType' env depth [] ty

end Lfmr.FullTypes
