import Lfmr.EncoreTypes

/-!
# All types of Encore

The types of `Types.hs` together with those that there are before types are resolved: references that are
not yet known to be a class or a trait, and type synonyms, which carry what they stand for.
-/

namespace Lfmr.FullTypes

open Lfmr.Types (Activity Basic Box InnerType Mode Name RefInfo RestrictedField TypeOp)

inductive FullInner (α : Type)
  | resolved (inner : InnerType α)
  | unresolved (refInfo : RefInfo α)
  | typeSynonym (refInfo : RefInfo α) (resolvesTo : α)

inductive Ty
  | mk (inner : FullInner Ty) (box : Option Box) (restricted : List RestrictedField)

namespace Ty

def inner : Ty → FullInner Ty
  | mk inner _ _ => inner

def box : Ty → Option Box
  | mk _ box _ => box

def restricted : Ty → List RestrictedField
  | mk _ _ restricted => restricted

def typ (inner : InnerType Ty) : Ty := mk (.resolved inner) none []

/-! ### Equality

Modes and boxes do not count, and restrictions are sorted before they are compared. -/

mutual

def eqTy : Ty → Ty → Bool
  | mk inner _ restricted, ty => eqInner inner ty.inner && restricted.isPerm ty.restricted
termination_by structural x => x

def eqInner : FullInner Ty → FullInner Ty → Bool
  | .resolved inner, .resolved inner' => eqResolved inner inner'
  | .unresolved info, .unresolved info' => eqInfo info info'
  | .typeSynonym info ty, .typeSynonym info' ty' => eqInfo info info' && eqTy ty ty'
  | _, _ => false
termination_by structural x => x

def eqResolved : InnerType Ty → InnerType Ty → Bool
  | .trait info, .trait info' => eqInfo info info'
  | .clazz info activity, .clazz info' activity' => eqInfo info info' && activity == activity'
  | .capability typeop ltype rtype, .capability typeop' ltype' rtype' =>
      typeop == typeop' && eqTy ltype ltype' && eqTy rtype rtype'
  | .emptyCapability, .emptyCapability => true
  | .typeVar ident, .typeVar ident' => ident == ident'
  | .arrow argTypes resultType, .arrow argTypes' resultType' =>
      eqList argTypes argTypes' && eqTy resultType resultType'
  | .container kind resultType, .container kind' resultType' => kind == kind' && eqTy resultType resultType'
  | .tuple argTypes, .tuple argTypes' => eqList argTypes argTypes'
  | .ctype ident, .ctype ident' => ident == ident'
  | .basic kind, .basic kind' => kind == kind'
  | _, _ => false
termination_by structural x => x

def eqInfo : RefInfo Ty → RefInfo Ty → Bool
  | ⟨refId, parameters, _⟩, info => refId == info.refId && eqList parameters info.parameters
termination_by structural x => x

def eqList : List Ty → List Ty → Bool
  | [], [] => true
  | ty :: tys, ty' :: tys' => eqTy ty ty' && eqList tys tys'
  | _, _ => false
termination_by structural x => x

end

instance : BEq Ty := ⟨eqTy⟩

def isUnresolved : Ty → Bool
  | mk (.unresolved _) _ _ => true
  | _ => false

def isTraitType : Ty → Bool
  | mk (.resolved (.trait _)) _ _ => true
  | _ => false

def isClassType : Ty → Bool
  | mk (.resolved (.clazz _ _)) _ _ => true
  | _ => false

def isRefType (ty : Ty) : Bool := isUnresolved ty || isTraitType ty || isClassType ty

def isTypeVar : Ty → Bool
  | mk (.resolved (.typeVar _)) _ _ => true
  | _ => false

def isArrowType : Ty → Bool
  | mk (.resolved (.arrow _ _)) _ _ => true
  | _ => false

def isTypeSynonym : Ty → Bool
  | mk (.typeSynonym _ _) _ _ => true
  | _ => false

mutual

def typeComponents : Ty → List Ty
  | mk inner box restricted => mk inner box restricted :: innerComponents inner

def innerComponents : FullInner Ty → List Ty
  | .resolved inner => resolvedComponents inner
  | .unresolved ⟨_, parameters, _⟩ => listComponents parameters
  | .typeSynonym ⟨_, parameters, _⟩ _ => listComponents parameters

def resolvedComponents : InnerType Ty → List Ty
  | .trait ⟨_, parameters, _⟩ => listComponents parameters
  | .clazz ⟨_, parameters, _⟩ _ => listComponents parameters
  | .capability _ ltype rtype => typeComponents ltype ++ typeComponents rtype
  | .arrow argTypes resultType => listComponents argTypes ++ typeComponents resultType
  | .container _ resultType => typeComponents resultType
  | .tuple argTypes => listComponents argTypes
  | _ => []

def listComponents : List Ty → List Ty
  | [] => []
  | ty :: tys => typeComponents ty ++ listComponents tys

end

mutual

def typeMap (f : Ty → Ty) : Ty → Ty
  | mk inner box restricted => f (mk (innerMap f inner) box restricted)

def innerMap (f : Ty → Ty) : FullInner Ty → FullInner Ty
  | .resolved inner => .resolved (resolvedMap f inner)
  | .unresolved info => .unresolved (refInfoTypeMap f info)
  | .typeSynonym info resolvesTo => .typeSynonym (refInfoTypeMap f info) (typeMap f resolvesTo)

def resolvedMap (f : Ty → Ty) : InnerType Ty → InnerType Ty
  | .trait info => .trait (refInfoTypeMap f info)
  | .clazz info activity => .clazz (refInfoTypeMap f info) activity
  | .capability typeop ltype rtype => .capability typeop (typeMap f ltype) (typeMap f rtype)
  | .arrow argTypes resultType => .arrow (listMap f argTypes) (typeMap f resultType)
  | .container kind resultType => .container kind (typeMap f resultType)
  | .tuple argTypes => .tuple (listMap f argTypes)
  | inner => inner

def refInfoTypeMap (f : Ty → Ty) : RefInfo Ty → RefInfo Ty
  | ⟨refId, parameters, mode⟩ => ⟨refId, listMap f parameters, mode⟩

def listMap (f : Ty → Ty) : List Ty → List Ty
  | [] => []
  | ty :: tys => typeMap f ty :: listMap f tys

end

def lookup (ty : Ty) (bindings : List (Ty × Ty)) : Option Ty :=
  (bindings.find? fun binding => ty == binding.1).map Prod.snd

def transferBox (ty1 ty2 : Ty) : Ty := mk ty2.inner ty1.box ty2.restricted

def replace (bindings : List (Ty × Ty)) (ty : Ty) : Ty :=
  transferBox ty ((lookup ty bindings).getD ty)

def replaceTypeVars (bindings : List (Ty × Ty)) : Ty → Ty := typeMap (replace bindings)

def unfoldSingleSynonym : Ty → Ty
  | mk (.typeSynonym _ resolvesTo) _ _ => resolvesTo
  | ty => ty

def unfoldTypeSynonyms : Ty → Ty := typeMap unfoldSingleSynonym

end Ty

end Lfmr.FullTypes
