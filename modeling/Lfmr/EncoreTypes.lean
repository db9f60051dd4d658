/-!
# The types of Encore

The part of `Types.hs` that subtyping and field restrictions use, for resolved types: there are no type
synonyms and no references that are not yet known to be a class or a trait.

Strings are lists of characters, as they are in the source.
-/

namespace Lfmr.Types

abbrev Name := List Char

inductive Activity
  | active
  | shared
  | passive
  deriving DecidableEq

inductive TypeOp
  | product
  | addition
  deriving DecidableEq

inductive Mode
  | linear
  | thread
  | unsafeMode
  | read
  | lockfree
  | subordinate
  | spine
  deriving DecidableEq

inductive Box
  | stackbound
  | pristine
  deriving DecidableEq

inductive RestrictedField
  | strong (fname : Name)
  | weak (fname : Name)
  | transfer (fname : Name)
  deriving DecidableEq

namespace RestrictedField

def fname : RestrictedField → Name
  | strong f | weak f | transfer f => f

def isStrong : RestrictedField → Bool
  | strong _ => true
  | _ => false

def isWeak : RestrictedField → Bool
  | weak _ => true
  | _ => false

end RestrictedField

inductive Container
  | future
  | par
  | stream
  | array
  | maybe
  deriving DecidableEq

inductive Basic
  | range
  | void
  | string
  | char
  | int
  | bool
  | real
  | null
  | bottom
  deriving DecidableEq

structure RefInfo (α : Type) where
  refId : Name
  parameters : List α
  mode : Option Mode

inductive InnerType (α : Type)
  | trait (refInfo : RefInfo α)
  | clazz (refInfo : RefInfo α) (activity : Activity)
  | capability (typeop : TypeOp) (ltype rtype : α)
  | emptyCapability
  | typeVar (ident : Name)
  | arrow (argTypes : List α) (resultType : α)
  | container (kind : Container) (resultType : α)
  | tuple (argTypes : List α)
  | ctype (ident : Name)
  | basic (kind : Basic)

inductive Ty
  | mk (inner : InnerType Ty) (box : Option Box) (restricted : List RestrictedField)

namespace Ty

def inner : Ty → InnerType Ty
  | mk inner _ _ => inner

def box : Ty → Option Box
  | mk _ box _ => box

def restricted : Ty → List RestrictedField
  | mk _ _ restricted => restricted

def typ (inner : InnerType Ty) : Ty := mk inner none []

def withRestricted (ty : Ty) (restricted : List RestrictedField) : Ty := mk ty.inner ty.box restricted

def restrictedFields (ty : Ty) : List Name := ty.restricted.map RestrictedField.fname

def weaklyRestrictedFields (ty : Ty) : List Name :=
  (ty.restricted.filter RestrictedField.isWeak).map RestrictedField.fname

def stronglyRestrictedFields (ty : Ty) : List Name :=
  (ty.restricted.filter RestrictedField.isStrong).map RestrictedField.fname

/-- `\\`, which takes away one occurrence for every one in the second list. -/
def difference {α : Type} [BEq α] (first second : List α) : List α := second.foldl List.erase first

def unite {α : Type} [BEq α] (first second : List α) : List α :=
  first ++ difference second.eraseDups first

def unrestrict (ty : Ty) (f : Name) : Ty :=
  ty.withRestricted (difference ty.restricted [.weak f, .strong f, .transfer f])

def bar (ty : Ty) (f : Name) : Ty :=
  ty.withRestricted (unite (difference ty.restricted [.strong f]) [.weak f])

def doubleBar (ty : Ty) (f : Name) : Ty :=
  ty.withRestricted (unite (difference ty.restricted [.weak f]) [.strong f])

def tilde (ty : Ty) (f : Name) : Ty :=
  ty.withRestricted (unite ty.restricted [.transfer f])

/-! ### Equality

Modes and boxes do not count, and restrictions are sorted before they are compared. -/

mutual

def eqTy : Ty → Ty → Bool
  | mk inner _ restricted, ty => eqInner inner ty.inner && restricted.isPerm ty.restricted

def eqInner : InnerType Ty → InnerType Ty → Bool
  | .trait ⟨refId, parameters, _⟩, .trait info => refId == info.refId && eqList parameters info.parameters
  | .clazz ⟨refId, parameters, _⟩ activity, .clazz info activity' =>
      refId == info.refId && eqList parameters info.parameters && activity == activity'
  | .capability typeop ltype rtype, .capability typeop' ltype' rtype' =>
      typeop == typeop' && eqTy ltype ltype' && eqTy rtype rtype'
  | .emptyCapability, .emptyCapability => true
  | .typeVar ident, .typeVar ident' => ident == ident'
  | .arrow argTypes resultType, .arrow argTypes' resultType' =>
      eqList argTypes argTypes' && eqTy resultType resultType'
  | .container kind resultType, .container kind' resultType' => kind == kind' && eqTy resultType resultType'
  | .tuple argTypes, .tuple argTypes' => eqList argTypes argTypes'
  | .ctype ident, .ctype ident' => ident == ident'
  | .basic kind, .basic kind' => kind == kind'
  | _, _ => false

def eqList : List Ty → List Ty → Bool
  | [], [] => true
  | ty :: tys, ty' :: tys' => eqTy ty ty' && eqList tys tys'
  | _, _ => false

end

instance : BEq Ty := ⟨eqTy⟩

def isBasic (kind : Basic) (ty : Ty) : Bool := ty == typ (.basic kind)

def isNullType : Ty → Bool := isBasic .null

def isIntType : Ty → Bool := isBasic .int

def isRealType : Ty → Bool := isBasic .real

def isNumeric (ty : Ty) : Bool := isRealType ty || isIntType ty

def isPrimitive (ty : Ty) : Bool :=
  [Basic.void, .int, .real, .bool, .string, .char].any fun kind => isBasic kind ty

def isBottomType : Ty → Bool
  | mk (.basic .bottom) _ _ => true
  | _ => false

def isTraitType : Ty → Bool
  | mk (.trait _) _ _ => true
  | _ => false

def isClassType : Ty → Bool
  | mk (.clazz _ _) _ _ => true
  | _ => false

def isRefType (ty : Ty) : Bool := isTraitType ty || isClassType ty

def isCapabilityType : Ty → Bool
  | mk (.capability _ _ _) _ _ => true
  | mk (.trait _) _ _ => true
  | mk .emptyCapability _ _ => true
  | _ => false

def isTypeVar : Ty → Bool
  | mk (.typeVar _) _ _ => true
  | _ => false

def isArrowType : Ty → Bool
  | mk (.arrow _ _) _ _ => true
  | _ => false

def isTupleType : Ty → Bool
  | mk (.tuple _) _ _ => true
  | _ => false

def hasResultType : Ty → Bool
  | mk (.arrow _ _) _ _ => true
  | mk (.container _ _) _ _ => true
  | _ => false

def isPristineRefType (ty : Ty) : Bool := ty.box == some .pristine

def getResultType : Ty → Ty
  | mk (.arrow _ resultType) _ _ => resultType
  | mk (.container _ resultType) _ _ => resultType
  | ty => ty

def getArgTypes : Ty → List Ty
  | mk (.arrow argTypes _) _ _ => argTypes
  | mk (.tuple argTypes) _ _ => argTypes
  | _ => []

def refInfo : Ty → Option (RefInfo Ty)
  | mk (.trait info) _ _ => some info
  | mk (.clazz info _) _ _ => some info
  | _ => none

def getId (ty : Ty) : Option Name := ty.refInfo.map RefInfo.refId

def getTypeParameters (ty : Ty) : List Ty := (ty.refInfo.map RefInfo.parameters).getD []

def getMode (ty : Ty) : Option Mode := ty.refInfo.bind RefInfo.mode

def modeSubtypeOf (ty1 ty2 : Ty) : Bool := ty1.getMode == ty2.getMode

def typesFromCapability : Ty → List Ty
  | mk (.capability _ ltype rtype) _ _ => typesFromCapability ltype ++ typesFromCapability rtype
  | mk .emptyCapability _ _ => []
  | ty => [ty]

def conjunctiveTypesFromCapability : Ty → List (List Ty × List Ty)
  | mk (.capability .product ltype rtype) _ _ =>
      (typesFromCapability ltype, typesFromCapability rtype) ::
        (conjunctiveTypesFromCapability ltype ++ conjunctiveTypesFromCapability rtype)
  | mk (.capability .addition ltype rtype) _ _ =>
      conjunctiveTypesFromCapability ltype ++ conjunctiveTypesFromCapability rtype
  | _ => []

def sameKindOutside (ty1 ty2 : Ty) : Bool :=
  if (isBottomType ty1 || isBottomType ty2) && !(isBottomType ty1 && isBottomType ty2) then true
  else
    (isPrimitive ty1 && isPrimitive ty2) || (isTupleType ty1 && isTupleType ty2) ||
    (isTypeVar ty1 && isTypeVar ty2) || (isRefType ty1 && isRefType ty2) ||
    (isCapabilityType ty1 && isCapabilityType ty2) || (isArrowType ty1 && isArrowType ty2)

def hasSameKind : Ty → Ty → Bool
  | mk (.container kind resultType) box restricted, ty2 =>
      match ty2 with
      | mk (.container kind' resultType') box' restricted' =>
          if kind = kind' then hasSameKind resultType resultType'
          else sameKindOutside (mk (.container kind resultType) box restricted)
            (mk (.container kind' resultType') box' restricted')
      | ty2 => sameKindOutside (mk (.container kind resultType) box restricted) ty2
  | ty1, ty2 => sameKindOutside ty1 ty2

mutual

def typeComponents : Ty → List Ty
  | mk inner box restricted => mk inner box restricted :: innerComponents inner

def innerComponents : InnerType Ty → List Ty
  | .trait ⟨_, parameters, _⟩ => listComponents parameters
  | .clazz ⟨_, parameters, _⟩ _ => listComponents parameters
  | .capability _ ltype rtype => typeComponents ltype ++ typeComponents rtype
  | .arrow argTypes resultType => listComponents argTypes ++ typeComponents resultType
  | .container _ resultType => typeComponents resultType
  | .tuple argTypes => listComponents argTypes
  | _ => []

def listComponents : List Ty → List Ty
  | [] => []
  | ty :: tys => typeComponents ty ++ listComponents tys

end

mutual

def typeMap (f : Ty → Ty) : Ty → Ty
  | mk inner box restricted => f (mk (innerMap f inner) box restricted)

def innerMap (f : Ty → Ty) : InnerType Ty → InnerType Ty
  | .trait ⟨refId, parameters, mode⟩ => .trait ⟨refId, listMap f parameters, mode⟩
  | .clazz ⟨refId, parameters, mode⟩ activity => .clazz ⟨refId, listMap f parameters, mode⟩ activity
  | .capability typeop ltype rtype => .capability typeop (typeMap f ltype) (typeMap f rtype)
  | .arrow argTypes resultType => .arrow (listMap f argTypes) (typeMap f resultType)
  | .container kind resultType => .container kind (typeMap f resultType)
  | .tuple argTypes => .tuple (listMap f argTypes)
  | inner => inner

def listMap (f : Ty → Ty) : List Ty → List Ty
  | [] => []
  | ty :: tys => typeMap f ty :: listMap f tys

end

def lookup (ty : Ty) (bindings : List (Ty × Ty)) : Option Ty :=
  (bindings.find? fun binding => ty == binding.1).map Prod.snd

def transferBox (ty1 ty2 : Ty) : Ty := mk ty2.inner ty1.box ty2.restricted

def replaceTypeVars (bindings : List (Ty × Ty)) : Ty → Ty :=
  typeMap fun ty => transferBox ty ((lookup ty bindings).getD ty)

end Ty

end Lfmr.Types
