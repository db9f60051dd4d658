/-!
# Names in the generated code

`CCodeNames.hs` makes the C name of a method from the names of the class and the method. Primes, which C
does not allow, are written out, with the name without them in front.

Strings are lists of characters, as they are in the source.
-/

namespace Lfmr.CCodeNames

def prime : Char := Char.ofNat 39

def replacePrimes (new name : List Char) : List Char :=
  name.flatMap fun c => if c = prime then new else [c]

def withoutPrimes (name : List Char) : List Char := replacePrimes ['_'] name

def expanded (name : List Char) : List Char := replacePrimes ['_', 'p', 'r', 'i', 'm', 'e'] name

def fixPrimes (name : List Char) : List Char × List Char :=
  if prime ∈ name then (withoutPrimes name, expanded name) else ([], name)

def encoreName (kind name : List Char) : List Char :=
  let fixed := fixPrimes name
  let alphas := kind.filter Char.isAlpha
  let enc := if !alphas.isEmpty && alphas.all Char.isUpper then ['_', 'E', 'N', 'C', '_']
    else ['_', 'e', 'n', 'c', '_']
  ['_'].intercalate ([enc, fixed.1, kind, fixed.2].filter fun part => !part.isEmpty)

inductive Variant
  | impl
  | future
  | oneWay
  deriving DecidableEq

def Variant.suffix : Variant → List Char
  | .impl => []
  | .future => ['_', 'f', 'u', 't', 'u', 'r', 'e']
  | .oneWay => ['_', 'o', 'n', 'e', '_', 'w', 'a', 'y']

structure Method where
  clazz : List Char
  mname : List Char
  deriving DecidableEq

def Method.joined (method : Method) : List Char :=
  method.clazz ++ '_' :: method.mname

def methodImplNameStr (method : Method) : List Char :=
  encoreName ['m', 'e', 't', 'h', 'o', 'd'] method.joined

structure Symbol where
  method : Method
  variant : Variant
  deriving DecidableEq

def Symbol.cName (symbol : Symbol) : List Char :=
  methodImplNameStr symbol.method ++ symbol.variant.suffix

structure ClassDecl where
  cname : List Char
  methodNames : List (List Char)

structure Program where
  classes : List ClassDecl

namespace Program

def methods (program : Program) : List Method :=
  program.classes.flatMap fun c => c.methodNames.map fun mname => ⟨c.cname, mname⟩

def symbols (program : Program) : List Symbol :=
  program.methods.flatMap fun method =>
    [⟨method, .impl⟩, ⟨method, .future⟩, ⟨method, .oneWay⟩]

structure DistinctNames (program : Program) : Prop where
  classes : (program.classes.map ClassDecl.cname).Nodup
  methods : ∀ c ∈ program.classes, c.methodNames.Nodup

end Program

def isIdentifier : List Char → Bool
  | [] => false
  | c :: cs => c.isAlpha && cs.all fun d => d.isAlphanum || d = '_' || d = prime

end Lfmr.CCodeNames
