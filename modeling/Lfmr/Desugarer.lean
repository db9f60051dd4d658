import Lfmr.EncoreAst

/-!
# Desugaring

`Desugarer.hs` for expressions. How an expression and a string literal are printed is left open.
-/

namespace Lfmr.Ast

open Lfmr.Types (Name Ty)

structure Printer where
  ppExpr : Expr → List Char
  showString : List Char → List Char

namespace Expr

def setMeta (m : Meta) : Expr → Expr
  | varAccess _ name => varAccess m name
  | functionCall _ name args => functionCall m name args
  | closure _ eparams body => closure m eparams body
  | async _ body => async m body
  | foreach _ item arr body => foreach m item arr body
  | finishAsync _ body => finishAsync m body
  | letE _ decls body => letE m decls body
  | miniLet _ decl => miniLet m decl
  | seq _ eseq => seq m eseq
  | repeatE _ name times body => repeatE m name times body
  | forE _ name step src body => forE m name step src body
  | matchE _ arg clauses => matchE m arg clauses
  | get _ val => get m val
  | node _ kind children => node m kind children

def ppSugared (printer : Printer) (e : Expr) : List Char := e.emeta.sugared.getD (printer.ppExpr e)

def selfSugar (printer : Printer) (e : Expr) : Expr :=
  e.setMeta { e.emeta with sugared := some (printer.ppExpr e) }

def skip (m : Meta) : Expr := node m .skip []

def intLiteral (m : Meta) (n : Int) : Expr := node m (.intLiteral n) []

def stringLiteral (m : Meta) (text : List Char) : Expr := node m (.stringLiteral text) []

def isAsyncTask : Expr → Bool
  | async _ _ => true
  | _ => false

def isMiniLet : Expr → Bool
  | miniLet _ _ => true
  | _ => false

def expandMiniLets : List Expr → List Expr
  | [] => []
  | miniLet m decl :: es =>
      [letE m [decl] (seq m (match expandMiniLets es with
        | [] => [skip m]
        | es' => es'))]
  | e :: es => e :: expandMiniLets es

def assertionFailed : List Char := "Assertion failed: ".toList

def failWithExpr (printer : Printer) (fCall : Expr) : Expr :=
  let m := cloneMeta fCall.emeta
  seq m [node m .print [stringLiteral m (assertionFailed ++ fCall.ppSugared printer ++ ['\n'])],
    node m .exit [intLiteral m 1]]

def failWithMessage (printer : Printer) (emeta : Meta) (rest : List Expr) : Expr :=
  let m := cloneMeta emeta
  seq m [node m .print [selfSugar printer (stringLiteral m assertionFailed)],
    node m .print rest,
    node m .print [selfSugar printer (stringLiteral m ['\n'])],
    node m .exit [intLiteral m 1]]

def desugarCall (printer : Printer) (m : Meta) (name : Name) (args : List Expr) : Expr :=
  let fCall := functionCall m name args
  if name = "try".toList then
    match args with
    | [node _ .assign [lhs, rhs]] => node m .tryAssign [lhs, rhs]
    | _ => fCall
  else if name = "fix".toList then
    match args with
    | [target] => node m .freeze [target]
    | _ => fCall
  else if name = "isStable".toList then
    match args with
    | [target] => node m .isFrozen [target]
    | _ => fCall
  else if name = "exit".toList then node m .exit args
  else if name = "print".toList then
    match args with
    | [] => node m .print [stringLiteral m ['\n']]
    | [arg] => node m .print [stringLiteral m ['\x7b', '\x7d', '\n'], arg]
    | args => node m .print args
  else if name = "assertTrue".toList then
    match args with
    | [] => fCall
    | [cond] => node m .ifThenElse [cond, skip (cloneMeta m), failWithExpr printer fCall]
    | cond :: rest => node m .ifThenElse [cond, skip (cloneMeta m), failWithMessage printer m rest]
  else if name = "assertFalse".toList then
    match args with
    | [] => fCall
    | [cond] => node m .ifThenElse [cond, failWithExpr printer fCall, skip (cloneMeta m)]
    | cond :: rest => node m .ifThenElse [cond, failWithMessage printer m rest, skip (cloneMeta m)]
  else fCall

def desugarRepeat (m : Meta) (name : Name) (times body : Expr) : Expr :=
  let bound := "__gub__".toList
  letE m [⟨[name], intLiteral m 0⟩, ⟨[bound], times⟩]
    (node m .whileE [node m (.binop .lt) [varAccess m name, varAccess m bound],
      seq m [body, node m .assign [varAccess m name,
        node m (.binop .plus) [varAccess m name, intLiteral m 1]]]])

def desugarForeach (m : Meta) (item : Name) (arr body : Expr) : Expr :=
  let it := "__it__".toList
  let arrSize := "__arr_size__".toList
  letE m [⟨[arrSize], node m .arraySize [arr]⟩]
    (node m .ifThenElse [node m (.binop .eq) [varAccess m arrSize, intLiteral m 0],
      skip (cloneMeta m),
      letE m [⟨[it], intLiteral m 0⟩, ⟨[item], node m .arrayAccess [arr, intLiteral m 0]⟩]
        (node m .whileE [node m (.binop .lt) [varAccess m it, varAccess m arrSize],
          seq m [node m .assign [varAccess m item, node m .arrayAccess [arr, varAccess m it]],
            async m body,
            node m .assign [varAccess m it,
              node m (.binop .plus) [varAccess m it, intLiteral m 1]]]])])

def seqName (i : Nat) : Name := "__seq__".toList ++ Nat.toDigits 10 i

def bindings (index : Nat) : List Expr → List (Decl Expr)
  | [] => []
  | e :: es => ⟨[seqName index], e⟩ :: bindings (index + 1) es

def taskGets (m : Meta) (index : Nat) : List Expr → List Expr
  | [] => []
  | e :: es =>
      if e.isAsyncTask then get m (varAccess m (seqName index)) :: taskGets m (index + 1) es
      else taskGets m (index + 1) es

def desugarBody : Expr → Expr
  | seq m eseq => letE m (bindings 0 eseq) (seq m (taskGets m 0 eseq))
  | e => e

def stringObjectType : Ty := Ty.typ (.clazz ⟨"String".toList, [], none⟩ .passive)

def isStringObjectType (ty : Ty) : Bool := ty == stringObjectType

def isArrayType : Ty → Bool
  | .mk (.container .array _) _ _ => true
  | _ => false

def desugarNew (m : Meta) (ty : Ty) (args : List Expr) : Expr :=
  match args with
  | [arg] =>
      if isArrayType ty then node m (.arrayNew ty.getResultType) [arg]
      else if ty.isRefType ∧ ty.getId = some "String".toList then
        match arg with
        | node m' (.newWithInit ty') [arg'] =>
            if isStringObjectType ty' then node m' (.newWithInit ty') [arg'] else node m (.newWithInit ty) args
        | _ => node m (.newWithInit ty) args
      else node m (.newWithInit ty) args
  | _ => node m (.newWithInit ty) args

def desugar (printer : Printer) : Expr → Expr
  | seq m eseq => seq m (expandMiniLets eseq)
  | functionCall m name args => desugarCall printer m name args
  | node m .ifThen [cond, thn] => node m .ifThenElse [cond, thn, skip (cloneMeta m)]
  | node m .unlessE [cond, thn] =>
      node m .ifThenElse [node (cloneMeta m) (.unary .not) [cond], thn, skip (cloneMeta m)]
  | repeatE m name times body => desugarRepeat m name times body
  | finishAsync m body => seq m [desugarBody body]
  | foreach m item arr body => desugarForeach m item arr body
  | node m (.new ty) [] => node m (.newWithInit ty) []
  | node m (.newWithInit ty) args => desugarNew m ty args
  | node m (.stringLiteral text) [] =>
      node m (.newWithInit stringObjectType)
        [node m (.embed (Ty.typ (.ctype "char*".toList)) (printer.showString text ++ [';'])) []]
  | e => e

def desugarExpr (printer : Printer) (e : Expr) : Expr :=
  extend (desugar printer) (extend (selfSugar printer) e)

end Expr

end Lfmr.Ast
