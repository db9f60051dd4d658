import Lfmr.EncoreTypes

/-!
# The expressions of Encore

`Expr` of `AST.hs`, with the traversal of `Util.hs`. The constructors that bind a name, and those that a
pass looks at on its own, are kept apart; all others are a `node`, which has its children in the order of
`getChildren`.
-/

namespace Lfmr.Ast

open List

open Lfmr.Types (Name Ty)

abbrev SourcePos := Nat × Nat

/-- What a node carries beside its children. The expression it was before desugaring is kept as the text
it is printed as. -/
structure Meta where
  sourcePos : SourcePos
  metaType : Option Ty
  sugared : Option (List Char)

def Meta.meta (pos : SourcePos) : Meta := ⟨pos, none, none⟩

def cloneMeta (m : Meta) : Meta := Meta.meta m.sourcePos

inductive UnaryOp
  | not
  | neg
  deriving DecidableEq

inductive BinaryOp
  | and
  | or
  | lt
  | gt
  | lte
  | gte
  | eq
  | neq
  | plus
  | minus
  | times
  | div
  | mod
  deriving DecidableEq

inductive NodeKind
  | skip
  | returnE
  | breakE
  | typedExpr (ty : Ty)
  | methodCall (name : Name)
  | messageSend (name : Name)
  | liftf
  | liftv
  | partyJoin
  | partyExtract
  | partyEach
  | partySeq
  | partyPar
  | justData
  | nothingData
  | tuple
  | ifThenElse
  | ifThen
  | unlessE
  | whileE
  | cat (names : List Name)
  | tryAssign
  | freeze
  | isFrozen
  | yield
  | eos
  | isEos
  | streamNext
  | await
  | suspend
  | futureChain
  | fieldAccess (name : Name)
  | arrayAccess
  | arraySize
  | arrayNew (ty : Ty)
  | arrayLiteral
  | assign
  | consume
  | null
  | bTrue
  | bFalse
  | newWithInit (ty : Ty)
  | new (ty : Ty)
  | peer (ty : Ty)
  | print
  | speculate
  | exit
  | stringLiteral (stringLit : List Char)
  | charLiteral (charLit : Char)
  | rangeLiteral
  | intLiteral (intLit : Int)
  | realLiteral
  | embed (ty : Ty) (code : List Char)
  | unary (uop : UnaryOp)
  | binop (binop : BinaryOp)

structure Decl (α : Type) where
  vars : List Name
  val : α

structure MatchClause (α : Type) where
  mcpattern : α
  mchandler : α
  mcguard : α

inductive Expr
  | varAccess (emeta : Meta) (name : Name)
  | functionCall (emeta : Meta) (name : Name) (args : List Expr)
  | closure (emeta : Meta) (eparams : List Name) (body : Expr)
  | async (emeta : Meta) (body : Expr)
  | foreach (emeta : Meta) (item : Name) (arr body : Expr)
  | finishAsync (emeta : Meta) (body : Expr)
  | letE (emeta : Meta) (decls : List (Decl Expr)) (body : Expr)
  | miniLet (emeta : Meta) (decl : Decl Expr)
  | seq (emeta : Meta) (eseq : List Expr)
  | repeatE (emeta : Meta) (name : Name) (times body : Expr)
  | forE (emeta : Meta) (name : Name) (step src body : Expr)
  | matchE (emeta : Meta) (arg : Expr) (clauses : List (MatchClause Expr))
  | get (emeta : Meta) (val : Expr)
  | node (emeta : Meta) (kind : NodeKind) (children : List Expr)

namespace Expr

def emeta : Expr → Meta
  | varAccess m _ | functionCall m _ _ | closure m _ _ | async m _ | foreach m _ _ _ | finishAsync m _
  | letE m _ _ | miniLet m _ | seq m _ | repeatE m _ _ _ | forE m _ _ _ _ | matchE m _ _ | get m _
  | node m _ _ => m

def sourcePos (e : Expr) : SourcePos := e.emeta.sourcePos

def getType (e : Expr) : Option Ty := e.emeta.metaType

def getChildren : Expr → List Expr
  | varAccess _ _ => []
  | functionCall _ _ args => args
  | closure _ _ body => [body]
  | async _ body => [body]
  | foreach _ _ arr body => [arr, body]
  | finishAsync _ body => [body]
  | letE _ decls body => body :: decls.map Decl.val
  | miniLet _ decl => [decl.val]
  | seq _ eseq => eseq
  | repeatE _ _ times body => [times, body]
  | forE _ _ step src body => [step, src, body]
  | matchE _ arg clauses =>
      arg :: clauses.flatMap fun clause => [clause.mcpattern, clause.mchandler, clause.mcguard]
  | get _ val => [val]
  | node _ _ children => children

mutual

def extend (f : Expr → Expr) : Expr → Expr
  | varAccess m name => f (varAccess m name)
  | functionCall m name args => f (functionCall m name (extendList f args))
  | closure m eparams body => f (closure m eparams (extend f body))
  | async m body => f (async m (extend f body))
  | foreach m item arr body => f (foreach m item (extend f arr) (extend f body))
  | finishAsync m body => f (finishAsync m (extend f body))
  | letE m decls body => f (letE m (extendDecls f decls) (extend f body))
  | miniLet m ⟨vars, val⟩ => f (miniLet m ⟨vars, extend f val⟩)
  | seq m eseq => f (seq m (extendList f eseq))
  | repeatE m name times body => f (repeatE m name (extend f times) (extend f body))
  | forE m name step src body => f (forE m name (extend f step) (extend f src) (extend f body))
  | matchE m arg clauses => f (matchE m (extend f arg) (extendClauses f clauses))
  | get m val => f (get m (extend f val))
  | node m kind children => f (node m kind (extendList f children))

def extendList (f : Expr → Expr) : List Expr → List Expr
  | [] => []
  | e :: es => extend f e :: extendList f es

def extendDecls (f : Expr → Expr) : List (Decl Expr) → List (Decl Expr)
  | [] => []
  | ⟨vars, val⟩ :: decls => ⟨vars, extend f val⟩ :: extendDecls f decls

def extendClauses (f : Expr → Expr) : List (MatchClause Expr) → List (MatchClause Expr)
  | [] => []
  | ⟨pattern, handler, guard⟩ :: clauses =>
      ⟨extend f pattern, extend f handler, extend f guard⟩ :: extendClauses f clauses

end

section

variable (f : Expr → Expr)

theorem extendList_eq_map (es : List Expr) : extendList f es = es.map (extend f) := by
  induction es with
  | nil => rfl
  | cons e es ih => rw [extendList, ih, map_cons]

theorem extendDecls_eq_map (decls : List (Decl Expr)) :
    extendDecls f decls = decls.map fun decl => ⟨decl.vars, extend f decl.val⟩ := by
  induction decls with
  | nil => rfl
  | cons decl decls ih => rw [extendDecls, ih, map_cons]

end

def Inherited (motive : Expr → Prop) : Prop :=
  ∀ e : Expr, (∀ child ∈ e.getChildren, motive child) → motive e

section

variable {motive : Expr → Prop}

mutual

theorem childInduction (step : Inherited motive) : ∀ e : Expr, motive e
  | varAccess _ _ => step _ nofun
  | functionCall _ _ args => step _ (childInductionList step args)
  | closure _ _ body | async _ body | finishAsync _ body => step _ (forall_mem_singleton.mpr (childInduction step body))
  | foreach _ _ arr body =>
    step _ (forall_mem_cons.mpr ⟨childInduction step arr, forall_mem_singleton.mpr (childInduction step body)⟩)
  | letE _ decls body =>
    step _ (forall_mem_cons.mpr ⟨childInduction step body, childInductionDecls step decls⟩)
  | miniLet _ ⟨_, val⟩ | get _ val => step _ (forall_mem_singleton.mpr (childInduction step val))
  | seq _ eseq => step _ (childInductionList step eseq)
  | repeatE _ _ times body =>
    step _ (forall_mem_cons.mpr ⟨childInduction step times, forall_mem_singleton.mpr (childInduction step body)⟩)
  | forE _ _ start src body =>
    step _ (forall_mem_cons.mpr ⟨childInduction step start, forall_mem_cons.mpr
      ⟨childInduction step src, forall_mem_singleton.mpr (childInduction step body)⟩⟩)
  | matchE _ arg clauses =>
    step _ (forall_mem_cons.mpr ⟨childInduction step arg, childInductionClauses step clauses⟩)
  | node _ _ children => step _ (childInductionList step children)

theorem childInductionList (step : Inherited motive) : ∀ (es : List Expr), ∀ child ∈ es, motive child
  | [] => nofun
  | e :: es => forall_mem_cons.mpr ⟨childInduction step e, childInductionList step es⟩

theorem childInductionDecls (step : Inherited motive) :
    ∀ (decls : List (Decl Expr)), ∀ child ∈ decls.map Decl.val, motive child
  | [] => nofun
  | ⟨_, val⟩ :: decls => forall_mem_cons.mpr ⟨childInduction step val, childInductionDecls step decls⟩

theorem childInductionClauses (step : Inherited motive) : ∀ (clauses : List (MatchClause Expr)),
    ∀ child ∈ clauses.flatMap fun clause => [clause.mcpattern, clause.mchandler, clause.mcguard], motive child
  | [] => nofun
  | ⟨pattern, handler, guard⟩ :: clauses =>
    forall_mem_cons.mpr ⟨childInduction step pattern, forall_mem_cons.mpr
      ⟨childInduction step handler, forall_mem_cons.mpr
        ⟨childInduction step guard, childInductionClauses step clauses⟩⟩⟩

end

end

inductive Within : Expr → Expr → Prop
  | self (e : Expr) : Within e e
  | child {sub child e : Expr} (hchild : child ∈ e.getChildren) (hsub : Within sub child) : Within sub e

end Expr

end Lfmr.Ast
