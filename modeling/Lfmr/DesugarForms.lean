import Lfmr.Desugarer
import Lfmr.FullAst

/-!
# Before and after desugaring

The passes are modelled on expressions that keep only some constructors apart; `compact` takes every
expression to one of these. What the parser makes, and what the passes after desugaring rely on, are
properties of all nodes of an expression.
-/

namespace Lfmr.FullAst.Expr

open Lfmr.Ast (Decl MatchClause)

mutual

def compact : Expr → Ast.Expr
  | skip m => .node m .skip []
  | returnE m val => .node m .returnE [compact val]
  | breakE m => .node m .breakE []
  | typedExpr m body ty => .node m (.typedExpr ty) [compact body]
  | methodCall m target name args => .node m (.methodCall name) (compact target :: compactList args)
  | messageSend m target name args => .node m (.messageSend name) (compact target :: compactList args)
  | functionCall m name args => .functionCall m name (compactList args)
  | closure m eparams body => .closure m eparams (compact body)
  | liftf m val => .node m .liftf [compact val]
  | liftv m val => .node m .liftv [compact val]
  | partyJoin m val => .node m .partyJoin [compact val]
  | partyExtract m val => .node m .partyExtract [compact val]
  | partyEach m val => .node m .partyEach [compact val]
  | partySeq m par seqfunc => .node m .partySeq [compact par, compact seqfunc]
  | partyPar m parl parr => .node m .partyPar [compact parl, compact parr]
  | async m body => .async m (compact body)
  | maybeValue m (.justData e) => .node m .justData [compact e]
  | maybeValue m .nothingData => .node m .nothingData []
  | tuple m args => .node m .tuple (compactList args)
  | foreach m item arr body => .foreach m item (compact arr) (compact body)
  | finishAsync m body => .finishAsync m (compact body)
  | letE m decls body => .letE m (compactDecls decls) (compact body)
  | miniLet m ⟨vars, val⟩ => .miniLet m ⟨vars, compact val⟩
  | seq m eseq => .seq m (compactList eseq)
  | ifThenElse m cond thn els => .node m .ifThenElse [compact cond, compact thn, compact els]
  | ifThen m cond thn => .node m .ifThen [compact cond, compact thn]
  | unlessE m cond thn => .node m .unlessE [compact cond, compact thn]
  | whileE m cond body => .node m .whileE [compact cond, compact body]
  | repeatE m name times body => .repeatE m name (compact times) (compact body)
  | forE m name step src body => .forE m name (compact step) (compact src) (compact body)
  | matchE m arg clauses => .matchE m (compact arg) (compactClauses clauses)
  | cat m args names => .node m (.cat names) (compactList args)
  | tryAssign m target arg => .node m .tryAssign [compact target, compact arg]
  | freeze m target => .node m .freeze [compact target]
  | isFrozen m target => .node m .isFrozen [compact target]
  | get m val => .get m (compact val)
  | yield m val => .node m .yield [compact val]
  | eos m => .node m .eos []
  | isEos m target => .node m .isEos [compact target]
  | streamNext m target => .node m .streamNext [compact target]
  | await m val => .node m .await [compact val]
  | suspend m => .node m .suspend []
  | futureChain m future chain => .node m .futureChain [compact future, compact chain]
  | fieldAccess m target name => .node m (.fieldAccess name) [compact target]
  | arrayAccess m target index => .node m .arrayAccess [compact target, compact index]
  | arraySize m target => .node m .arraySize [compact target]
  | arrayNew m ty size => .node m (.arrayNew ty) [compact size]
  | arrayLiteral m args => .node m .arrayLiteral (compactList args)
  | assign m lhs rhs => .node m .assign [compact lhs, compact rhs]
  | varAccess m name => .varAccess m name
  | consume m target => .node m .consume [compact target]
  | null m => .node m .null []
  | bTrue m => .node m .bTrue []
  | bFalse m => .node m .bFalse []
  | newWithInit m ty args => .node m (.newWithInit ty) (compactList args)
  | new m ty => .node m (.new ty) []
  | peer m ty => .node m (.peer ty) []
  | print m args => .node m .print (compactList args)
  | speculate m arg => .node m .speculate [compact arg]
  | exit m args => .node m .exit (compactList args)
  | stringLiteral m stringLit => .node m (.stringLiteral stringLit) []
  | charLiteral m charLit => .node m (.charLiteral charLit) []
  | rangeLiteral m start stop step => .node m .rangeLiteral [compact start, compact stop, compact step]
  | intLiteral m intLit => .node m (.intLiteral intLit) []
  | realLiteral m _ => .node m .realLiteral []
  | embed m ty code => .node m (.embed ty code) []
  | unary m uop operand => .node m (.unary uop) [compact operand]
  | binop m op loper roper => .node m (.binop op) [compact loper, compact roper]

def compactList : List Expr → List Ast.Expr
  | [] => []
  | e :: es => compact e :: compactList es

def compactDecls : List (Decl Expr) → List (Decl Ast.Expr)
  | [] => []
  | ⟨vars, val⟩ :: decls => ⟨vars, compact val⟩ :: compactDecls decls

def compactClauses : List (MatchClause Expr) → List (MatchClause Ast.Expr)
  | [] => []
  | ⟨pattern, handler, guard⟩ :: clauses => ⟨compact pattern, compact handler, compact guard⟩ :: compactClauses clauses

end

end Lfmr.FullAst.Expr

namespace Lfmr.Ast.Expr

def AllNodes (property : Expr → Prop) (e : Expr) : Prop := ∀ sub, Within sub e → property sub

/-- A sequence has a statement; only a statement of a sequence may be a declaration. -/
def parsedNode : Expr → Bool
  | seq _ eseq => !eseq.isEmpty
  | e => e.getChildren.all (!·.isMiniLet)

structure Parsed (e : Expr) : Prop where
  root : e.isMiniLet = false
  nodes : e.AllNodes (parsedNode · = true)

def normalNode : Expr → Bool
  | miniLet _ _ | repeatE _ _ _ _ | foreach _ _ _ _ | finishAsync _ _ => false
  | node _ .ifThen _ | node _ .unlessE _ | node _ (.new _) _ => false
  | seq _ eseq => !eseq.isEmpty
  | _ => true

def Normal (e : Expr) : Prop := e.AllNodes (normalNode · = true)

/-- A block of `finish` starts a task before its first declaration, and a `finish` right in another one is a
`finish` of a task. -/
def startsTask : Expr → Bool
  | finishAsync _ (seq _ eseq) => (eseq.takeWhile (!·.isMiniLet)).any isAsyncTask
  | finishAsync _ (finishAsync _ body) => body.isAsyncTask
  | _ => true

def StartsTasks (e : Expr) : Prop := e.AllNodes (startsTask · = true)

end Lfmr.Ast.Expr
