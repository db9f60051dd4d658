import Lfmr.Collections.ChildTree
import Lfmr.EncoreAst

/-!
# All expressions of Encore

`Expr` of `AST.hs` with every constructor, and the functions of `Util.hs` on the children of an expression.
-/

namespace Lfmr.FullAst

open Lfmr.Types (Name Ty)
open Lfmr.Ast (Meta UnaryOp BinaryOp Decl MatchClause)

inductive MaybeContainer (α : Type) where
  | justData (e : α)
  | nothingData

inductive Expr where
  | skip (emeta : Meta)
  | returnE (emeta : Meta) (val : Expr)
  | breakE (emeta : Meta)
  | typedExpr (emeta : Meta) (body : Expr) (ty : Ty)
  | methodCall (emeta : Meta) (target : Expr) (name : Name) (args : List Expr)
  | messageSend (emeta : Meta) (target : Expr) (name : Name) (args : List Expr)
  | functionCall (emeta : Meta) (name : Name) (args : List Expr)
  | closure (emeta : Meta) (eparams : List Name) (body : Expr)
  | liftf (emeta : Meta) (val : Expr)
  | liftv (emeta : Meta) (val : Expr)
  | partyJoin (emeta : Meta) (val : Expr)
  | partyExtract (emeta : Meta) (val : Expr)
  | partyEach (emeta : Meta) (val : Expr)
  | partySeq (emeta : Meta) (par seqfunc : Expr)
  | partyPar (emeta : Meta) (parl parr : Expr)
  | async (emeta : Meta) (body : Expr)
  | maybeValue (emeta : Meta) (mdt : MaybeContainer Expr)
  | tuple (emeta : Meta) (args : List Expr)
  | foreach (emeta : Meta) (item : Name) (arr body : Expr)
  | finishAsync (emeta : Meta) (body : Expr)
  | letE (emeta : Meta) (decls : List (Decl Expr)) (body : Expr)
  | miniLet (emeta : Meta) (decl : Decl Expr)
  | seq (emeta : Meta) (eseq : List Expr)
  | ifThenElse (emeta : Meta) (cond thn els : Expr)
  | ifThen (emeta : Meta) (cond thn : Expr)
  | unlessE (emeta : Meta) (cond thn : Expr)
  | whileE (emeta : Meta) (cond body : Expr)
  | repeatE (emeta : Meta) (name : Name) (times body : Expr)
  | forE (emeta : Meta) (name : Name) (step src body : Expr)
  | matchE (emeta : Meta) (arg : Expr) (clauses : List (MatchClause Expr))
  | cat (emeta : Meta) (args : List Expr) (names : List Name)
  | tryAssign (emeta : Meta) (target arg : Expr)
  | freeze (emeta : Meta) (target : Expr)
  | isFrozen (emeta : Meta) (target : Expr)
  | get (emeta : Meta) (val : Expr)
  | yield (emeta : Meta) (val : Expr)
  | eos (emeta : Meta)
  | isEos (emeta : Meta) (target : Expr)
  | streamNext (emeta : Meta) (target : Expr)
  | await (emeta : Meta) (val : Expr)
  | suspend (emeta : Meta)
  | futureChain (emeta : Meta) (future chain : Expr)
  | fieldAccess (emeta : Meta) (target : Expr) (name : Name)
  | arrayAccess (emeta : Meta) (target index : Expr)
  | arraySize (emeta : Meta) (target : Expr)
  | arrayNew (emeta : Meta) (ty : Ty) (size : Expr)
  | arrayLiteral (emeta : Meta) (args : List Expr)
  | assign (emeta : Meta) (lhs rhs : Expr)
  | varAccess (emeta : Meta) (name : Name)
  | consume (emeta : Meta) (target : Expr)
  | null (emeta : Meta)
  | bTrue (emeta : Meta)
  | bFalse (emeta : Meta)
  | newWithInit (emeta : Meta) (ty : Ty) (args : List Expr)
  | new (emeta : Meta) (ty : Ty)
  | peer (emeta : Meta) (ty : Ty)
  | print (emeta : Meta) (args : List Expr)
  | speculate (emeta : Meta) (arg : Expr)
  | exit (emeta : Meta) (args : List Expr)
  | stringLiteral (emeta : Meta) (stringLit : List Char)
  | charLiteral (emeta : Meta) (charLit : Char)
  | rangeLiteral (emeta : Meta) (start stop step : Expr)
  | intLiteral (emeta : Meta) (intLit : Int)
  | realLiteral (emeta : Meta) (realLit : Float)
  | embed (emeta : Meta) (ty : Ty) (code : List Char)
  | unary (emeta : Meta) (uop : UnaryOp) (operand : Expr)
  | binop (emeta : Meta) (op : BinaryOp) (loper roper : Expr)

namespace Expr

def getChildrenClause (clause : MatchClause Expr) : List Expr :=
  [clause.mcpattern, clause.mchandler, clause.mcguard]

def getChildren : Expr → List Expr
  | skip _ => []
  | returnE _ val => [val]
  | breakE _ => []
  | typedExpr _ body _ => [body]
  | methodCall _ target _ args => target :: args
  | messageSend _ target _ args => target :: args
  | functionCall _ _ args => args
  | closure _ _ body => [body]
  | liftf _ val => [val]
  | liftv _ val => [val]
  | partyJoin _ val => [val]
  | partyExtract _ val => [val]
  | partyEach _ val => [val]
  | partySeq _ par seqfunc => [par, seqfunc]
  | partyPar _ parl parr => [parl, parr]
  | async _ body => [body]
  | maybeValue _ (.justData e) => [e]
  | maybeValue _ .nothingData => []
  | tuple _ args => args
  | foreach _ _ arr body => [arr, body]
  | finishAsync _ body => [body]
  | letE _ decls body => body :: decls.map Decl.val
  | miniLet _ decl => [decl.val]
  | seq _ eseq => eseq
  | ifThenElse _ cond thn els => [cond, thn, els]
  | ifThen _ cond thn => [cond, thn]
  | unlessE _ cond thn => [cond, thn]
  | whileE _ cond body => [cond, body]
  | repeatE _ _ times body => [times, body]
  | forE _ _ step src body => [step, src, body]
  | matchE _ arg clauses => arg :: clauses.flatMap getChildrenClause
  | cat _ args _ => args
  | tryAssign _ target arg => [target, arg]
  | freeze _ target => [target]
  | isFrozen _ target => [target]
  | get _ val => [val]
  | yield _ val => [val]
  | eos _ => []
  | isEos _ target => [target]
  | streamNext _ target => [target]
  | await _ val => [val]
  | suspend _ => []
  | futureChain _ future chain => [future, chain]
  | fieldAccess _ target _ => [target]
  | arrayAccess _ target index => [target, index]
  | arraySize _ target => [target]
  | arrayNew _ _ size => [size]
  | arrayLiteral _ args => args
  | assign _ lhs rhs => [lhs, rhs]
  | varAccess _ _ => []
  | consume _ target => [target]
  | null _ => []
  | bTrue _ => []
  | bFalse _ => []
  | newWithInit _ _ args => args
  | new _ _ => []
  | peer _ _ => []
  | print _ args => args
  | speculate _ arg => [arg]
  | exit _ args => args
  | stringLiteral _ _ => []
  | charLiteral _ _ => []
  | rangeLiteral _ start stop step => [start, stop, step]
  | intLiteral _ _ => []
  | realLiteral _ _ => []
  | embed _ _ _ => []
  | unary _ _ operand => [operand]
  | binop _ _ loper roper => [loper, roper]

def wrongNumber {α : Type} (constructor number : String) : Except String α :=
  .error ("'putChildren l " ++ constructor ++ "' expects l to have " ++ number)

def putNone (constructor : String) (e : Expr) : List Expr → Except String Expr
  | [] => .ok e
  | _ => wrongNumber constructor "0 elements"

def putOne (constructor : String) (put : Expr → Expr) : List Expr → Except String Expr
  | [child] => .ok (put child)
  | _ => wrongNumber constructor "1 element"

def putTwo (constructor : String) (put : Expr → Expr → Expr) : List Expr → Except String Expr
  | [first, second] => .ok (put first second)
  | _ => wrongNumber constructor "2 elements"

def putThree (constructor : String) (put : Expr → Expr → Expr → Expr) : List Expr → Except String Expr
  | [first, second, third] => .ok (put first second third)
  | _ => wrongNumber constructor "3 elements"

def putAtLeastOne (constructor : String) (put : Expr → List Expr → Expr) : List Expr → Except String Expr
  | first :: rest => .ok (put first rest)
  | [] => wrongNumber constructor "at least 1 element"

def putClausesChildren : List Expr → List (MatchClause Expr) → Except String (List (MatchClause Expr))
  | [], [] => .ok []
  | pattern :: handler :: guard :: rest, _ :: clauses =>
      (putClausesChildren rest clauses).map (⟨pattern, handler, guard⟩ :: ·)
  | _, _ => .error "Util.hs: Wrong number of children of of match clause"

def putChildren (l : List Expr) : Expr → Except String Expr
  | skip m => putNone "Skip" (skip m) l
  | returnE m _ => putOne "Return" (returnE m) l
  | breakE m => putNone "Break" (breakE m) l
  | typedExpr m _ ty => putOne "TypedExpr" (fun body => typedExpr m body ty) l
  | methodCall m _ name _ => putAtLeastOne "MethodCall" (fun target args => methodCall m target name args) l
  | messageSend m _ name _ => putAtLeastOne "MessageSend" (fun target args => messageSend m target name args) l
  | functionCall m name _ => .ok (functionCall m name l)
  | closure m eparams _ => putOne "Closure" (closure m eparams) l
  | liftf m _ => putOne "Liftf" (liftf m) l
  | liftv m _ => putOne "Liftv" (liftv m) l
  | partyJoin m _ => putOne "PartyJoin" (partyJoin m) l
  | partyExtract m _ => putOne "PartyExtract" (partyExtract m) l
  | partyEach m _ => putOne "PartyEach" (partyEach m) l
  | partySeq m _ _ => putTwo "PartySeq" (partySeq m) l
  | partyPar m _ _ => putTwo "PartyPar" (partyPar m) l
  | async m _ => putOne "Async" (async m) l
  | maybeValue m (.justData _) => putOne "MaybeValue" (fun body => maybeValue m (.justData body)) l
  | maybeValue m .nothingData => match l with
      | [] => .ok (maybeValue m .nothingData)
      | _ => wrongNumber "MaybeValue" "1 element"
  | tuple m _ => .ok (tuple m l)
  | foreach m item _ _ => putTwo "Foreach" (foreach m item) l
  | finishAsync m _ => putOne "FinishAsync" (finishAsync m) l
  | letE m decls _ =>
      putAtLeastOne "Let" (fun body es => letE m (List.zipWith (fun decl e => ⟨decl.vars, e⟩) decls es) body) l
  | miniLet m decl => putOne "MiniLet" (fun val => miniLet m ⟨decl.vars, val⟩) l
  | seq m _ => .ok (seq m l)
  | ifThenElse m _ _ _ => putThree "IfThenElse" (ifThenElse m) l
  | ifThen m _ _ => putTwo "IfThen" (ifThen m) l
  | unlessE m _ _ => putTwo "Unless" (unlessE m) l
  | whileE m _ _ => putTwo "While" (whileE m) l
  | repeatE m name _ _ => putTwo "Repeat" (repeatE m name) l
  | forE m name _ _ _ => putThree "For" (forE m name) l
  | matchE m _ clauses => match l with
      | arg :: clauseList => (putClausesChildren clauseList clauses).map (matchE m arg)
      | [] => wrongNumber "Match" "1 element"
  | cat m _ names => .ok (cat m l names)
  | tryAssign m _ _ => putTwo "TryAssign" (tryAssign m) l
  | freeze m _ => putOne "Freeze" (freeze m) l
  | isFrozen m _ => putOne "IsFrozen" (isFrozen m) l
  | get m _ => putOne "Get" (get m) l
  | yield m _ => putOne "Yield" (yield m) l
  | eos m => putNone "Eos" (eos m) l
  | isEos m _ => putOne "IsEos" (isEos m) l
  | streamNext m _ => putOne "StreamNext" (streamNext m) l
  | await m _ => putOne "Await" (await m) l
  | suspend m => putNone "Suspend" (suspend m) l
  | futureChain m _ _ => putTwo "FutureChain" (futureChain m) l
  | fieldAccess m _ name => putOne "FieldAccess" (fun target => fieldAccess m target name) l
  | arrayAccess m _ _ => putTwo "ArrayAccess" (arrayAccess m) l
  | arraySize m _ => putOne "ArraySize" (arraySize m) l
  | arrayNew m ty _ => putOne "ArrayNew" (arrayNew m ty) l
  | arrayLiteral m _ => .ok (arrayLiteral m l)
  | assign m _ _ => putTwo "Assign" (assign m) l
  | varAccess m name => putNone "VarAccess" (varAccess m name) l
  | consume m _ => putOne "Consume" (consume m) l
  | null m => putNone "Null" (null m) l
  | bTrue m => putNone "BTrue" (bTrue m) l
  | bFalse m => putNone "BFalse" (bFalse m) l
  | newWithInit m ty _ => .ok (newWithInit m ty l)
  | new m ty => putNone "New" (new m ty) l
  | peer m ty => putNone "Peer" (peer m ty) l
  | print m _ => .ok (print m l)
  | speculate m _ => putOne "Speculate" (speculate m) l
  | exit m _ => .ok (exit m l)
  | stringLiteral m stringLit => putNone "StringLiteral" (stringLiteral m stringLit) l
  | charLiteral m charLit => putNone "CharLiteral" (charLiteral m charLit) l
  | rangeLiteral m _ _ _ => putThree "RangeLiteral" (rangeLiteral m) l
  | intLiteral m intLit => putNone "IntLiteral" (intLiteral m intLit) l
  | realLiteral m realLit => putNone "RealLiteral" (realLiteral m realLit) l
  | embed m ty code => putNone "Embed" (embed m ty code) l
  | unary m uop _ => putOne "Unary" (unary m uop) l
  | binop m op _ _ => putTwo "Binop" (binop m op) l

end Expr

end Lfmr.FullAst
