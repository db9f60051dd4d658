import Lfmr.EncoreAst

/-!
# Free variables

`freeVariables` of `Util.hs`, which closure conversion uses to find what a closure captures, and the
scoping rules of the typechecker it has to agree with.
-/

namespace Lfmr.Ast

open Lfmr.Types (Name Ty)

def nubAfter {α : Type} [BEq α] (kept : List α) : List α → List α
  | [] => []
  | a :: as => if kept.any (· == a) then nubAfter kept as else a :: nubAfter (a :: kept) as

def nub {α : Type} [BEq α] (as : List α) : List α := nubAfter [] as

namespace Expr

/-- The arrow type a called name must have. There is none if a type it is made of is not known yet. -/
def arrType (emeta : Meta) (args : List Expr) : Option Ty := do
  let argTypes ← args.mapM getType
  let resultType ← emeta.metaType
  return Ty.typ (.arrow argTypes resultType)

mutual

def freeVariables' (bound : List Name) : Expr → List (Name × Option Ty)
  | matchE _ arg clauses => freeVariables' bound arg ++ clausesFreeVars bound clauses
  | varAccess m name => if name ∈ bound then [] else [(name, m.metaType)]
  | functionCall m name args =>
      if name ∈ bound then listFreeVars bound args
      else listFreeVars bound args ++ [(name, arrType m args)]
  | closure _ eparams body => freeVariables' (bound ++ eparams) body
  | letE _ decls body =>
      let (freeVars, bound') := fvDecls bound decls
      freeVars ++ freeVariables' bound' body
  | forE _ name step src body =>
      freeVariables' (name :: bound) step ++ freeVariables' (name :: bound) src ++
        freeVariables' (name :: bound) body
  | async _ body => freeVariables' bound body
  | foreach _ _ arr body => freeVariables' bound arr ++ freeVariables' bound body
  | finishAsync _ body => freeVariables' bound body
  | miniLet _ ⟨_, val⟩ => freeVariables' bound val
  | seq _ eseq => listFreeVars bound eseq
  | repeatE _ _ times body => freeVariables' bound times ++ freeVariables' bound body
  | get _ val => freeVariables' bound val
  | node _ _ children => listFreeVars bound children

def listFreeVars (bound : List Name) : List Expr → List (Name × Option Ty)
  | [] => []
  | e :: es => freeVariables' bound e ++ listFreeVars bound es

/-- The fold goes from the last declaration to the first. -/
def fvDecls (bound : List Name) : List (Decl Expr) → List (Name × Option Ty) × List Name
  | [] => ([], bound)
  | ⟨vars, val⟩ :: decls =>
      let (free, bound') := fvDecls bound decls
      (freeVariables' (vars ++ bound') val ++ free, vars ++ bound')

def clausesFreeVars (bound : List Name) : List (MatchClause Expr) → List (Name × Option Ty)
  | [] => []
  | ⟨pattern, handler, guard⟩ :: clauses =>
      let boundInPattern := (freeVariables' [] pattern).map Prod.fst
      let bound' := boundInPattern ++ bound
      freeVariables' bound' guard ++ freeVariables' bound' handler ++ clausesFreeVars bound clauses

end

def freeVariables (bound : List Name) (e : Expr) : List (Name × Option Ty) :=
  nub (freeVariables' bound e)

/-! ### The scoping rules

Which names a node binds in which of its children, as the typechecker has it. -/

mutual

def patternVars : Expr → List Name
  | varAccess _ name => [name]
  | functionCall _ _ args => patternsVars args
  | node _ .justData children => patternsVars children
  | node _ .tuple children => patternsVars children
  | node _ (.typedExpr _) children => patternsVars children
  | _ => []

def patternsVars : List Expr → List Name
  | [] => []
  | e :: es => patternVars e ++ patternsVars es

end

def declared : Expr → List Name
  | miniLet _ decl => decl.vars
  | _ => []

def statementScopes (before : List Name) : List Expr → List (List Name × Expr)
  | [] => []
  | e :: es => (before, e) :: statementScopes (before ++ e.declared) es

def declScopes (before : List Name) : List (Decl Expr) → List (List Name × Expr)
  | [] => []
  | decl :: decls => (before, decl.val) :: declScopes (before ++ decl.vars) decls

def clauseScopes (bindings : Expr → List Name) (clause : MatchClause Expr) : List (List Name × Expr) :=
  [(bindings clause.mcpattern, clause.mcguard), (bindings clause.mcpattern, clause.mchandler)]

mutual

/-- The names after `=>` of a `CAT`, which the typechecker passes on through `not` to the `if`. It does so for
targets of reference type. -/
def condNames : Expr → List Name
  | node _ (.cat names) (target :: _) => if target.getType.any Ty.isRefType then names else []
  | node _ (.unary _) operands => operandNames operands
  | _ => []

def operandNames : List Expr → List Name
  | [operand] => condNames operand
  | _ => []

end

def thenNames : Expr → List Name
  | node _ (.unary .not) _ => []
  | cond => condNames cond

def elseNames : Expr → List Name
  | node _ (.unary .not) operands => operandNames operands
  | _ => []

/-- The children a name can be free in, each with the names the node binds there. A pattern is not among
them: its names are the ones it binds. -/
def scopes : Expr → List (List Name × Expr)
  | closure _ eparams body => [(eparams, body)]
  | foreach _ item arr body => [([], arr), ([item], body)]
  | letE _ decls body => declScopes [] decls ++ [(decls.flatMap Decl.vars, body)]
  | seq _ eseq => statementScopes [] eseq
  | repeatE _ name times body => [([], times), ([name], body)]
  | forE _ name step src body => [([], step), ([], src), ([name], body)]
  | matchE _ arg clauses => ([], arg) :: clauses.flatMap (clauseScopes patternVars)
  | node _ .ifThenElse [cond, thn, els] => [([], cond), (thenNames cond, thn), (elseNames cond, els)]
  | node _ .ifThen [cond, thn] => [([], cond), (thenNames cond, thn)]
  | e => e.getChildren.map fun child => ([], child)

def occurrence : Expr → Option Name
  | varAccess _ name => some name
  | functionCall _ name _ => some name
  | _ => none

def reservedNames : List Name :=
  ["shared", "passive", "class", "def", "stream", "int", "string", "char", "real", "bool", "void", "let", "in", "if",
    "unless", "then", "else", "repeat", "for", "while", "get", "yield", "eos", "getNext", "new", "this", "await",
    "suspend", "and", "or", "not", "true", "false", "null", "embed", "body", "end", "where", "Fut", "Par", "Stream",
    "import", "qualified", "bundle", "peer", "finish", "trait", "require", "val", "Maybe", "Just", "Nothing", "match",
    "with", "when", "liftf", "liftv", "each", "typedef", "unsafe", "linear", "consume", "borrowed", "return"].map
    String.toList

/-- `varlkpParser`: an identifier in `#\x7b` and `\x7d`. -/
def varlkp : List Char → Option Name
  | '#' :: '\x7b' :: rest =>
      let identLetter := fun c : Char => c.isAlphanum || c == '_' || c == '\''
      let name := rest.takeWhile identLetter
      let after := (rest.dropWhile identLetter).dropWhile Char.isWhitespace
      if name.head?.any Char.isAlpha && !reservedNames.contains name && after.head? == some '\x7d' then some name
      else none
  | _ => none

/-- The variables that embedded code refers to. None of them begins inside another. -/
def interpolated : List Char → List Name
  | [] => []
  | c :: code => (varlkp (c :: code)).toList ++ interpolated code

def lookups : Expr → List Name
  | node _ (.embed _ code) [] => interpolated code
  | _ => []

/-- The name has an occurrence in the expression that nothing around it in the expression binds. -/
inductive Free : Expr → Name → Prop
  | here {e : Expr} {x : Name} (hname : e.occurrence = some x) : Free e x
  | embedded {e : Expr} {x : Name} (hname : x ∈ e.lookups) : Free e x
  | inside {e child : Expr} {bound : List Name} {x : Name} (hscope : (bound, child) ∈ e.scopes)
      (hfree : Free child x) (hbound : x ∉ bound) : Free e x

def CollectsFree (e : Expr) : Prop :=
  ∀ (bound : List Name) (x : Name), x ∈ (freeVariables bound e).map Prod.fst ↔ Free e x ∧ x ∉ bound

def Exposes (occurs : Expr → Name → Prop) (scopes : List (List Name × Expr)) (x : Name) : Prop :=
  ∃ scope ∈ scopes, occurs scope.2 x ∧ x ∉ scope.1

/-- The names `fvDecls` has as bound in a right-hand side: those of its own declaration and of the later
ones. -/
def foldedScopes : List (Decl Expr) → List (List Name × Expr)
  | [] => []
  | decl :: decls => (decl.vars ++ decls.flatMap Decl.vars, decl.val) :: foldedScopes decls

def ScopedAlike : Expr → Prop
  | letE _ decls _ => ∀ x, Exposes Free (declScopes [] decls) x ↔ Exposes Free (foldedScopes decls) x
  | forE _ name step src _ => ¬ Free step name ∧ ¬ Free src name
  | matchE _ arg clauses => ∀ x, ¬ Free arg x →
      ((∃ clause ∈ clauses, (Free clause.mcguard x ∨ Free clause.mchandler x) ∧
          x ∉ clause.mcpattern.patternVars) ↔
        (∃ clause ∈ clauses, (Free clause.mcguard x ∨ Free clause.mchandler x) ∧
          ¬ Free clause.mcpattern x))
  | repeatE _ name times body => Free body name → Free times name
  | foreach _ item arr body => Free body item → Free arr item
  | seq _ eseq => ∀ x, (∃ e ∈ eseq, Free e x) → Exposes Free (statementScopes [] eseq) x
  | node _ .ifThenElse [cond, thn, els] => (∀ x ∈ thenNames cond, Free thn x → Free cond x ∨ Free els x) ∧
      ∀ x ∈ elseNames cond, Free els x → Free cond x ∨ Free thn x
  | node _ .ifThen [cond, thn] => ∀ x ∈ thenNames cond, Free thn x → Free cond x
  | node _ (.embed _ code) [] => interpolated code = []
  | _ => True

end Expr

end Lfmr.Ast
