import Lfmr.Desugarer

/-!
# Running blocks of tasks

An actor runs an expression step by step: `async` gives a new future, `get` waits for the one its operand
gives. What any other expression gives, and which futures it waits for itself, is left to an oracle, as is
what a future is fulfilled with; a statement that does not end, or that leaves the method or, as `break` does,
a loop around the block, never gets to the end of the block. Nothing assigns to the variables that desugaring
makes up.
-/

namespace Lfmr.Ast

open Lfmr.Types (Name)

inductive Value
  | future (fut : Nat)
  | data (n : Int)

/-- What can be seen of a run: the futures that are made, with the position of the `async`, and those that
are waited for. -/
inductive Event
  | spawn (pos : SourcePos) (fut : Nat)
  | get (fut : Nat)

abbrev Store := List (Name × Value)

structure Outcome where
  value : Value
  next : Nat
  trace : List Event

structure Oracle where
  other : Expr → Store → Nat → Value × List Nat
  held : Nat → Value

namespace Oracle

def quiet : Oracle := ⟨fun _ _ _ => (.data 0, []), fun _ => .data 0⟩

def answer (oracle : Oracle) (e : Expr) (store : Store) (next : Nat) : Outcome :=
  let (value, waited) := oracle.other e store next
  ⟨value, next, waited.map Event.get⟩

end Oracle

def Outcome.awaited (oracle : Oracle) (operand : Outcome) : Outcome :=
  match operand.value with
  | .future fut => ⟨oracle.held fut, operand.next, operand.trace ++ [.get fut]⟩
  | .data n => ⟨.data n, operand.next, operand.trace⟩

def Outcome.before (first second : Outcome) : Outcome := { second with trace := first.trace ++ second.trace }

def Store.declare (store : Store) (vars : List Name) (value : Value) : Store :=
  vars.map (·, value) ++ store

namespace Expr

mutual

def exec (oracle : Oracle) : Expr → Store → Nat → Outcome
  | varAccess m name, store, next =>
      match store.lookup name with
      | some value => ⟨value, next, []⟩
      | none => oracle.answer (varAccess m name) store next
  | async m _, _, next => ⟨.future next, next + 1, [.spawn m.sourcePos next]⟩
  | get _ val, store, next => (exec oracle val store next).awaited oracle
  | letE _ decls body, store, next =>
      let (store', bound) := execDecls oracle decls store next
      bound.before (exec oracle body store' bound.next)
  | seq _ eseq, store, next => execSeq oracle eseq store (.data 0) next
  | e, store, next => oracle.answer e store next

def execDecls (oracle : Oracle) : List (Decl Expr) → Store → Nat → Store × Outcome
  | [], store, next => (store, ⟨.data 0, next, []⟩)
  | ⟨vars, val⟩ :: decls, store, next =>
      let bound := exec oracle val store next
      let (store', rest) := execDecls oracle decls (store.declare vars bound.value) bound.next
      (store', bound.before rest)

def execSeq (oracle : Oracle) : List Expr → Store → Value → Nat → Outcome
  | [], _, value, next => ⟨value, next, []⟩
  | e :: es, store, _, next =>
      let first := exec oracle e store next
      first.before (execSeq oracle es store first.value first.next)

end

def spine : Expr → List Expr
  | get _ val => [val]
  | letE _ decls body => body :: decls.map Decl.val
  | miniLet _ decl => [decl.val]
  | seq _ eseq => eseq
  | repeatE _ _ times _ => [times]
  | finishAsync _ body => [body]
  | _ => []

/-- Running the expression runs an `async` of this position. -/
inductive HasTask : Expr → SourcePos → Prop
  | here (m : Meta) (body : Expr) : HasTask (async m body) m.sourcePos
  | inside {e child : Expr} {pos : SourcePos} (hchild : child ∈ e.spine) (htask : HasTask child pos) :
      HasTask e pos

end Expr

def Awaited (trace : List Event) (pos : SourcePos) : Prop :=
  ∃ before after fut, trace = before ++ .spawn pos fut :: after ∧ .get fut ∈ after

/-- However the other expressions behave, the block waits for each `async` that is one of its statements. -/
def AwaitsTasks (printer : Printer) (m blockMeta : Meta) (block : List Expr) : Prop :=
  let finish := (Expr.finishAsync m (.seq blockMeta block)).desugarExpr printer
  ∀ task ∈ block, task.isAsyncTask = true →
    ∀ oracle store next, Awaited (finish.exec oracle store next).trace task.sourcePos

def DistinctTasks (block : List Expr) : Prop :=
  block.Pairwise fun s t => ∀ pos, s.HasTask pos → ¬ t.HasTask pos

end Lfmr.Ast
