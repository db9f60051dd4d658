import Lfmr.Collections.DependencyOrder
import Lfmr.Programs.Abortable
import Mathlib.Data.List.AList

/-!
# Importing modules

`ModuleExpander.hs`. The modules are a finite map from qualified names to parsed programs, in place of the import
directories. The checker is any function that may abort; its calls are logged. Recursion goes to a given depth.
-/

namespace Lfmr.ModuleExpander

open Lfmr.Collections.DependencyOrder
open Lfmr.Programs

abbrev Name := List Char

abbrev QName := List Name

structure Program (ρ : Type) where
  imports : List QName
  rest : ρ

abbrev ModuleMap (ρ : Type) := AList fun _ : QName => Program ρ

inductive Abort (ε : Type)
  | importsItself (target : QName)
  | notFound (target : QName)
  | checker (error : ε)

def qname2string : QName → List Char
  | [] => []
  | [a] => a
  | a :: as => a ++ ['.'] ++ qname2string as

namespace Abort

def message {ε : Type} (showError : ε → List Char) : Abort ε → List Char
  | importsItself target =>
      "Module \"".toList ++ qname2string target ++ "\" imports itself recursively! Aborting.".toList
  | notFound target =>
      "Module \"".toList ++ qname2string target ++ "\" cannot be found in imports! Aborting.".toList
  | checker error => showError error

end Abort

section

variable {ε env ρ : Type}

structure Call (env ρ : Type) where
  target : QName
  newEnv : env
  pp : Program ρ

abbrev Importing (ε env ρ : Type) := Abortable (List (Call env ρ)) (Abort ε)

abbrev Checker (ε env ρ : Type) := env → Program ρ → Except ε (env × Program ρ)

def importOne (modules : ModuleMap ρ) (target : QName) : Importing ε env ρ (Program ρ) :=
  match modules.lookup target with
  | none => throw (.notFound target)
  | some ast => pure ast

def stdLib : List QName := [["String".toList]]

def addStdLib (target : QName) (ast : Program ρ) : Program ρ :=
  if qname2string target = "String".toList then ast
  else { ast with imports := ast.imports ++ stdLib }

def callChecker (checker : Checker ε env ρ) (target : QName) (newEnv : env) (pp : Program ρ) :
    Importing ε env ρ (env × Program ρ) := do
  modify (· ++ [⟨target, newEnv, pp⟩])
  match checker newEnv pp with
  | .error error => throw (.checker error)
  | .ok checked => pure checked

def performImport (modules : ModuleMap ρ)
    (importAndCheckProgram : ModuleMap ρ → env → QName → Program ρ → Importing ε env ρ (ModuleMap ρ × env))
    (tables : ModuleMap ρ × env) (target : QName) : Importing ε env ρ (ModuleMap ρ × env) :=
  if target ∈ tables.1 then pure tables
  else do
    let impl ← importOne modules target
    importAndCheckProgram tables.1 tables.2 target impl

def importAndCheckProgram (checker : Checker ε env ρ) (modules : ModuleMap ρ) :
    Nat → List QName → ModuleMap ρ → env → QName → Program ρ → Importing ε env ρ (ModuleMap ρ × env)
  | 0, _, _, _, _, _ => Abortable.stuck
  | depth + 1, seen, importTable, env, target, prg =>
      if target ∈ seen then throw (.importsItself target)
      else do
        let pp := addStdLib target prg
        let tables ← pp.imports.foldlM
          (performImport modules (importAndCheckProgram checker modules depth (target :: seen))) (importTable, env)
        let checked ← callChecker checker target tables.2 pp
        pure (tables.1.insert target checked.2, checked.1)

def importAndCheckModules (checker : Checker ε env ρ) (modules : ModuleMap ρ) (emptyEnv : env) (p : Program ρ)
    (depth : Nat) : Importing ε env ρ (ModuleMap ρ) := do
  let tables ← importAndCheckProgram checker modules depth [] ∅ emptyEnv [] p
  pure tables.1

def program (modules : ModuleMap ρ) (p : Program ρ) (target : QName) : Option (Program ρ) :=
  if target = [] then some p else modules.lookup target

def importsOf (modules : ModuleMap ρ) (p : Program ρ) (target : QName) : List QName :=
  match program modules p target with
  | none => []
  | some prg => (addStdLib target prg).imports

/-- The module is imported by the top-level module, directly or not, or is the top-level module. -/
def Reachable (modules : ModuleMap ρ) (p : Program ρ) (target : QName) : Prop :=
  Relation.ReflTransGen (DependsOn (importsOf modules p)) [] target

/-- The calls so far are of reachable modules, each once and after those it imports, with its own program. -/
structure InOrder (modules : ModuleMap ρ) (p : Program ρ) (calls : List (Call env ρ)) : Prop where
  ordered : Ordered (importsOf modules p) (calls.map Call.target)
  reachable : ∀ call ∈ calls, Reachable modules p call.target
  given : ∀ call ∈ calls, (program modules p call.target).map (addStdLib call.target) = some call.pp

/-- Each call is given the environment that the call before it returned. -/
inductive Chained (checker : Checker ε env ρ) (emptyEnv : env) : List (Call env ρ) → env → Prop
  | nil : Chained checker emptyEnv [] emptyEnv
  | snoc {calls : List (Call env ρ)} {call : Call env ρ} {checked : env × Program ρ}
      (before : Chained checker emptyEnv calls call.newEnv) (returned : checker call.newEnv call.pp = .ok checked) :
      Chained checker emptyEnv (calls ++ [call]) checked.1

def Stored (checker : Checker ε env ρ) (importTable : ModuleMap ρ) (call : Call env ρ) : Prop :=
  ∃ checked, checker call.newEnv call.pp = .ok checked ∧ importTable.lookup call.target = some checked.2

structure Imports (checker : Checker ε env ρ) (modules : ModuleMap ρ) (emptyEnv : env) (p : Program ρ)
    (ended : Except (Abort ε) (ModuleMap ρ) × List (Call env ρ)) : Prop where
  inOrder : InOrder modules p ended.2
  /-- Without a cycle every reachable module is checked, if it is there and no call of the checker aborts. -/
  acyclic : (∀ target, Reachable modules p target → ¬ OnCycle (importsOf modules p) target) →
    (∀ target, Reachable modules p target → (program modules p target).isSome) →
    (∀ call ∈ ended.2, (checker call.newEnv call.pp).isOk) →
    ∃ importTable newerEnv, ended.1 = .ok importTable ∧ Chained checker emptyEnv ended.2 newerEnv ∧
      (∀ call ∈ ended.2, Stored checker importTable call) ∧
      ∀ target, (target ∈ ended.2.map Call.target ↔ Reachable modules p target) ∧
        (target ∈ importTable ↔ Reachable modules p target)
  cyclic : ∀ target, Reachable modules p target → OnCycle (importsOf modules p) target →
    ∃ abort, ended.1 = .error abort

end

end Lfmr.ModuleExpander
