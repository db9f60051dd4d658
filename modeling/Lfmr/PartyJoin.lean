import Mathlib.Data.List.Forall2
import Lfmr.Party

/-!
# Flattening parallel collections of parallel collections

A `value_t` has no type at run time: it is data, or a pointer to a node of a collection, and `party_join`
takes whatever is in a collection for such a pointer. A word here is one or the other. A pointer to a node
is the node, and a future what it will be fulfilled with.

Following a pointer that does not lead to a node is a fault. Copying one is not.
-/

namespace Lfmr.PartyJoin

open Lfmr.Party (ArrayT listToArray)

variable {δ : Type}

inductive Word (δ : Type)
  | data (data : δ)
  | value (val : Word δ)
  | future (fut : Word δ)
  | futurePar (fut : Word δ)
  | par (left right : Word δ)
  | array (array : List (Word δ))

inductive Fault
  | badPointer
  | failure (failure : Party.Failure)
  deriving DecidableEq

def newParP (p1 p2 : Word δ) : Word δ := .par p2 p1

mutual

def partyJoin : Word δ → Except Fault (Word δ)
  | .data _ => .error .badPointer
  | .value val => .ok val
  | .future fut => .ok (.futurePar fut)
  | .par left right => do
      let pleft ← partyJoin left
      let pright ← partyJoin right
      return newParP pleft pright
  | .futurePar fut => do return .futurePar (← partyJoin fut)
  | .array array => do return .array (← partyJoinArray array)

/-- `party_join_array` is `party_sequence` with `closure_join`, which calls `party_join`. -/
def partyJoinArray : List (Word δ) → Except Fault (List (Word δ))
  | [] => .ok []
  | value :: rest => do
      let newValue ← partyJoin value
      return newValue :: (← partyJoinArray rest)

end

def extractHelper (list : List (Word δ)) : Word δ → Except Fault (List (Word δ))
  | .data _ => .error .badPointer
  | .value val => .ok (val :: list)
  | .future fut => .ok (fut :: list)
  | .par left right => do
      let tmpList ← extractHelper list left
      extractHelper tmpList right
  | .futurePar fut => extractHelper list fut
  | .array array => .ok (array.foldl (fun newList value => value :: newList) list)

def partyExtract (memory : Nat → Word δ) (p : Word δ) : Except Fault (ArrayT (Word δ)) := do
  let list ← extractHelper [] p
  (listToArray memory list).mapError .failure

def IsPar (IsElem : Word δ → Prop) : Word δ → Prop
  | .data _ => False
  | .value val => IsElem val
  | .future fut => IsElem fut
  | .par left right => IsPar IsElem left ∧ IsPar IsElem right
  | .futurePar fut => IsPar IsElem fut
  | .array array => ∀ value ∈ array, IsElem value

def IsParPar : Word δ → Prop := IsPar (IsPar fun _ => True)

/-- The elements that `party_extract` returns are those of the collections that it returns for `pp`. -/
def Flattens (memory : Nat → Word δ) (pp : Word δ) : Prop :=
  ∃ joined result collections parts,
    partyJoin pp = .ok joined ∧ partyExtract memory joined = .ok result ∧
    partyExtract memory pp = .ok collections ∧
    List.Forall₂ (fun q part => partyExtract memory q = .ok part) collections.toList parts ∧
    result.toList.Perm (parts.flatMap ArrayT.toList)

def isValue : Word δ → Bool
  | .value _ => true
  | _ => false

def arraysOfValues : Word δ → Bool
  | .par left right => arraysOfValues left && arraysOfValues right
  | .futurePar fut => arraysOfValues fut
  | .array array => array.all isValue
  | _ => true

end Lfmr.PartyJoin
