import Mathlib.Data.Finset.Sort
import Lfmr.Collections.SearchTree

/-!
# The sets of `set.c`

A set is a search tree of nodes in memory, ordered by the addresses that are its elements. A cursor, a
`struct node **`, is the place of a pointer to a node: the `root` of a set, or the `left` or `right` of a
node. `ALLOC` returns memory that has not been in use, and `FREE` does nothing.

Loops and recursive calls are given one turn more than there are nodes; `none` is a call that has not returned
by then, or has followed a null pointer.
-/

namespace Lfmr.TreeSet

open Lfmr.Collections.SearchTree

abbrev Addr := Nat

abbrev SetAddr := Nat

/-- The elements are pointers of type `void *`, compared as such. -/
abbrev Elem := Nat

inductive Cursor
  | root (set : SetAddr)
  | left (node : Addr)
  | right (node : Addr)
  deriving DecidableEq

/-- What is in the nodes and sets; those with a number below `nodes` or `sets` have been allocated. -/
structure Memory where
  elem : Addr → Elem
  link : Cursor → Option Addr
  nodes : Nat
  sets : Nat

namespace Memory

def write (memory : Memory) (cursor : Cursor) (node : Option Addr) : Memory :=
  { memory with link := Function.update memory.link cursor node }

def turns (memory : Memory) : Nat := memory.nodes + 1

end Memory

def setMk (memory : Memory) : SetAddr × Memory :=
  (memory.sets, { memory.write (.root memory.sets) none with sets := memory.sets + 1 })

def nodeMk (memory : Memory) (elem : Elem) : Addr × Memory :=
  let node := memory.nodes
  let memory := { memory with nodes := node + 1, elem := Function.update memory.elem node elem }
  (node, (memory.write (.left node) none).write (.right node) none)

def search (memory : Memory) (elem : Elem) : Nat → Cursor → Option Cursor
  | 0, _ => none
  | fuel + 1, cursor =>
      match memory.link cursor with
      | none => some cursor
      | some node =>
          if memory.elem node = elem then some cursor
          else if memory.elem node > elem then search memory elem fuel (.left node)
          else search memory elem fuel (.right node)

def addNode (memory : Memory) (cursor : Cursor) (elem : Elem) : Memory :=
  let result := nodeMk memory elem
  result.2.write cursor (some result.1)

def setAdd (memory : Memory) (set : Option SetAddr) (elem : Elem) : Option (Bool × Memory) :=
  match set with
  | none => some (false, memory)
  | some set =>
      match memory.link (.root set) with
      | none => some (true, addNode memory (.root set) elem)
      | some _ => do
          let cursor ← search memory elem memory.turns (.root set)
          match memory.link cursor with
          | none => some (true, addNode memory cursor elem)
          | some _ => some (false, memory)

def elemLoop (memory : Memory) (elem : Elem) : Nat → Option Addr → Option Bool
  | 0, _ => none
  | _ + 1, none => some false
  | fuel + 1, some cursor =>
      if memory.elem cursor > elem then elemLoop memory elem fuel (memory.link (.left cursor))
      else if memory.elem cursor < elem then elemLoop memory elem fuel (memory.link (.right cursor))
      else some true

def setElem (memory : Memory) (set : Option SetAddr) (elem : Elem) : Option Bool :=
  match set with
  | none => some false
  | some set => elemLoop memory elem memory.turns (memory.link (.root set))

def minCursor (memory : Memory) : Nat → Cursor → Option Cursor
  | 0, _ => none
  | fuel + 1, cursor => do
      let node ← memory.link cursor
      match memory.link (.left node) with
      | none => some cursor
      | some _ => minCursor memory fuel (.left node)

def extractMin (memory : Memory) (fuel : Nat) (root : Cursor) : Option (Addr × Memory) := do
  let cursor ← minCursor memory fuel root
  let tmp ← memory.link cursor
  return (tmp, memory.write cursor (memory.link (.right tmp)))

def removeNode (memory : Memory) (nodePtr : Cursor) : Option Memory := do
  let tmp ← memory.link nodePtr
  match memory.link (.right tmp) with
  | none => return memory.write nodePtr (memory.link (.left tmp))
  | some _ =>
      let (newRoot, memory) ← extractMin memory memory.turns (.right tmp)
      let memory := memory.write (.left newRoot) (memory.link (.left tmp))
      let memory := memory.write (.right newRoot) (memory.link (.right tmp))
      return memory.write nodePtr (some newRoot)

def setRemove (memory : Memory) (set : Option SetAddr) (elem : Elem) : Option (Bool × Memory) :=
  match set with
  | none => some (false, memory)
  | some set =>
      match memory.link (.root set) with
      | none => some (false, memory)
      | some _ => do
          let cursor ← search memory elem memory.turns (.root set)
          match memory.link cursor with
          | none => some (false, memory)
          | some _ => return (true, ← removeNode memory cursor)

def nodeSubset (memory : Memory) (set : Option SetAddr) : Nat → Option Addr → Option Bool
  | 0, _ => none
  | _ + 1, none => some true
  | fuel + 1, some node => do
      if ← setElem memory set (memory.elem node) then
        if ← nodeSubset memory set fuel (memory.link (.left node)) then
          nodeSubset memory set fuel (memory.link (.right node))
        else some false
      else some false

def setSubset (memory : Memory) (sub super : Option SetAddr) : Option Bool :=
  match sub with
  | none => some false
  | some sub => nodeSubset memory super memory.turns (memory.link (.root sub))

def setEq (memory : Memory) (set other : Option SetAddr) : Option Bool := do
  if ← setSubset memory set other then setSubset memory other set else some false

/-- `*to` is null before the call. -/
def cloneNode : Nat → Memory → Option Addr → Cursor → Option Memory
  | 0, _, _, _ => none
  | _ + 1, memory, none, _ => some memory
  | fuel + 1, memory, some source, target => do
      let node := memory.nodes
      let memory := addNode memory target (memory.elem source)
      let memory ← cloneNode fuel memory (memory.link (.left source)) (.left node)
      cloneNode fuel memory (memory.link (.right source)) (.right node)

def setClone (memory : Memory) (set : Option SetAddr) : Option (Option SetAddr × Memory) :=
  match set with
  | none => some (none, memory)
  | some set => do
      let (newSet, memory) := setMk memory
      return (some newSet, ← cloneNode memory.turns memory (memory.link (.root set)) (.root newSet))

def nodeReduce {β : Type} (memory : Memory) (f : Elem → β → β) : Nat → Option Addr → β → Option β
  | 0, _, _ => none
  | _ + 1, none, acc => some acc
  | fuel + 1, some node, acc => do
      let left ← nodeReduce memory f fuel (memory.link (.left node)) acc
      let mid := f (memory.elem node) left
      nodeReduce memory f fuel (memory.link (.right node)) mid

def setReduce {β : Type} (memory : Memory) (set : SetAddr) (f : Elem → β → β) (init : β) : Option β :=
  nodeReduce memory f memory.turns (memory.link (.root set)) init

inductive Call
  | mk
  | add (set : SetAddr) (elem : Elem)
  | remove (set : SetAddr) (elem : Elem)
  | clone (set : SetAddr)

def Memory.init (elem : Addr → Elem) (link : Cursor → Option Addr) : Memory where
  elem := elem
  link := link
  nodes := 0
  sets := 0

def Call.perform (memory : Memory) : Call → Option (Option Bool × Memory)
  | .mk => some (none, (setMk memory).2)
  | .add set elem => (setAdd memory (some set) elem).map fun result => (some result.1, result.2)
  | .remove set elem => (setRemove memory (some set) elem).map fun result => (some result.1, result.2)
  | .clone set => (setClone memory (some set)).map fun result => (none, result.2)

def run : Memory → List Call → Option (List (Option Bool) × Memory)
  | memory, [] => some ([], memory)
  | memory, call :: calls => do
      let (answer, memory) ← call.perform memory
      let (answers, memory) ← run memory calls
      return (answer :: answers, memory)

abbrev Contents := List (Finset Elem)

def Call.specify (contents : Contents) : Call → Option (Option Bool × Contents)
  | .mk => some (none, contents ++ [∅])
  | .add set elem => (contents[set]?).map fun members =>
      (some (decide (elem ∉ members)), contents.set set (insert elem members))
  | .remove set elem => (contents[set]?).map fun members =>
      (some (decide (elem ∈ members)), contents.set set (members.erase elem))
  | .clone set => (contents[set]?).map fun members => (none, contents ++ [members])

def specification : Contents → List Call → Option (List (Option Bool) × Contents)
  | contents, [] => some ([], contents)
  | contents, call :: calls => do
      let (answer, contents) ← call.specify contents
      let (answers, contents) ← specification contents calls
      return (answer :: answers, contents)

/-- The pointer at the cursor leads to this tree. Nodes are named by their addresses. -/
def Holds (memory : Memory) (cursor : Cursor) : BinaryTree (Addr × Elem) → Prop
  | .nil => memory.link cursor = none
  | .node entry left right =>
      memory.link cursor = some entry.1 ∧ memory.elem entry.1 = entry.2 ∧
        Holds memory (.left entry.1) left ∧ Holds memory (.right entry.1) right

structure Implements (memory : Memory) (contents : Contents) : Prop where
  tree : ∀ set members, contents[set]? = some members →
    ∃ tree, Holds memory (.root set) tree ∧ Ordered tree ∧ ∀ elem, elem ∈ elems tree ↔ elem ∈ members
  apart : ∀ set other tree tree', set < contents.length → other < contents.length → set ≠ other →
    Holds memory (.root set) tree → Holds memory (.root other) tree' → (names tree).Disjoint (names tree')
  elem : ∀ set members elem, contents[set]? = some members →
    setElem memory (some set) elem = some (decide (elem ∈ members))
  subset : ∀ set other members others, contents[set]? = some members → contents[other]? = some others →
    setSubset memory (some set) (some other) = some (decide (members ⊆ others))
  eq : ∀ set other members others, contents[set]? = some members → contents[other]? = some others →
    setEq memory (some set) (some other) = some (decide (members = others))
  reduce : ∀ (β : Type) (f : Elem → β → β) (init : β) set members, contents[set]? = some members →
    setReduce memory set f init = some ((members.sort (· ≤ ·)).foldl (fun acc elem => f elem acc) init)

end Lfmr.TreeSet
