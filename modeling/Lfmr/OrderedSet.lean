/-!
# The ordered set of the standard bundle

`OrderedSet.enc` keeps a search tree that is not balanced, and next to it the number of its elements. The
comparison function is given to the constructor. A node is modelled with its subtrees, `null` being the
null pointer; the field `parent` is left out, as neither `add` nor `lookup` reads it.
-/

namespace Lfmr

namespace OrderedSet

variable {α : Type}

inductive Node (α : Type)
  | null
  | node (elem : α) (left right : Node α)

namespace Node

def isNull : Node α → Bool
  | .null => true
  | .node _ _ _ => false

def new (e : α) : Node α := .node e .null .null

/-- The node after the call and whether the element has been added. It is not called for a null pointer. -/
def add (cmp : α → α → Int) (e : α) : Node α → Node α × Bool
  | .null => (.null, false)
  | .node elem left right =>
      if cmp e elem < 0 then
        if left.isNull then
          if cmp elem e = 0 then (.node elem left right, false)
          else (.node elem (.new e) right, true)
        else
          let result := left.add cmp e
          (.node elem result.1 right, result.2)
      else
        if right.isNull then
          if cmp elem e = 0 then (.node elem left right, false)
          else (.node elem left (.new e), true)
        else
          let result := right.add cmp e
          (.node elem left result.1, result.2)

def lookup (cmp : α → α → Int) (e : α) : Node α → Option α
  | .null => none
  | .node elem left right =>
      if cmp e elem = 0 then some elem
      else if cmp e elem < 0 then
        if !left.isNull then left.lookup cmp e else none
      else
        if !right.isNull then right.lookup cmp e else none

def elems : Node α → List α
  | .null => []
  | .node elem left right => left.elems ++ elem :: right.elems

/-- Some node with an element equal to `e` has a right child. -/
def hasRightChild (cmp : α → α → Int) (e : α) : Node α → Bool
  | .null => false
  | .node elem left right =>
      cmp e elem = 0 && !right.isNull || left.hasRightChild cmp e || right.hasRightChild cmp e

end Node

end OrderedSet

structure OrderedSet (α : Type) where
  root : OrderedSet.Node α
  size : Nat
  cmp : α → α → Int

namespace OrderedSet

variable {α : Type}

def init (cmp : α → α → Int) : OrderedSet α where
  root := .null
  size := 0
  cmp := cmp

def add (set : OrderedSet α) (e : α) : OrderedSet α :=
  if set.root.isNull then { set with root := .new e, size := 1 }
  else
    let result := set.root.add set.cmp e
    if result.2 then { set with root := result.1, size := set.size + 1 }
    else { set with root := result.1 }

def lookup (set : OrderedSet α) (e : α) : Option α :=
  if set.root.isNull then none else set.root.lookup set.cmp e

def addAll (cmp : α → α → Int) (es : List α) : OrderedSet α :=
  es.foldl add (init cmp)

end OrderedSet

end Lfmr
