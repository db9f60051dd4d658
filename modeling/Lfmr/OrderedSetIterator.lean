import Lfmr.OrderedSet

/-!
# The iterator of the ordered set

A reference to a node of the tree is the way to it from the root. The field `parent` of a node is set once,
when the node is put under another one by `addAsLeftChild` or `addAsRightChild`, so it leads to the node
above, and two references are equal if and only if the ways are.
-/

namespace Lfmr.OrderedSet

variable {α : Type}

inductive Side
  | left
  | right
  deriving DecidableEq

/-- A `Node<t>` that is not null: the way to it from the root, its last step first. -/
abbrev Ref := List Side

inductive Failure
  | nullPointer
  | assertion
  deriving DecidableEq

namespace Node

def child (side : Side) : Node α → Node α
  | .null => .null
  | .node _ left right =>
      match side with
      | .left => left
      | .right => right

/-- The node with its subtrees, `null` if the way leads out of the tree. -/
def deref (root : Node α) : Ref → Node α
  | [] => root
  | side :: parent => (root.deref parent).child side

def childRef (root : Node α) (side : Side) (this : Ref) : Option Ref :=
  if (root.deref (side :: this)).isNull then none else some (side :: this)

def getMinNode : Node α → Ref → Ref
  | .null, this => this
  | .node _ left _, this => if left.isNull then this else left.getMinNode (.left :: this)

def minOfRight (root : Node α) (this : Ref) : Option Ref :=
  (root.childRef .right this).map fun right => (root.deref right).getMinNode right

def getNextNode (root : Node α) : Ref → Except Failure (Option Ref)
  | [] => .ok (root.minOfRight [])
  | side :: parent =>
      if root.childRef .left parent = some (side :: parent) then .ok (some parent)
      else if root.childRef .right parent = some (side :: parent) then
        .ok (root.minOfRight (side :: parent))
      else .error .assertion

end Node

abbrev Iterator := Option Ref

def Iterator.init (root : Node α) : Iterator :=
  if root.isNull then none else some (root.getMinNode [])

def iter (set : OrderedSet α) : Iterator := .init set.root

namespace Iterator

def step (root : Node α) : Iterator → Except Failure Iterator
  | none => .ok none
  | some cur => root.getNextNode cur

def hasNext (it : Iterator) : Bool := it.isSome

def next (root : Node α) (it : Iterator) : Except Failure (α × Iterator) :=
  match it with
  | none => .error .nullPointer
  | some cur =>
      match root.deref cur with
      | .null => .error .nullPointer
      | .node elem _ _ => (step root it).map fun it' => (elem, it')

end Iterator

/-- The loop that calls `next()` as long as `hasNext()` comes to an end and gets these elements. -/
inductive Iterates (root : Node α) : Iterator → List α → Prop
  | done {it : Iterator} (hnone : it.hasNext = false) : Iterates root it []
  | next {it it' : Iterator} {elem : α} {elems : List α} (hsome : it.hasNext = true)
      (hnext : it.next root = .ok (elem, it')) (hrest : Iterates root it' elems) :
      Iterates root it (elem :: elems)

/-- The iteration terminates and yields every added element once, in ascending order. -/
def IterationRight (cmp : α → α → Int) (es : List α) (set : OrderedSet α) : Prop :=
  ∃ elems, Iterates set.root set.iter elems ∧ elems.Perm es ∧ elems.Pairwise fun a b => cmp a b < 0

namespace Node

def rightless : Node α → Bool
  | .null => true
  | .node _ left right => right.isNull && left.rightless

/-- The nodes with a right child are all reached from the root by going right only. -/
def rightOnSpine : Node α → Bool
  | .null => true
  | .node _ left right => left.rightless && right.rightOnSpine

end Node

end Lfmr.OrderedSet
