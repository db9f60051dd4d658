import Lfmr.Concurrency.Interleaving
import Lfmr.Header

/-!
# The lock-free queue of `lf_queue.enc`

The queue is a linked list of nodes with a `once` field `next`, which holds `NULL` until it is written and then
the frozen address of a node. `speculate`, `try`, `isStable` and `CAT` are the accesses that the code generator
emits for them:

* `try(x.next = n)` reads the field and, if it is not frozen, swaps it from what was read to `FREEZE(n)`;
* `CAT(this.f, x, x.next)` reads `x.next` and, if it is frozen, swaps `this.f` from `x` to the unfrozen node;
* `isStable(x.next)` reads the field and tests the bit.

Memory is collected automatically: a new node is any one that nothing refers to. What the wrappers do for
the collector is left out.

Beside the memory stand the values in the order of the successful `try`s and of the `CAT`s on `first`; for each
thread the place of its last one there, and whether its call has met an empty queue.
-/

namespace Lfmr.EncoreQueue

open Lfmr.Concurrency

inductive Op
  | enqueue (x : Int)
  | dequeue
  deriving DecidableEq

inductive Result
  | enqueued
  | empty
  | value (elem : Int)
  deriving DecidableEq

structure Shared (n : Nat) where
  first : NodeAddr
  last : NodeAddr
  elem : NodeAddr → Int
  next : NodeAddr → Option NodeAddr
  tried : List Int
  taken : List Int
  slot : Fin n → Nat
  metEmpty : Fin n → Bool

/-- `enqueue`, when it has a node. Once `done`, the variable for the node has been set to `NULL`. -/
inductive EnqueuePc
  | writeElem
  | speculateLast
  | tryRead (oldLast : NodeAddr)
  | tryCas (oldLast : NodeAddr)
  | catRead (oldLast : NodeAddr) (done : Bool)
  | catCas (oldLast next : NodeAddr) (done : Bool)
  deriving DecidableEq

inductive DequeuePc
  | speculateFirst
  | isStable (oldFirst : NodeAddr)
  | speculateLast (oldFirst : NodeAddr)
  | catRead (oldFirst oldLast : NodeAddr)
  | catCas (oldFirst oldLast next : NodeAddr)
  | readElem (next : NodeAddr)
  deriving DecidableEq

inductive Pc
  | idle
  | newNode (x : Int)
  | enqueue (x : Int) (node : NodeAddr) (pc : EnqueuePc)
  | dequeue (pc : DequeuePc)
  | ret (result : Result)
  deriving DecidableEq

inductive Choice
  | go
  | call (op : Op)
  | newNode (node : NodeAddr)
  deriving DecidableEq

variable {n : Nat}

namespace Shared

def allocate (shared : Shared n) (node : NodeAddr) : Shared n :=
  { shared with
    elem := Function.update shared.elem node 0
    next := Function.update shared.next node none }

def link (shared : Shared n) (oldLast node : NodeAddr) (x : Int) : Shared n :=
  { shared with
    next := Function.update shared.next oldLast (some node)
    tried := shared.tried ++ [x] }

def casLast (shared : Shared n) (oldLast next : NodeAddr) : Shared n :=
  if shared.last = oldLast then { shared with last := next } else shared

def unlink (shared : Shared n) (thread : Fin n) (next : NodeAddr) : Shared n :=
  { shared with
    first := next
    taken := shared.taken ++ [shared.elem next]
    slot := Function.update shared.slot thread shared.taken.length }

def meet (shared : Shared n) (thread : Fin n) : Shared n :=
  if shared.tried = shared.taken then
    { shared with metEmpty := Function.update shared.metEmpty thread true }
  else
    shared

end Shared

def afterCat (x : Int) (node : NodeAddr) (done : Bool) : Pc :=
  if done then .ret .enqueued else .enqueue x node .speculateLast

def enqueueStep (shared : Shared n) (x : Int) (node : NodeAddr) : EnqueuePc → Shared n × Pc
  | .writeElem =>
      ({ shared with elem := Function.update shared.elem node x }, .enqueue x node .speculateLast)
  | .speculateLast => (shared, .enqueue x node (.tryRead shared.last))
  | .tryRead oldLast =>
      match shared.next oldLast with
      | none => (shared, .enqueue x node (.tryCas oldLast))
      | some _ => (shared, .enqueue x node (.catRead oldLast false))
  | .tryCas oldLast =>
      if shared.next oldLast = none then
        (shared.link oldLast node x, .enqueue x node (.catRead oldLast true))
      else (shared, .enqueue x node (.catRead oldLast false))
  | .catRead oldLast done =>
      match shared.next oldLast with
      | some next => (shared, .enqueue x node (.catCas oldLast next done))
      | none => (shared, afterCat x node done)
  | .catCas oldLast next done => (shared.casLast oldLast next, afterCat x node done)

def dequeueStep (thread : Fin n) (shared : Shared n) : DequeuePc → Shared n × Pc
  | .speculateFirst => (shared, .dequeue (.isStable shared.first))
  | .isStable oldFirst =>
      match shared.next oldFirst with
      | some _ => (shared.meet thread, .dequeue (.speculateLast oldFirst))
      | none => (shared.meet thread, .ret .empty)
  | .speculateLast oldFirst => (shared, .dequeue (.catRead oldFirst shared.last))
  | .catRead oldFirst oldLast =>
      match shared.next oldFirst with
      | some next => (shared, .dequeue (.catCas oldFirst oldLast next))
      | none => (shared, .dequeue .speculateFirst)
  | .catCas oldFirst _ next =>
      if shared.first = oldFirst then (shared.unlink thread next, .dequeue (.readElem next))
      else (shared, .dequeue .speculateFirst)
  | .readElem next => (shared, .ret (.value (shared.elem next)))

def call (shared : Shared n) (thread : Fin n) : Op → Shared n × Pc
  | .enqueue x => (shared, .newNode x)
  | .dequeue =>
      ({ shared with metEmpty := Function.update shared.metEmpty thread false }, .dequeue .speculateFirst)

def code : Code (Fin n) Choice (Shared n) Pc :=
  fun thread choice shared pc =>
    match choice, pc with
    | .call op, .idle => some (call shared thread op)
    | .newNode node, .newNode x => some (shared.allocate node, .enqueue x node .writeElem)
    | .go, .enqueue x node pc => some (enqueueStep shared x node pc)
    | .go, .dequeue pc => some (dequeueStep thread shared pc)
    | .go, .ret _ => some (shared, .idle)
    | _, _ => none

def EnqueuePc.roots (node : NodeAddr) : EnqueuePc → List NodeAddr
  | .writeElem => [node]
  | .speculateLast => [node]
  | .tryRead oldLast => [node, oldLast]
  | .tryCas oldLast => [node, oldLast]
  | .catRead oldLast false => [node, oldLast]
  | .catRead oldLast true => [oldLast]
  | .catCas oldLast next false => [node, oldLast, next]
  | .catCas oldLast next true => [oldLast, next]

def DequeuePc.roots : DequeuePc → List NodeAddr
  | .speculateFirst => []
  | .isStable oldFirst => [oldFirst]
  | .speculateLast oldFirst => [oldFirst]
  | .catRead oldFirst oldLast => [oldFirst, oldLast]
  | .catCas oldFirst oldLast next => [oldFirst, oldLast, next]
  | .readElem next => [next]

def Pc.roots : Pc → List NodeAddr
  | .enqueue _ node pc => pc.roots node
  | .dequeue pc => pc.roots
  | _ => []

inductive Referenced (config : Config (Fin n) (Shared n) Pc) : NodeAddr → Prop
  | first : Referenced config config.shared.first
  | last : Referenced config config.shared.last
  | root {thread : Fin n} {node : NodeAddr} (hnode : node ∈ (config.threads thread).roots) :
      Referenced config node
  | next {node target : NodeAddr} (hnode : Referenced config node)
      (hnext : config.shared.next node = some target) : Referenced config target

def NoReuse (config : Config (Fin n) (Shared n) Pc) (_ : Fin n) : Choice → Prop
  | .newNode node => ¬ Referenced config node
  | _ => True

def init (dummy : NodeAddr) (elem : NodeAddr → Int) (next : NodeAddr → Option NodeAddr) :
    Config (Fin n) (Shared n) Pc where
  shared :=
    { first := dummy
      last := dummy
      elem := Function.update elem dummy 0
      next := Function.update next dummy none
      tried := []
      taken := []
      slot := fun _ => 0
      metEmpty := fun _ => false }
  threads := fun _ => .idle

/-- What is claimed of the queue in one state: the values dequeued, in the order of the `CAT`s on `first`,
are the first of the values enqueued, in the order of the successful `try`s; the value a `dequeue` is about
to return is the one of its `CAT`; and one that is about to return -1 for an empty queue has met one. -/
structure Fifo (config : Config (Fin n) (Shared n) Pc) : Prop where
  ordered : config.shared.taken <+: config.shared.tried
  value : ∀ thread elem, config.threads thread = .ret (.value elem) →
    config.shared.taken[config.shared.slot thread]? = some elem
  empty : ∀ thread, config.threads thread = .ret .empty → config.shared.metEmpty thread = true

end Lfmr.EncoreQueue
