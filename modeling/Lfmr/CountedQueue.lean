import Lfmr.Concurrency.Interleaving
import Lfmr.Lfrc

/-!
# The lock-free queue of `queue_lf_lfrc.c`

The queue of `queue_lf_ebr.c` with reference counts. `new_node` returns a node with one reference, which is
that of the `next` that will point to it; `enqueue` adds the one of the tail beforehand, so that whoever
moves the tail on to the node need not.

One step is one access to `head`, `tail` or a field of a node, or one step of the procedures of `lfrc.c`.
The free list is that of the allocator with atomic steps.
-/

namespace Lfmr.CountedQueue

open Lfmr.Concurrency Lfmr.Concurrency.RefCount Lfmr.Lfrc

inductive Op
  | enqueue (key : Int)
  | dequeue
  deriving DecidableEq

inductive Result
  | enqueued
  | empty
  | value (data : Int)
  deriving DecidableEq

inductive Root
  | head
  | tail
  deriving DecidableEq

instance : Fintype Root := ⟨{.head, .tail}, fun root => by cases root <;> simp⟩

abbrev Memory (m : Nat) := Lfrc.Memory Root m (List (Fin m))

/-- The lines of `enqueue`, up to `swingTail`, and of `dequeue`. A thread that follows a pointer that is
not one comes to `fault`. -/
inductive Line (m : Nat)
  | idle
  | newNode (key : Int) (pc : AtomicNew m)
  | incRef (key : Int) (node : Fin m)
  | writeKey (key : Int) (node : Fin m)
  | writeNext (node : Fin m)
  | loadTail (node : Fin m) (pc : SafePc m)
  | readNext (node t : Fin m)
  | checkTail (node t : Fin m) (next : Word m)
  | helpTail (node t : Fin m) (next : Word m)
  | link (node t : Fin m)
  | swingTail (node t : Fin m)
  | loadHead (pc : SafePc m)
  | loadTailToo (h : Fin m) (pc : SafePc m)
  | loadNext (h t : Fin m) (pc : SafePc m)
  | checkHead (h t : Fin m) (next : Word m)
  | helpDequeue (h t : Fin m) (next : Word m)
  | readKey (h t next : Fin m)
  | swingHead (h t next : Fin m) (data : Int)
  | ret (result : Result)
  | fault

abbrev Pc (m : Nat) := Control m (AtomicFree m) (Line m)

inductive Choice
  | go
  | call (op : Op)

variable {n m : Nat}

def follow (line : Fin m → Line m) : Word m → Line m
  | ⟨.node addr, false⟩ => line addr
  | _ => .fault

def thenLine (todo : List (Word m)) (after : Line m) : Pc m :=
  release (atomic : Allocator Root m _ _ _).toFreeNode todo after

def casRoot (memory : Memory m) (root : Root) (old new : Word m) : Option (Memory m) :=
  if memory.root root = old then some (memory.write (.root root) new) else none

def dequeueOn (h t : Fin m) (next : Word m) : Pc m :=
  if next = .null then thenLine [next, .node h, .node t] (.ret .empty)
  else if h = t then .at (.helpDequeue h t next)
  else .at (follow (.readKey h t) next)

def enqueueStep (memory : Memory m) : Line m → Option (Memory m × Pc m)
  | .newNode key pc =>
      (atomic.newStep memory pc).map fun result =>
        (result.1, .at (result.2.elim (.newNode key) (.incRef key)))
  | .incRef key node => some (memory.addRef node, .at (.writeKey key node))
  | .writeKey key node => some (memory.setKey node key, .at (.writeNext node))
  | .writeNext node => some (memory.setNext node .null, .at (.loadTail node .load))
  | .loadTail node pc =>
      safeStep atomic.toFreeNode memory (memory.root .tail) (.loadTail node) (follow (.readNext node)) pc
  | .readNext node t => some (memory, .at (.checkTail node t (memory.next t)))
  | .checkTail node t next =>
      if memory.root .tail ≠ .node t then
        some (memory, thenLine [.node t] (.loadTail node .load))
      else if next ≠ .null then
        some (memory, .at (.helpTail node t next))
      else
        some (memory, .at (.link node t))
  | .helpTail node t next =>
      match casRoot memory .tail (.node t) next with
      | some memory => some (memory, thenLine [.node t, .node t] (.loadTail node .load))
      | none => some (memory, thenLine [.node t] (.loadTail node .load))
  | .link node t =>
      if memory.next t = .null then
        some (memory.setNext t (.node node), .at (.swingTail node t))
      else
        some (memory, thenLine [.node t] (.loadTail node .load))
  | .swingTail node t =>
      match casRoot memory .tail (.node t) (.node node) with
      | some memory => some (memory, thenLine [.node t, .node t] (.ret .enqueued))
      | none => some (memory, thenLine [.node t] (.ret .enqueued))
  | _ => none

def dequeueStep (memory : Memory m) : Line m → Option (Memory m × Pc m)
  | .loadHead pc =>
      safeStep atomic.toFreeNode memory (memory.root .head) .loadHead
        (follow fun h => .loadTailToo h .load) pc
  | .loadTailToo h pc =>
      safeStep atomic.toFreeNode memory (memory.root .tail) (.loadTailToo h)
        (follow fun t => .loadNext h t .load) pc
  | .loadNext h t pc =>
      safeStep atomic.toFreeNode memory (memory.next h) (.loadNext h t) (.checkHead h t) pc
  | .checkHead h t next =>
      if memory.root .head ≠ .node h then
        some (memory, thenLine [next, .node h, .node t] (.loadHead .load))
      else
        some (memory, dequeueOn h t next)
  | .helpDequeue h t next =>
      match casRoot memory .tail (.node t) next with
      | some memory => some (memory, thenLine [.node t, next, .node h, .node t] (.loadHead .load))
      | none => some (memory, thenLine [next, .node h, .node t] (.loadHead .load))
  | .readKey h t next => some (memory, .at (.swingHead h t next (memory.key next)))
  | .swingHead h t next data =>
      match casRoot memory .head (.node h) (.node next) with
      | some memory => some (memory, thenLine [.node h, .node h, .node t] (.ret (.value data)))
      | none => some (memory, thenLine [.node next, .node h, .node t] (.loadHead .load))
  | .ret _ => some (memory, .at .idle)
  | _ => none

def advance (memory : Memory m) : Pc m → Option (Memory m × Pc m)
  | .at line => (enqueueStep memory line).or (dequeueStep memory line)
  | .drop dec todo after => dropStep atomic.toFreeNode memory dec todo after

def start : Op → Line m
  | .enqueue key => .newNode key (atomic : Allocator Root m _ _ _).newNode
  | .dequeue => .loadHead .load

def code : Code (Fin n) Choice (Memory m) (Pc m) :=
  fun _ choice memory pc =>
    match choice, pc with
    | .go, pc => advance memory pc
    | .call op, .at .idle => some (memory, .at (start op))
    | _, _ => none

/-- The state after `init_allocator` and `queue_init`: the node that was freed last is the dummy, the
other ones are on the free list. -/
def init (n m : Nat) : Config (Fin n) (Memory (m + 1)) (Pc (m + 1)) where
  shared :=
    { root := fun _ => .node (Fin.last m)
      key := fun _ => -1
      next := Function.update (fun _ => .junk) (Fin.last m) .null
      refcnt := Function.update (fun _ => 1) (Fin.last m) 4
      pool := ((List.finRange m).map Fin.castSucc).reverse }
  threads := fun _ => .at .idle

/-- The references that a thread holds at a line. Up to `link`, `enqueue` has two to its node. -/
def Line.refs : Line m → Fin m → Nat
  | .newNode _ pc => pc.refs
  | .incRef _ node => one node
  | .writeKey _ node => one node + one node
  | .writeNext node => one node + one node
  | .loadTail node pc => pc.refs + (one node + one node)
  | .readNext node t => one t + (one node + one node)
  | .checkTail node t _ => one t + (one node + one node)
  | .helpTail node t _ => one t + (one node + one node)
  | .link node t => one t + (one node + one node)
  | .swingTail _ t => one t
  | .loadHead pc => pc.refs
  | .loadTailToo h pc => pc.refs + one h
  | .loadNext h t pc => pc.refs + (one h + one t)
  | .checkHead h t next => next.refs + (one h + one t)
  | .helpDequeue h t next => next.refs + (one h + one t)
  | .readKey h t next => one next + (one h + one t)
  | .swingHead h t next _ => one next + (one h + one t)
  | _ => 0

def Pc.refs (memory : Memory m) (pc : Pc m) : Fin m → Nat :=
  Control.refs Line.refs memory pc

inductive FromHead (memory : Memory m) : Fin m → Prop
  | head {addr : Fin m} : (memory.root .head).target = .node addr → FromHead memory addr
  | next {addr target : Fin m} :
      FromHead memory addr → (memory.next addr).target = .node target → FromHead memory target

end Lfmr.CountedQueue
