import Lfmr.Concurrency.Interleaving
import Lfmr.Concurrency.Linearizable
import Lfmr.Concurrency.NodeLife
import Lfmr.Header

/-!
# The lock-free queue of `queue_lf_ebr.c` and `queue_lf_dw.c`

The queue is a linked list that starts at a dummy node, the one `head` points to; `tail` points to some node of
it. One step is one access to `head`, `tail` or a field of a node, or one call of the reclaimer or the allocator,
and the reclaimer may free a retired node at any time that `NoEarlyReuse` admits.

Beside the memory stand the values in the order in which they were linked and in the order in which
the head was moved over them, and whether a `dequeue` has met an empty queue.
-/

namespace Lfmr.LockFreeQueue

open Lfmr.Concurrency

inductive Op
  | enqueue (key : Int)
  | dequeue
  deriving DecidableEq

/-- What a call returns: nothing, -1 for an empty queue, or a key. -/
inductive Result
  | enqueued
  | empty
  | value (data : Int)
  deriving DecidableEq

def queueSpec : Op → List Int → List Int × Result
  | .enqueue key, queue => (queue ++ [key], .enqueued)
  | .dequeue, [] => ([], .empty)
  | .dequeue, data :: queue => (queue, .value data)

structure Shared (n : Nat) extends Life (Fin n) NodeAddr where
  head : NodeAddr
  tail : NodeAddr
  key : NodeAddr → Int
  next : NodeAddr → Option NodeAddr
  history : List (Event (Fin n) Op Result)
  linkedKeys : List Int
  unlinkedKeys : List Int
  metEmpty : Fin n → Bool

inductive AllocPc
  | enter
  | newNode
  | retryExit
  | retryUpdateEpoch
  | writeKey (node : NodeAddr)
  | writeNext (node : NodeAddr)

inductive EnqueuePc
  | loadTail
  | checkTail (t : NodeAddr)
  | readNext (t : NodeAddr)
  | helpTail (t next : NodeAddr)
  | link (t : NodeAddr)
  | swingTail (t : NodeAddr)

inductive DequeuePc
  | enter
  | loadHead
  | loadTail (h : NodeAddr)
  | readNext (h t : NodeAddr)
  | checkHead (h t : NodeAddr) (next : Option NodeAddr)
  | helpTail (t next : NodeAddr)
  | readKey (h next : NodeAddr)
  | swingHead (h next : NodeAddr) (data : Int)
  | retire (h : NodeAddr) (data : Int)

inductive Pc
  | idle
  | alloc (key : Int) (pc : AllocPc)
  | enqueue (key : Int) (node : NodeAddr) (pc : EnqueuePc)
  | dequeue (pc : DequeuePc)
  | exit (result : Result)
  | ret (result : Result)

/-- What the code leaves open: the next call, the node the allocator returns (`none` for `NULL`), and
what is in the memory of a node that has been allocated or freed. -/
inductive Choice
  | go
  | call (op : Op)
  | newNode (result : Option (NodeAddr × Int × Option NodeAddr))
  | reclaim (node : NodeAddr) (key : Int) (next : Option NodeAddr)

variable {n : Nat}

def Shared.log (shared : Shared n) (event : Event (Fin n) Op Result) : Shared n :=
  { shared with history := shared.history ++ [event] }

def Shared.call (shared : Shared n) (thread : Fin n) (op : Op) : Shared n :=
  { shared.log (.call thread op) with
    metEmpty := Function.update shared.metEmpty thread false }

def Shared.enter (shared : Shared n) (thread : Fin n) : Shared n :=
  { shared with toLife := shared.toLife.enter thread }

def Shared.exit (shared : Shared n) (thread : Fin n) : Shared n :=
  { shared with toLife := shared.toLife.exit thread }

def Shared.retire (shared : Shared n) (thread : Fin n) (node : NodeAddr) : Shared n :=
  { shared with toLife := shared.toLife.retire thread node }

def Shared.renew (shared : Shared n) (node : NodeAddr) (stage : Stage (Fin n)) (key : Int)
    (next : Option NodeAddr) : Shared n :=
  { shared with
    toLife := shared.toLife.renew node stage
    key := Function.update shared.key node key
    next := Function.update shared.next node next }

/-- The record of a call that sees the queue as it is now: empty, if there is only the dummy. -/
def Shared.meet (shared : Shared n) (thread : Fin n) : Shared n :=
  if shared.next shared.head = none then
    { shared with metEmpty := Function.update shared.metEmpty thread true }
  else
    shared

/-- `CAS(&q->tail, old, new)`, whose result nothing depends on. -/
def Shared.casTail (shared : Shared n) (old new : NodeAddr) : Shared n :=
  if shared.tail = old then { shared with tail := new } else shared

def Shared.link (shared : Shared n) (t node : NodeAddr) (key : Int) : Shared n :=
  { shared with
    toLife := shared.toLife.link node
    next := Function.update shared.next t (some node)
    linkedKeys := shared.linkedKeys ++ [key] }

def Shared.unlink (shared : Shared n) (thread : Fin n) (h next : NodeAddr) (data : Int) : Shared n :=
  { shared with
    toLife := shared.toLife.unlink thread h
    head := next
    unlinkedKeys := shared.unlinkedKeys ++ [data] }

def enqueueStep (shared : Shared n) (key : Int) (node : NodeAddr) : EnqueuePc → Shared n × Pc
  | .loadTail => (shared, .enqueue key node (.checkTail shared.tail))
  | .checkTail t =>
      if shared.tail = t then (shared, .enqueue key node (.readNext t))
      else (shared, .enqueue key node .loadTail)
  | .readNext t =>
      match shared.next t with
      | some next => (shared, .enqueue key node (.helpTail t next))
      | none => (shared, .enqueue key node (.link t))
  | .helpTail t next => (shared.casTail t next, .enqueue key node .loadTail)
  | .link t =>
      if shared.next t = none then (shared.link t node key, .enqueue key node (.swingTail t))
      else (shared, .enqueue key node .loadTail)
  | .swingTail t => (shared.casTail t node, .exit .enqueued)

def dequeueStep (thread : Fin n) (shared : Shared n) : DequeuePc → Shared n × Pc
  | .enter => (shared.enter thread, .dequeue .loadHead)
  | .loadHead => (shared, .dequeue (.loadTail shared.head))
  | .loadTail h => (shared, .dequeue (.readNext h shared.tail))
  | .readNext h t => (shared.meet thread, .dequeue (.checkHead h t (shared.next h)))
  | .checkHead h t next =>
      if shared.head ≠ h then (shared, .dequeue .loadHead)
      else
        match next with
        | none => (shared, .exit .empty)
        | some next =>
            if h = t then (shared, .dequeue (.helpTail t next))
            else (shared, .dequeue (.readKey h next))
  | .helpTail t next => (shared.casTail t next, .dequeue .loadHead)
  | .readKey h next => (shared, .dequeue (.swingHead h next (shared.key next)))
  | .swingHead h next data =>
      if shared.head = h then (shared.unlink thread h next data, .dequeue (.retire h data))
      else (shared, .dequeue .loadHead)
  | .retire h data => (shared.retire thread h, .exit (.value data))

def advance (thread : Fin n) (shared : Shared n) : Pc → Option (Shared n × Pc)
  | .idle => none
  | .alloc key .enter => some (shared.enter thread, .alloc key .newNode)
  | .alloc _ .newNode => none
  | .alloc key .retryExit => some (shared.exit thread, .alloc key .retryUpdateEpoch)
  | .alloc key .retryUpdateEpoch => some (shared, .alloc key .enter)
  | .alloc key (.writeKey node) =>
      some ({ shared with key := Function.update shared.key node key }, .alloc key (.writeNext node))
  | .alloc key (.writeNext node) =>
      some ({ shared with next := Function.update shared.next node none },
        .enqueue key node .loadTail)
  | .enqueue key node pc => some (enqueueStep shared key node pc)
  | .dequeue pc => some (dequeueStep thread shared pc)
  | .exit result => some (shared.exit thread, .ret result)
  | .ret result => some (shared.log (.ret thread result), .idle)

def start : Op → Pc
  | .enqueue key => .alloc key .enter
  | .dequeue => .dequeue .enter

def code (reclaimer : Reclaimer) : Code (Fin n) Choice (Shared n) Pc :=
  fun thread choice shared pc =>
    match choice with
    | .go => advance thread shared pc
    | .call op =>
        match pc with
        | .idle => some (shared.call thread op, start op)
        | _ => none
    | .newNode none =>
        -- `assert(node)` in `queue_lf_dw.c`
        match pc, reclaimer with
        | .alloc key .newNode, .ebr => some (shared, .alloc key .retryExit)
        | _, _ => none
    | .newNode (some (node, key, next)) =>
        match pc, shared.stage node with
        | .alloc k .newNode, .free =>
            some (shared.renew node (.owned thread) key next, .alloc k (.writeKey node))
        | _, _ => none
    | .reclaim node key next =>
        match shared.retiredBy node with
        | [] => none
        | _ => some (shared.renew node .free key next, pc)

def NoEarlyReuse (config : Config (Fin n) (Shared n) Pc) (_ : Fin n) : Choice → Prop
  | .reclaim node _ _ => config.shared.Expired node
  | _ => True

instance (config : Config (Fin n) (Shared n) Pc) (thread : Fin n) :
    DecidablePred (NoEarlyReuse config thread)
  | .reclaim node _ _ => inferInstanceAs (Decidable (∀ reader, ¬ config.shared.Reaches reader node))
  | .go | .call _ | .newNode _ => .isTrue trivial

/-- The state after `queue_init`: one node, the dummy, in a memory with arbitrary contents. -/
def init (dummy : NodeAddr) (key : NodeAddr → Int) (next : NodeAddr → Option NodeAddr) :
    Config (Fin n) (Shared n) Pc where
  shared :=
    { Life.fresh.link dummy with
      head := dummy
      tail := dummy
      key := key
      next := Function.update next dummy none
      history := []
      linkedKeys := []
      unlinkedKeys := []
      metEmpty := fun _ => false }
  threads := fun _ => .idle

end Lfmr.LockFreeQueue
