import Lfmr.Concurrency.Interleaving
import Lfmr.Concurrency.Linearizable
import Lfmr.Concurrency.NodeLife
import Lfmr.MarkedList

/-!
# The lock-free list of `list_lf_ebr.c` and `list_lf_dw.c`

`find`, which `insert` and `delete` call, and `search` contain the same loop over the list; it is modelled
once, for the task that runs it. One step is one access to the list head or to a
field of a node, or one call of the reclaimer or the allocator. The backoff functions and
`cond_yield` touch neither.

The reclaimer is left open: at any time, some retired node may be freed, with arbitrary contents from then
on. `NoEarlyReuse` is what the list expects of it. Which nodes are linked
and which threads have retired a node is recorded beside the memory; no code reads it.

The two files differ in `insert` only, when the allocator is out of memory: `list_lf_ebr.c` tries
again after `update_epoch`, `list_lf_dw.c` fails an assertion.
-/

namespace Lfmr.LockFreeList

open Lfmr.Concurrency Lfmr.MarkedList

inductive Op
  | insert (key : Int)
  | delete (key : Int)
  | search (key : Int)
  deriving DecidableEq

def setSpec : Op → Finset Int → Finset Int × Bool
  | .insert key, set => (insert key set, key ∉ set)
  | .delete key, set => (set.erase key, key ∈ set)
  | .search key, set => (set, key ∈ set)

/-- Who runs the loop over the list. An `insert` has its new node by then. -/
inductive Task
  | insert (key : Int) (node : NodeAddr)
  | delete (key : Int)
  | search (key : Int)

def Task.key : Task → Int
  | .insert key _ => key
  | .delete key => key
  | .search key => key

def Task.op : Task → Op
  | .insert key _ => .insert key
  | .delete key => .delete key
  | .search key => .search key

structure Shared (n : Nat) extends Life (Fin n) NodeAddr where
  heap : Heap
  history : List (Event (Fin n) Op Bool)

inductive AllocPc
  | newNode
  | enter (node : Option NodeAddr)
  | retryExit
  | retryUpdateEpoch
  | retryEnter
  | retryNewNode

/-- The loop of `find` and `search`. `find` reads the head once more before the loop. -/
inductive WalkPc
  | first
  | load
  | check (prev : Loc) (cur : NodeAddr)
  | readNext (prev : Loc) (cur : NodeAddr)
  | unlink (prev : Loc) (cur : NodeAddr) (next : Option NodeAddr)
  | retire (prev : Loc) (cur : NodeAddr) (next : Option NodeAddr)
  | readKey (prev : Loc) (cur : NodeAddr) (next : Option NodeAddr)
  | recheck (prev : Loc) (cur : NodeAddr) (next : Option NodeAddr) (ckey : Int)

inductive LinkPc
  | writeKey
  | writeNext
  | cas

inductive DeletePc
  | mark
  | unlink
  | retire

inductive Pc
  | idle
  | alloc (key : Int) (pc : AllocPc)
  | enter (task : Task)
  | walk (task : Task) (pc : WalkPc)
  | link (key : Int) (node : NodeAddr) (prev : Loc) (cur : Option NodeAddr) (pc : LinkPc)
  | delete (key : Int) (prev : Loc) (cur : NodeAddr) (next : Option NodeAddr) (pc : DeletePc)
  | exit (result : Bool) (unused : Option NodeAddr)
  | freeNode (result : Bool) (node : NodeAddr)
  | ret (result : Bool)

/-- What the code leaves open: the next call, the node the allocator returns (`none` for `NULL`), and
what is in the memory of a node that has been allocated or freed. -/
inductive Choice
  | go
  | call (op : Op)
  | newNode (result : Option (NodeAddr × Int × Link))
  | freed (key : Int) (next : Link)
  | reclaim (node : NodeAddr) (key : Int) (next : Link)

variable {n : Nat}

def Shared.log (shared : Shared n) (event : Event (Fin n) Op Bool) : Shared n :=
  { shared with history := shared.history ++ [event] }

def Shared.enter (shared : Shared n) (thread : Fin n) : Shared n :=
  { shared with toLife := shared.toLife.enter thread }

def Shared.exit (shared : Shared n) (thread : Fin n) : Shared n :=
  { shared with toLife := shared.toLife.exit thread }

def Shared.renew (shared : Shared n) (node : NodeAddr) (stage : Stage (Fin n)) (key : Int)
    (next : Link) : Shared n :=
  { shared with
    toLife := shared.toLife.renew node stage
    heap := shared.heap.scribble node key next }

def Shared.retire (shared : Shared n) (thread : Fin n) (node : NodeAddr) : Shared n :=
  { shared with toLife := shared.toLife.retire thread node }

def restart (task : Task) : Pc :=
  match task with
  | .search _ => .walk task .load
  | _ => .walk task .first

/-- The key is at `cur`: `find` returns 1, or `search` does after its section. -/
def found (task : Task) (prev : Loc) (cur : NodeAddr) (next : Option NodeAddr) : Pc :=
  match task with
  | .insert _ node => .exit false (some node)
  | .delete key => .delete key prev cur next .mark
  | .search _ => .exit true none

def notFound (task : Task) (prev : Loc) (cur : Option NodeAddr) : Pc :=
  match task with
  | .insert key node => .link key node prev cur .writeKey
  | .delete _ => .exit false none
  | .search _ => .exit false none

def loop (task : Task) (prev : Loc) (cur : Option NodeAddr) : Pc :=
  match cur with
  | some cur => .walk task (.check prev cur)
  | none => notFound task prev none

def walkStep (thread : Fin n) (shared : Shared n) (task : Task) : WalkPc → Shared n × Pc
  | .first => (shared, .walk task .load)
  | .load => (shared, loop task .head shared.heap.head)
  | .check prev cur =>
      if shared.heap.read prev = ⟨some cur, false⟩ then (shared, .walk task (.readNext prev cur))
      else (shared, restart task)
  | .readNext prev cur =>
      let next := shared.heap.next cur
      if next.mark then (shared, .walk task (.unlink prev cur next.addr))
      else (shared, .walk task (.readKey prev cur next.addr))
  | .unlink prev cur next =>
      match shared.heap.cas prev (some cur) next with
      | some heap =>
          ({ shared with toLife := shared.toLife.unlink thread cur, heap := heap },
            .walk task (.retire prev cur next))
      | none => (shared, restart task)
  | .retire prev cur next => (shared.retire thread cur, loop task prev next)
  | .readKey prev cur next => (shared, .walk task (.recheck prev cur next (shared.heap.key cur)))
  | .recheck prev cur next ckey =>
      if shared.heap.read prev ≠ ⟨some cur, false⟩ then (shared, restart task)
      else if ckey < task.key then (shared, loop task (.next cur) next)
      else if ckey = task.key then (shared, found task prev cur next)
      else (shared, notFound task prev (some cur))

def linkStep (shared : Shared n) (key : Int) (node : NodeAddr) (prev : Loc)
    (cur : Option NodeAddr) : LinkPc → Shared n × Pc
  | .writeKey =>
      ({ shared with heap := shared.heap.setKey node key }, .link key node prev cur .writeNext)
  | .writeNext =>
      ({ shared with heap := shared.heap.write (.next node) cur }, .link key node prev cur .cas)
  | .cas =>
      match shared.heap.cas prev cur (some node) with
      | some heap =>
          ({ shared with toLife := shared.toLife.link node, heap := heap }, .exit true none)
      | none => (shared, restart (.insert key node))

def deleteStep (thread : Fin n) (shared : Shared n) (key : Int) (prev : Loc) (cur : NodeAddr)
    (next : Option NodeAddr) : DeletePc → Shared n × Pc
  | .mark =>
      match shared.heap.casMark cur next with
      | some heap => ({ shared with heap := heap }, .delete key prev cur next .unlink)
      | none => (shared, restart (.delete key))
  | .unlink =>
      match shared.heap.cas prev (some cur) next with
      | some heap =>
          ({ shared with toLife := shared.toLife.unlink thread cur, heap := heap },
            .delete key prev cur next .retire)
      | none => (shared, .exit true none)
  | .retire => (shared.retire thread cur, .exit true none)

def allocated (key : Int) (node : Option NodeAddr) : Pc :=
  match node with
  | some node => restart (.insert key node)
  | none => .alloc key .retryExit

def advance (thread : Fin n) (shared : Shared n) : Pc → Option (Shared n × Pc)
  | .idle => none
  | .alloc key (.enter node) => some (shared.enter thread, allocated key node)
  | .alloc key .retryExit => some (shared.exit thread, .alloc key .retryUpdateEpoch)
  | .alloc key .retryUpdateEpoch => some (shared, .alloc key .retryEnter)
  | .alloc key .retryEnter => some (shared.enter thread, .alloc key .retryNewNode)
  | .alloc _ _ => none
  | .enter task => some (shared.enter thread, restart task)
  | .walk task pc => some (walkStep thread shared task pc)
  | .link key node prev cur pc => some (linkStep shared key node prev cur pc)
  | .delete key prev cur next pc => some (deleteStep thread shared key prev cur next pc)
  | .exit result (some node) => some (shared.exit thread, .freeNode result node)
  | .exit result none => some (shared.exit thread, .ret result)
  | .freeNode _ _ => none
  | .ret result => some (shared.log (.ret thread result), .idle)

def start : Op → Pc
  | .insert key => .alloc key .newNode
  | .delete key => .enter (.delete key)
  | .search key => .enter (.search key)

/-- Where `insert` goes with the result of `new_node`; `assert(n)` stops it in `list_lf_dw.c`. -/
def afterNewNode (reclaimer : Reclaimer) (pc : Pc) (node : Option NodeAddr) : Option Pc :=
  match pc with
  | .alloc key .newNode =>
      if reclaimer = .dw ∧ node = none then none else some (.alloc key (.enter node))
  | .alloc key .retryNewNode => some (allocated key node)
  | _ => none

def code (reclaimer : Reclaimer) : Code (Fin n) Choice (Shared n) Pc :=
  fun thread choice shared pc =>
    match choice with
    | .go => advance thread shared pc
    | .call op =>
        match pc with
        | .idle => some (shared.log (.call thread op), start op)
        | _ => none
    | .newNode none => (afterNewNode reclaimer pc none).map fun pc => (shared, pc)
    | .newNode (some (node, key, next)) =>
        match shared.stage node with
        | .free =>
            (afterNewNode reclaimer pc (some node)).map fun pc =>
              (shared.renew node (.owned thread) key next, pc)
        | _ => none
    | .freed key next =>
        match pc with
        | .freeNode result node => some (shared.renew node .free key next, .ret result)
        | _ => none
    | .reclaim node key next =>
        match shared.retiredBy node with
        | [] => none
        | _ => some (shared.renew node .free key next, pc)

def Pc.retiring : Pc → Option NodeAddr
  | .walk _ (.retire _ cur _) => some cur
  | .delete _ _ cur _ .retire => some cur
  | _ => none

/-- No node's memory is reused while a critical section that could have reached it is open. -/
def NoEarlyReuse (config : Config (Fin n) (Shared n) Pc) (_ : Fin n) : Choice → Prop
  | .reclaim node _ _ => config.shared.Expired node
  | _ => True

instance (config : Config (Fin n) (Shared n) Pc) (thread : Fin n) :
    DecidablePred (NoEarlyReuse config thread)
  | .reclaim node _ _ => inferInstanceAs (Decidable (∀ reader, ¬ config.shared.Reaches reader node))
  | .go | .call _ | .newNode _ | .freed _ _ => .isTrue trivial

def init (key : NodeAddr → Int) (next : NodeAddr → Link) : Config (Fin n) (Shared n) Pc where
  shared := { Life.fresh with heap := { head := none, key := key, next := next }, history := [] }
  threads := fun _ => .idle

end Lfmr.LockFreeList
