import Lfmr.Concurrency.RefCount

/-!
# The reference counts and the allocator of `lfrc.c`

The field `refcnt` of a node is twice the number of references to the node, plus one if the node is
free or has been claimed by the thread that is going to free it. It is a natural number here: there are not
enough places for a reference to overflow it.

The nodes are those of the array `shdmem`. A pointer to one may carry a mark in its lowest bit, which
only the list sets; `junk` is the `(node_t*)0x300300` that `free_node` leaves in `next`, and a thread that
uses it as a pointer comes to a halt. Roots are the variables of a container that hold such pointers.

How the allocator takes a node from the free list and puts it back is a parameter. `atomic` does each of
the two in one step.
-/

namespace Lfmr.Lfrc

open Lfmr.Concurrency.RefCount

inductive Target (m : Nat)
  | null
  | node (addr : Fin m)
  | junk
  deriving DecidableEq

structure Word (m : Nat) where
  target : Target m
  mark : Bool
  deriving DecidableEq

namespace Word

variable {m : Nat}

def null : Word m := ⟨.null, false⟩

def node (addr : Fin m) : Word m := ⟨.node addr, false⟩

def junk : Word m := ⟨.junk, false⟩

def unmark (word : Word m) : Word m := { word with mark := false }

end Word

inductive Loc (Root : Type) (m : Nat)
  | root (root : Root)
  | next (addr : Fin m)
  deriving DecidableEq

structure Memory (Root : Type) (m : Nat) (Pool : Type) where
  root : Root → Word m
  key : Fin m → Int
  next : Fin m → Word m
  refcnt : Fin m → Nat
  pool : Pool

namespace Memory

variable {Root : Type} {m : Nat} {Pool : Type}

def setKey (memory : Memory Root m Pool) (addr : Fin m) (key : Int) : Memory Root m Pool :=
  { memory with key := Function.update memory.key addr key }

def setNext (memory : Memory Root m Pool) (addr : Fin m) (next : Word m) : Memory Root m Pool :=
  { memory with next := Function.update memory.next addr next }

def setRefcnt (memory : Memory Root m Pool) (addr : Fin m) (refcnt : Nat) : Memory Root m Pool :=
  { memory with refcnt := Function.update memory.refcnt addr refcnt }

def addRef (memory : Memory Root m Pool) (addr : Fin m) : Memory Root m Pool :=
  memory.setRefcnt addr (memory.refcnt addr + 2)

def setPool (memory : Memory Root m Pool) (pool : Pool) : Memory Root m Pool :=
  { memory with pool := pool }

variable [DecidableEq Root]

def write (memory : Memory Root m Pool) (loc : Loc Root m) (word : Word m) : Memory Root m Pool :=
  match loc with
  | .root root => { memory with root := Function.update memory.root root word }
  | .next addr => memory.setNext addr word

end Memory

/-- `free_node`: where it starts, its steps, and the node it is about. -/
structure FreeNode (Root : Type) (m : Nat) (Pool Free : Type) where
  start : Fin m → Free
  step : Memory Root m Pool → Free → Option (Memory Root m Pool × Option Free)
  node : Free → Fin m

section Procedures

variable {Root : Type} {m : Nat} {Pool Free Line : Type}

def decrement (old : Nat) : Nat :=
  if old - 2 = 0 then 1 else old - 2

/-- What `decrement_and_TAS` returns: whether the node has been claimed by this decrement. -/
def isClaim (old : Nat) : Bool :=
  (old - decrement old) % 2 = 1

/-- `readNext` and `writeNext` unmark `p->next`, `loadNext` reads it once more for the recursive call. -/
inductive DecPc (m : Nat) (Free : Type)
  | load (p : Fin m)
  | cas (p : Fin m) (old : Nat)
  | readNext (p : Fin m)
  | writeNext (p : Fin m) (next : Word m)
  | loadNext (p : Fin m)
  | free (pc : Free)
  | fault

/-- A call of `lfrc_refcnt_dec`. The `callers` have called it recursively for what was in the `next` of
their node, the innermost first, and go on to free that node. -/
structure Dec (m : Nat) (Free : Type) where
  pc : DecPc m Free
  callers : List (Fin m)

def Dec.ret (free : FreeNode Root m Pool Free) : List (Fin m) → Option (Dec m Free)
  | [] => none
  | p :: callers => some ⟨.free (free.start p), callers⟩

def Dec.afterFree (free : FreeNode Root m Pool Free) (callers : List (Fin m)) :
    Option Free → Option (Dec m Free)
  | some pc => some ⟨.free pc, callers⟩
  | none => Dec.ret free callers

def Dec.call (free : FreeNode Root m Pool Free) (p : Word m) (callers : List (Fin m)) :
    Option (Dec m Free) :=
  match p.target with
  | .null => Dec.ret free callers
  | .node p => some ⟨.load p, callers⟩
  | .junk => some ⟨.fault, callers⟩

def decStep (free : FreeNode Root m Pool Free) (memory : Memory Root m Pool) (dec : Dec m Free) :
    Option (Memory Root m Pool × Option (Dec m Free)) :=
  match dec.pc with
  | .load p => some (memory, some ⟨.cas p (memory.refcnt p), dec.callers⟩)
  | .cas p old =>
      if memory.refcnt p = old then
        some (memory.setRefcnt p (decrement old),
          if isClaim old then some ⟨.readNext p, dec.callers⟩ else Dec.ret free dec.callers)
      else
        some (memory, some ⟨.load p, dec.callers⟩)
  | .readNext p => some (memory, some ⟨.writeNext p (memory.next p).unmark, dec.callers⟩)
  | .writeNext p next => some (memory.setNext p next, some ⟨.loadNext p, dec.callers⟩)
  | .loadNext p => some (memory, Dec.call free (memory.next p) (p :: dec.callers))
  | .free pc =>
      (free.step memory pc).map fun result => (result.1, Dec.afterFree free dec.callers result.2)
  | .fault => none

/-- Where a thread is: at a line of its own code, or in a call of `lfrc_refcnt_dec` that is followed by
more of them before the code goes on. -/
inductive Control (m : Nat) (Free Line : Type)
  | at (line : Line)
  | drop (dec : Dec m Free) (todo : List (Word m)) (after : Line)

def release (free : FreeNode Root m Pool Free) : List (Word m) → Line → Control m Free Line
  | [], after => .at after
  | p :: todo, after =>
      match Dec.call free p [] with
      | some dec => .drop dec todo after
      | none => release free todo after

def afterDec (free : FreeNode Root m Pool Free) (todo : List (Word m)) (after : Line) :
    Option (Dec m Free) → Control m Free Line
  | some dec => .drop dec todo after
  | none => release free todo after

def dropStep (free : FreeNode Root m Pool Free) (memory : Memory Root m Pool) (dec : Dec m Free)
    (todo : List (Word m)) (after : Line) : Option (Memory Root m Pool × Control m Free Line) :=
  (decStep free memory dec).map fun result => (result.1, afterDec free todo after result.2)

inductive SafePc (m : Nat)
  | load
  | inc (q : Word m)
  | check (q : Word m)

/-- `safe_read` of a location that now holds `value`. The line is `back` of where it is in the function,
and `done` of what the function returns. -/
def safeStep (free : FreeNode Root m Pool Free) (memory : Memory Root m Pool) (value : Word m)
    (back : SafePc m → Line) (done : Word m → Line) :
    SafePc m → Option (Memory Root m Pool × Control m Free Line)
  | .load =>
      match value.target with
      | .null => some (memory, .at (done value))
      | _ => some (memory, .at (back (.inc value)))
  | .inc q =>
      match q.target with
      | .node addr => some (memory.addRef addr, .at (back (.check q)))
      | _ => none
  | .check q =>
      if q = value then some (memory, .at (done q))
      else some (memory, release free [q] (back .load))

end Procedures

structure Allocator (Root : Type) (m : Nat) (Pool New Free : Type) extends
    FreeNode Root m Pool Free where
  newNode : New
  newStep : Memory Root m Pool → New → Option (Memory Root m Pool × (New ⊕ Fin m))

section Atomic

variable {Root : Type} {m : Nat}

inductive AtomicNew (m : Nat)
  | pop
  | clearLoad (p : Fin m)
  | clearCas (p : Fin m) (old : Nat)

inductive AtomicFree (m : Nat)
  | writeNext (p : Fin m)
  | push (p : Fin m)

/-- Without a free node `new_node` ends the program: there is no step. -/
def atomicNewStep (memory : Memory Root m (List (Fin m))) :
    AtomicNew m → Option (Memory Root m (List (Fin m)) × (AtomicNew m ⊕ Fin m))
  | .pop =>
      match memory.pool with
      | p :: pool => some ((memory.addRef p).setPool pool, .inl (.clearLoad p))
      | [] => none
  | .clearLoad p => some (memory, .inl (.clearCas p (memory.refcnt p)))
  | .clearCas p old =>
      if memory.refcnt p = old then some (memory.setRefcnt p (old - 1), .inr p)
      else some (memory, .inl (.clearLoad p))

def atomicFreeStep (memory : Memory Root m (List (Fin m))) :
    AtomicFree m → Option (Memory Root m (List (Fin m)) × Option (AtomicFree m))
  | .writeNext p => some (memory.setNext p .junk, some (.push p))
  | .push p => some (memory.setPool (p :: memory.pool), none)

def AtomicFree.node : AtomicFree m → Fin m
  | .writeNext p => p
  | .push p => p

/-- The free list is a list, from which a node is taken together with a reference to it. -/
def atomic : Allocator Root m (List (Fin m)) (AtomicNew m) (AtomicFree m) where
  start := .writeNext
  step := atomicFreeStep
  node := AtomicFree.node
  newNode := .pop
  newStep := atomicNewStep

end Atomic

/-! ### References

A function from nodes to numbers stands for the references that are somewhere: how many to each node. -/

section References

variable {Root : Type} {m : Nat} {Pool Free Line : Type}

def Word.refs (word : Word m) : Fin m → Nat :=
  match word.target with
  | .node addr => one addr
  | _ => 0

def SafePc.refs : SafePc m → Fin m → Nat
  | .check q => q.refs
  | _ => 0

/-- The reference that is to be given up. Once the node is claimed, it is the one in its `next`. -/
def Dec.refs (memory : Memory Root m Pool) (dec : Dec m Free) : Fin m → Nat :=
  match dec.pc with
  | .load p => one p
  | .cas p _ => one p
  | .readNext p => (memory.next p).refs
  | .writeNext _ next => next.refs
  | .loadNext p => (memory.next p).refs
  | .free _ => 0
  | .fault => 0

def Control.refs (lineRefs : Line → Fin m → Nat) (memory : Memory Root m Pool) :
    Control m Free Line → Fin m → Nat
  | .at line => lineRefs line
  | .drop dec todo after => dec.refs memory + (todo.map Word.refs).sum + lineRefs after

def AtomicNew.refs : AtomicNew m → Fin m → Nat
  | .pop => 0
  | .clearLoad p => one p
  | .clearCas p _ => one p

def Control.decrementing (memory : Memory Root m Pool) : Control m Free Line → Option (Fin m)
  | .drop ⟨.cas p old, _⟩ _ _ => if memory.refcnt p = old then some p else none
  | _ => none

def Control.claiming (memory : Memory Root m Pool) (control : Control m Free Line) : Option (Fin m) :=
  (control.decrementing memory).filter fun p => isClaim (memory.refcnt p)

end References

end Lfmr.Lfrc
