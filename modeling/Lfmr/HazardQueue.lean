import Lfmr.Concurrency.Hazard
import Lfmr.Concurrency.Interleaving
import Lfmr.Smr

/-!
# The lock-free queue of `queue_lf_smr.c`

The queue of `queue_lf_ebr.c` with hazard pointers instead of critical sections. `enqueue` announces the
tail in its first slot, `dequeue` the head in the first and its successor in the second one. The tail and the
head are confirmed by being read again, the successor by the head being read once more.

One step is one access to `head`, `tail`, a field of a node or `HP`, or one call of the allocator. Who has which
node, when a thread has seen a pointer to it, and the values in the order in which they were linked and in which
the head was moved over them are recorded beside the memory.
-/

namespace Lfmr.HazardQueue

open Lfmr.Concurrency Lfmr.Smr

inductive Op
  | enqueue (key : Int)
  | dequeue
  deriving DecidableEq

inductive Result
  | enqueued
  | empty
  | value (data : Int)
  deriving DecidableEq

structure Memory where
  head : NodeAddr
  tail : NodeAddr
  key : NodeAddr → Int
  next : NodeAddr → Option NodeAddr
  linkedKeys : List Int
  unlinkedKeys : List Int

structure Shared (n : Nat) extends Hazards (Fin n) Nat NodeAddr where
  memory : Memory

inductive EnqueuePc
  | writeKey
  | writeNext
  | loadTail
  | protect (t : NodeAddr)
  | check (t : NodeAddr)
  | readNext (t : NodeAddr)
  | helpTail (t next : NodeAddr)
  | link (t : NodeAddr)
  | swingTail (t : NodeAddr)

inductive DequeuePc
  | loadHead
  | protect (h : NodeAddr)
  | check (h : NodeAddr)
  | loadTail (h : NodeAddr)
  | readNext (h t : NodeAddr)
  | protectNext (h t : NodeAddr) (next : Option NodeAddr)
  | recheck (h t : NodeAddr) (next : Option NodeAddr)
  | helpTail (t next : NodeAddr)
  | readKey (h next : NodeAddr)
  | swingHead (h next : NodeAddr) (data : Int)

inductive Back
  | ret (result : Result)
  | drain

/-- `clear1` and `clear0` are `*hp0 = *hp1 = NULL`, at the end of both functions, with the node that
`dequeue` then retires; `exit` and `drain` are `mr_thread_exit`. -/
inductive Pc
  | idle
  | newNode (key : Int)
  | enqueue (key : Int) (node : NodeAddr) (pc : EnqueuePc)
  | dequeue (pc : DequeuePc)
  | clear1 (retired : Option NodeAddr) (result : Result)
  | clear0 (retired : Option NodeAddr) (result : Result)
  | retire (node : NodeAddr) (result : Result)
  | scan (pc : ScanPc) (back : Back)
  | ret (result : Result)
  | exit (i : Nat)
  | drain
  | gone

structure Priv extends ThisThread where
  pc : Pc

inductive Choice
  | go
  | call (op : Op)
  | threadExit
  | newNode (node : NodeAddr) (key : Int) (next : Option NodeAddr)
  | freed (key : Int) (next : Option NodeAddr)

namespace Memory

def setKey (memory : Memory) (node : NodeAddr) (key : Int) : Memory :=
  { memory with key := Function.update memory.key node key }

def setNext (memory : Memory) (node : NodeAddr) (next : Option NodeAddr) : Memory :=
  { memory with next := Function.update memory.next node next }

def scribble (memory : Memory) (node : NodeAddr) (key : Int) (next : Option NodeAddr) : Memory :=
  (memory.setKey node key).setNext node next

def casTail (memory : Memory) (old new : NodeAddr) : Memory :=
  if memory.tail = old then { memory with tail := new } else memory

def link (memory : Memory) (t node : NodeAddr) (key : Int) : Memory :=
  { memory.setNext t (some node) with linkedKeys := memory.linkedKeys ++ [key] }

def unlink (memory : Memory) (next : NodeAddr) (data : Int) : Memory :=
  { memory with head := next, unlinkedKeys := memory.unlinkedKeys ++ [data] }

end Memory

variable {n : Nat}

def Shared.see (shared : Shared n) (thread : Fin n) (target : Option NodeAddr) : Shared n :=
  { shared with toHazards := shared.toHazards.see thread target }

def Shared.load (shared : Shared n) (thread : Fin n) (target : Option NodeAddr) : Shared n :=
  { shared with toHazards := shared.toHazards.load thread target }

def Shared.announce (shared : Shared n) (i : Nat) (target : Option NodeAddr) : Shared n :=
  { shared with toHazards := shared.toHazards.announce i target }

def Shared.newNode (shared : Shared n) (thread : Fin n) (node : NodeAddr) (key : Int)
    (next : Option NodeAddr) : Shared n :=
  { toHazards := (shared.toHazards.assign node (.owned thread)).load thread (some node)
    memory := shared.memory.scribble node key next }

def Shared.free (shared : Shared n) (node : NodeAddr) (key : Int) (next : Option NodeAddr) :
    Shared n :=
  { toHazards := shared.toHazards.free node
    memory := shared.memory.scribble node key next }

def enqueueStep (thread : Fin n) (shared : Shared n) (key : Int) (node : NodeAddr) :
    EnqueuePc → Shared n × Pc
  | .writeKey =>
      ({ shared with memory := shared.memory.setKey node key }, .enqueue key node .writeNext)
  | .writeNext =>
      ({ shared with memory := shared.memory.setNext node none }, .enqueue key node .loadTail)
  | .loadTail =>
      (shared.load thread (some shared.memory.tail), .enqueue key node (.protect shared.memory.tail))
  | .protect t => (shared.announce (slot thread false) (some t), .enqueue key node (.check t))
  | .check t =>
      (shared.see thread (some shared.memory.tail),
        if shared.memory.tail ≠ t then .enqueue key node .loadTail
        else .enqueue key node (.readNext t))
  | .readNext t =>
      (shared.load thread (shared.memory.next t),
        match shared.memory.next t with
        | some next => .enqueue key node (.helpTail t next)
        | none => .enqueue key node (.link t))
  | .helpTail t next =>
      ({ shared with memory := shared.memory.casTail t next }, .enqueue key node .loadTail)
  | .link t =>
      if shared.memory.next t = none then
        (⟨shared.toHazards.assign node .linked, shared.memory.link t node key⟩,
          .enqueue key node (.swingTail t))
      else
        (shared, .enqueue key node .loadTail)
  | .swingTail t =>
      ({ shared with memory := shared.memory.casTail t node }, .clear1 none .enqueued)

def dequeueStep (thread : Fin n) (shared : Shared n) : DequeuePc → Shared n × Pc
  | .loadHead =>
      (shared.load thread (some shared.memory.head), .dequeue (.protect shared.memory.head))
  | .protect h => (shared.announce (slot thread false) (some h), .dequeue (.check h))
  | .check h =>
      (shared.see thread (some shared.memory.head),
        if shared.memory.head ≠ h then .dequeue .loadHead else .dequeue (.loadTail h))
  | .loadTail h =>
      (shared.load thread (some shared.memory.tail), .dequeue (.readNext h shared.memory.tail))
  | .readNext h t =>
      (shared.load thread (shared.memory.next h), .dequeue (.protectNext h t (shared.memory.next h)))
  | .protectNext h t next =>
      (shared.announce (slot thread true) next, .dequeue (.recheck h t next))
  | .recheck h t next =>
      (shared.see thread (some shared.memory.head),
        if shared.memory.head ≠ h then .dequeue .loadHead
        else
          match next with
          | none => .ret .empty
          | some next =>
              if h = t then .dequeue (.helpTail t next) else .dequeue (.readKey h next))
  | .helpTail t next => ({ shared with memory := shared.memory.casTail t next }, .dequeue .loadHead)
  | .readKey h next => (shared, .dequeue (.swingHead h next (shared.memory.key next)))
  | .swingHead h next data =>
      if shared.memory.head = h then
        (⟨shared.toHazards.assign h (.unlinked thread), shared.memory.unlink next data⟩,
          .clear1 (some h) (.value data))
      else
        (shared, .dequeue .loadHead)

def Back.pc : Back → Pc
  | .ret result => .ret result
  | .drain => .drain

def afterPush (n : Nat) (mine : ThisThread) (result : Result) : Pc :=
  if R n ≤ mine.retireCount then .scan (.test 0 []) (.ret result) else .ret result

def afterClear (retired : Option NodeAddr) (result : Result) : Pc :=
  match retired with
  | some node => .retire node result
  | none => .ret result

def advance (thread : Fin n) (shared : Shared n) (mine : ThisThread) : Pc → Option (Shared n × Priv)
  | .enqueue key node pc =>
      let result := enqueueStep thread shared key node pc
      some (result.1, ⟨mine, result.2⟩)
  | .dequeue pc =>
      let result := dequeueStep thread shared pc
      some (result.1, ⟨mine, result.2⟩)
  | .clear1 retired result =>
      some (shared.announce (slot thread true) none, ⟨mine, .clear0 retired result⟩)
  | .clear0 retired result =>
      some (shared.announce (slot thread false) none, ⟨mine, afterClear retired result⟩)
  | .retire node result => some (shared, ⟨mine.push node, afterPush n (mine.push node) result⟩)
  | .scan pc back =>
      if pc.isDone then some (shared, ⟨mine, back.pc⟩)
      else (scanStep n shared.pointer mine pc).map fun result =>
        (shared, ⟨result.1, .scan result.2 back⟩)
  | .ret _ => some (shared, ⟨mine, .idle⟩)
  | .exit i =>
      if i < K then some (shared.announce (thread.val * K + i) none, ⟨mine, .exit (i + 1)⟩)
      else some (shared, ⟨mine, .drain⟩)
  | .drain =>
      if 0 < mine.retireCount then some (shared, ⟨mine, .scan (.test 0 []) .drain⟩)
      else some (shared, ⟨mine, .gone⟩)
  | _ => none

def start : Op → Pc
  | .enqueue key => .newNode key
  | .dequeue => .dequeue .loadHead

def code : Code (Fin n) Choice (Shared n) Priv :=
  fun thread choice shared priv =>
    match choice, priv.pc with
    | .go, pc => advance thread shared priv.toThisThread pc
    | .call op, .idle => some (shared, { priv with pc := start op })
    | .threadExit, .idle => some (shared, { priv with pc := .exit 0 })
    | .newNode node key next, .newNode enqueueKey =>
        if shared.custody node = .free then
          some (shared.newNode thread node key next,
            { priv with pc := .enqueue enqueueKey node .writeKey })
        else none
    | .freed key next, .scan pc back =>
        pc.unneeded.map fun result =>
          (shared.free result.1 key next, { priv with pc := .scan result.2 back })
    | _, _ => none

/-- The state after `mr_init` and `queue_init`: one node, the dummy, in a memory with arbitrary
contents. -/
def init (dummy : NodeAddr) (key : NodeAddr → Int) (next : NodeAddr → Option NodeAddr) :
    Config (Fin n) (Shared n) Priv where
  shared :=
    { toHazards := Hazards.fresh.assign dummy .linked
      memory :=
        { head := dummy
          tail := dummy
          key := key
          next := Function.update next dummy none
          linkedKeys := []
          unlinkedKeys := [] } }
  threads := fun _ => ⟨⟨[], 0⟩, .idle⟩

/-- The node of which the next access of the thread reads or writes a field, `mr_next` included. -/
def Pc.deref : Pc → Option NodeAddr
  | .enqueue _ node .writeKey => some node
  | .enqueue _ node .writeNext => some node
  | .enqueue _ _ (.readNext t) => some t
  | .enqueue _ _ (.link t) => some t
  | .dequeue (.readNext h _) => some h
  | .dequeue (.readKey _ next) => some next
  | .retire node _ => some node
  | .scan (.sweep _ (cur :: _)) _ => some cur
  | _ => none

def CasSucceeds (shared : Shared n) : Pc → Prop
  | .enqueue _ _ (.helpTail t _) => shared.memory.tail = t
  | .enqueue _ _ (.link t) => shared.memory.next t = none
  | .enqueue _ _ (.swingTail t) => shared.memory.tail = t
  | .dequeue (.helpTail t _) => shared.memory.tail = t
  | .dequeue (.swingHead h _ _) => shared.memory.head = h
  | _ => False

def Pc.casNodes : Pc → List NodeAddr
  | .enqueue _ _ (.helpTail t next) => [t, next]
  | .enqueue _ node (.link t) => [t, node]
  | .enqueue _ node (.swingTail t) => [t, node]
  | .dequeue (.helpTail t next) => [t, next]
  | .dequeue (.swingHead h next _) => [h, next]
  | _ => []

def Result.data : Result → Option Int
  | .value data => some data
  | _ => none

def Pc.value : Pc → Option Int
  | .clear1 _ result | .clear0 _ result | .retire _ result | .scan _ (.ret result) | .ret result => result.data
  | _ => none

end Lfmr.HazardQueue
