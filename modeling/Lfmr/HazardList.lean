import Lfmr.Concurrency.Hazard
import Lfmr.Concurrency.Interleaving
import Lfmr.MarkedList
import Lfmr.Smr

/-!
# The lock-free list of `list_lf_smr.c`

The list of `list_lf_ebr.c` without critical sections: a thread announces each node it comes to in one
of its two hazard pointers and checks that the node is still linked before it uses it. The other one keeps the
node before it, so the two change roles from node to node. `off` is not reset when the loop starts over.

One step is one access to the list head, to a field of a node or to `HP`, or one call of the allocator.
Who has which node, how often it has been freed and when a thread has read a pointer to it is recorded
beside the memory; no code reads it, except that the allocator returns free nodes only. Running out of
memory is not modelled: `insert` does not check for it.
-/

namespace Lfmr.HazardList

open Lfmr.Concurrency Lfmr.MarkedList Lfmr.Smr

inductive Op
  | insert (key : Int)
  | delete (key : Int)
  | search (key : Int)
  deriving DecidableEq

inductive Task
  | insert (key : Int) (node : NodeAddr)
  | delete (key : Int)
  | search (key : Int)

def Task.key : Task → Int
  | .insert key _ => key
  | .delete key => key
  | .search key => key

structure Shared (n : Nat) extends Hazards (Fin n) Nat NodeAddr where
  heap : Heap

/-- The loop of `find` and `search`. They differ where the node is not marked: `search` reads the key
before the second check, `find` after it, and once more for its result. -/
inductive WalkPc
  | load
  | protect (prev : Loc) (cur : NodeAddr)
  | check (prev : Loc) (cur : NodeAddr)
  | readNext (prev : Loc) (cur : NodeAddr)
  | unlink (prev : Loc) (cur : NodeAddr) (next : Option NodeAddr)
  | searchKey (prev : Loc) (cur : NodeAddr) (next : Option NodeAddr)
  | searchRecheck (prev : Loc) (cur : NodeAddr) (next : Option NodeAddr) (ckey : Int)
  | findRecheck (prev : Loc) (cur : NodeAddr) (next : Option NodeAddr)
  | findKey (prev : Loc) (cur : NodeAddr) (next : Option NodeAddr)
  | findKeyAgain (prev : Loc) (cur : NodeAddr) (next : Option NodeAddr)

inductive LinkPc
  | writeKey
  | writeNext
  | cas

inductive DeletePc
  | mark
  | unlink

/-- `retire` and `scan` are the two parts of `free_node_later`, with the place it returns to;
`clear` and `drain` are `mr_thread_exit`. -/
inductive Pc
  | idle
  | newNode (key : Int)
  | walk (task : Task) (off : Bool) (pc : WalkPc)
  | link (key : Int) (node : NodeAddr) (prev : Loc) (cur : Option NodeAddr) (pc : LinkPc)
  | delete (key : Int) (prev : Loc) (cur : NodeAddr) (next : Option NodeAddr) (pc : DeletePc)
  | retire (node : NodeAddr) (back : Pc)
  | scan (pc : ScanPc) (back : Pc)
  | freeNode (node : NodeAddr)
  | ret (result : Bool)
  | clear (i : Nat)
  | drain
  | gone

structure Priv extends ThisThread where
  pc : Pc

inductive Choice
  | go
  | call (op : Op)
  | threadExit
  | newNode (node : NodeAddr) (key : Int) (next : Link)
  | freed (key : Int) (next : Link)

variable {n : Nat}

def Shared.see (shared : Shared n) (thread : Fin n) (target : Option NodeAddr) : Shared n :=
  { shared with toHazards := shared.toHazards.see thread target }

def Shared.load (shared : Shared n) (thread : Fin n) (target : Option NodeAddr) : Shared n :=
  { shared with toHazards := shared.toHazards.load thread target }

def Shared.announce (shared : Shared n) (i : Nat) (target : Option NodeAddr) : Shared n :=
  { shared with toHazards := shared.toHazards.announce i target }

def Shared.newNode (shared : Shared n) (thread : Fin n) (node : NodeAddr) (key : Int) (next : Link) :
    Shared n :=
  { toHazards := (shared.toHazards.assign node (.owned thread)).load thread (some node)
    heap := shared.heap.scribble node key next }

def Shared.free (shared : Shared n) (node : NodeAddr) (key : Int) (next : Link) : Shared n :=
  { toHazards := shared.toHazards.free node
    heap := shared.heap.scribble node key next }

def found (task : Task) (prev : Loc) (cur : NodeAddr) (next : Option NodeAddr) : Pc :=
  match task with
  | .insert _ node => .freeNode node
  | .delete key => .delete key prev cur next .mark
  | .search _ => .ret true

def notFound (task : Task) (prev : Loc) (cur : Option NodeAddr) : Pc :=
  match task with
  | .insert key node => .link key node prev cur .writeKey
  | .delete _ => .ret false
  | .search _ => .ret false

def loop (task : Task) (off : Bool) (prev : Loc) (cur : Option NodeAddr) : Pc :=
  match cur with
  | some cur => .walk task off (.protect prev cur)
  | none => notFound task prev none

def unmarked (task : Task) (off : Bool) (prev : Loc) (cur : NodeAddr) (next : Option NodeAddr) : Pc :=
  match task with
  | .search _ => .walk task off (.searchKey prev cur next)
  | _ => .walk task off (.findRecheck prev cur next)

def walkStep (thread : Fin n) (shared : Shared n) (task : Task) (off : Bool) : WalkPc → Shared n × Pc
  | .load => (shared.load thread shared.heap.head, loop task off .head shared.heap.head)
  | .protect prev cur =>
      (shared.announce (slot thread off) (some cur), .walk task off (.check prev cur))
  | .check prev cur =>
      (shared.see thread (shared.heap.read prev).addr,
        if shared.heap.read prev = ⟨some cur, false⟩ then .walk task off (.readNext prev cur)
        else .walk task off .load)
  | .readNext prev cur =>
      let next := shared.heap.next cur
      (shared.load thread next.addr,
        if next.mark then .walk task off (.unlink prev cur next.addr)
        else unmarked task off prev cur next.addr)
  | .unlink prev cur next =>
      match shared.heap.cas prev (some cur) next with
      | some heap =>
          (⟨shared.toHazards.assign cur (.unlinked thread), heap⟩,
            .retire cur (loop task off prev next))
      | none => (shared, .walk task off .load)
  | .searchKey prev cur next =>
      (shared, .walk task off (.searchRecheck prev cur next (shared.heap.key cur)))
  | .searchRecheck prev cur next ckey =>
      (shared.see thread (shared.heap.read prev).addr,
        if shared.heap.read prev ≠ ⟨some cur, false⟩ then .walk task off .load
        else if ckey < task.key then loop task (!off) (.next cur) next
        else .ret (ckey == task.key))
  | .findRecheck prev cur next =>
      (shared.see thread (shared.heap.read prev).addr,
        if shared.heap.read prev ≠ ⟨some cur, false⟩ then .walk task off .load
        else .walk task off (.findKey prev cur next))
  | .findKey prev cur next =>
      (shared,
        if shared.heap.key cur < task.key then loop task (!off) (.next cur) next
        else .walk task off (.findKeyAgain prev cur next))
  | .findKeyAgain prev cur next =>
      (shared,
        if shared.heap.key cur = task.key then found task prev cur next
        else notFound task prev (some cur))

def linkStep (shared : Shared n) (key : Int) (node : NodeAddr) (prev : Loc)
    (cur : Option NodeAddr) : LinkPc → Shared n × Pc
  | .writeKey =>
      ({ shared with heap := shared.heap.setKey node key }, .link key node prev cur .writeNext)
  | .writeNext =>
      ({ shared with heap := shared.heap.write (.next node) cur }, .link key node prev cur .cas)
  | .cas =>
      match shared.heap.cas prev cur (some node) with
      | some heap => (⟨shared.toHazards.assign node .linked, heap⟩, .ret true)
      | none => (shared, .walk (.insert key node) false .load)

def deleteStep (thread : Fin n) (shared : Shared n) (key : Int) (prev : Loc) (cur : NodeAddr)
    (next : Option NodeAddr) : DeletePc → Shared n × Pc
  | .mark =>
      match shared.heap.casMark cur next with
      | some heap => ({ shared with heap := heap }, .delete key prev cur next .unlink)
      | none => (shared, .walk (.delete key) false .load)
  | .unlink =>
      match shared.heap.cas prev (some cur) next with
      | some heap =>
          (⟨shared.toHazards.assign cur (.unlinked thread), heap⟩, .retire cur (.ret true))
      | none => (shared, .ret true)

def afterPush (n : Nat) (mine : ThisThread) (back : Pc) : Pc :=
  if R n ≤ mine.retireCount then .scan (.test 0 []) back else back

def advance (thread : Fin n) (shared : Shared n) (mine : ThisThread) : Pc → Option (Shared n × Priv)
  | .walk task off pc =>
      let result := walkStep thread shared task off pc
      some (result.1, ⟨mine, result.2⟩)
  | .link key node prev cur pc =>
      let result := linkStep shared key node prev cur pc
      some (result.1, ⟨mine, result.2⟩)
  | .delete key prev cur next pc =>
      let result := deleteStep thread shared key prev cur next pc
      some (result.1, ⟨mine, result.2⟩)
  | .retire node back => some (shared, ⟨mine.push node, afterPush n (mine.push node) back⟩)
  | .scan pc back =>
      if pc.isDone then some (shared, ⟨mine, back⟩)
      else (scanStep n shared.pointer mine pc).map fun result =>
        (shared, ⟨result.1, .scan result.2 back⟩)
  | .ret _ => some (shared, ⟨mine, .idle⟩)
  | .clear i =>
      if i < K then some (shared.announce (thread.val * K + i) none, ⟨mine, .clear (i + 1)⟩)
      else some (shared, ⟨mine, .drain⟩)
  | .drain =>
      if 0 < mine.retireCount then some (shared, ⟨mine, .scan (.test 0 []) .drain⟩)
      else some (shared, ⟨mine, .gone⟩)
  | _ => none

def start : Op → Pc
  | .insert key => .newNode key
  | .delete key => .walk (.delete key) false .load
  | .search key => .walk (.search key) false .load

def code : Code (Fin n) Choice (Shared n) Priv :=
  fun thread choice shared priv =>
    match choice, priv.pc with
    | .go, pc => advance thread shared priv.toThisThread pc
    | .call op, .idle => some (shared, { priv with pc := start op })
    | .threadExit, .idle => some (shared, { priv with pc := .clear 0 })
    | .newNode node key next, .newNode insertKey =>
        if shared.custody node = .free then
          some (shared.newNode thread node key next,
            { priv with pc := .walk (.insert insertKey node) false .load })
        else none
    | .freed key next, .freeNode node => some (shared.free node key next, { priv with pc := .ret false })
    | .freed key next, .scan pc back =>
        pc.unneeded.map fun result =>
          (shared.free result.1 key next, { priv with pc := .scan result.2 back })
    | _, _ => none

def init (key : NodeAddr → Int) (next : NodeAddr → Link) : Config (Fin n) (Shared n) Priv where
  shared := ⟨Hazards.fresh, { head := none, key := key, next := next }⟩
  threads := fun _ => ⟨⟨[], 0⟩, .idle⟩

def Loc.node? : Loc → Option NodeAddr
  | .head => none
  | .next node => some node

def WalkPc.deref : WalkPc → Option NodeAddr
  | .check prev _ => Loc.node? prev
  | .readNext _ cur => some cur
  | .unlink prev _ _ => Loc.node? prev
  | .searchKey _ cur _ => some cur
  | .searchRecheck prev _ _ _ => Loc.node? prev
  | .findRecheck prev _ _ => Loc.node? prev
  | .findKey _ cur _ => some cur
  | .findKeyAgain _ cur _ => some cur
  | _ => none

/-- The node of which the next access of the thread reads or writes a field, be it as a
compare-and-swap, `mr_next` in `free_node_later` and `scan` included. -/
def Pc.deref : Pc → Option NodeAddr
  | .walk _ _ pc => pc.deref
  | .link _ _ prev _ .cas => Loc.node? prev
  | .link _ node _ _ _ => some node
  | .delete _ _ cur _ .mark => some cur
  | .delete _ prev _ _ .unlink => Loc.node? prev
  | .retire node _ => some node
  | .scan (.sweep _ (cur :: _)) _ => some cur
  | .freeNode node => some node
  | _ => none

end Lfmr.HazardList
