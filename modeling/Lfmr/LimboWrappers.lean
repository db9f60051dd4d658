import Mathlib.Algebra.BigOperators.Fin
import Mathlib.Data.Fintype.BigOperators
import Lfmr.Concurrency.Linked
import Lfmr.EpochReclaim

/-!
# The wrappers of `shared_object.c`

A decrement that is put off is a wrapper on one of the three limbo lists of its thread. Wrappers that are
done with go to a pool of at most a hundred, from which new ones are taken; when it is full, all of them
are given back to the allocator.
-/

namespace Lfmr.LimboWrappers

open Lfmr.Concurrency Lfmr.EpochReclaim

abbrev Addr := Nat

def wrapperPoolSize : Nat := 100

/-- `POOL_ALLOC`: at each of its calls, some memory that is not in use. -/
structure PoolAllocator where
  alloc : Nat → Finset Addr → Addr
  unused : ∀ calls allocated, alloc calls allocated ∉ allocated

/-- The fields of the wrappers, what the thread has, and the objects. The pool has what was put in last in
front. `allocated` and `calls` are about `POOL_ALLOC`, and `decremented` records the objects whose count
has been decremented; no code reads them. -/
structure State where
  p : Addr → Nat
  next : Addr → Option Addr
  limboList : Epoch → Option Addr
  localEpoch : Epoch
  wrapperPool : List Addr
  allocated : Finset Addr
  calls : Nat
  objects : Objects
  decremented : List Nat

def State.sub (state : State) (p : Nat) : State :=
  { state with
    objects := { state.objects with rc := Function.update state.objects.rc p (state.objects.rc p - 1) }
    decremented := state.decremented ++ [p] }

/-- What `so_lockfree_dec_rc` returns; `none` if the assertion fails. -/
def decRc (p : Nat) (state : State) : Option (UInt32 × State) :=
  if p = 0 then some (0, state)
  else if state.objects.rc p = 0 then none
  else some (state.objects.rc p, state.sub p)

def newWrapper (allocator : PoolAllocator) (state : State) : Addr × State :=
  match state.wrapperPool with
  | new :: pool => (new, { state with wrapperPool := pool })
  | [] =>
      let new := allocator.alloc state.calls state.allocated
      (new, { state with allocated := insert new state.allocated, calls := state.calls + 1 })

def emptyPool (state : State) : State :=
  if state.wrapperPool.length = wrapperPoolSize then
    { state with wrapperPool := [], allocated := state.allocated \ state.wrapperPool.toFinset }
  else
    state

def freeWrapper (d : Addr) (state : State) : State :=
  let state := emptyPool state
  { state with wrapperPool := d :: state.wrapperPool }

def push (w : Addr) (p : Nat) (state : State) : State :=
  { state with
    p := Function.update state.p w p
    next := Function.update state.next w (state.limboList state.localEpoch)
    limboList := Function.update state.limboList state.localEpoch (some w) }

def delayDec (allocator : PoolAllocator) (p : Nat) (state : State) : State :=
  if p = 0 then state
  else
    let result := newWrapper allocator state
    push result.1 p result.2

def release (allocator : PoolAllocator) (p : Nat) (state : State) : State :=
  let state := delayDec allocator (state.objects.word4 p) state
  { state with objects := { state.objects with freed := state.objects.freed ++ [p] } }

def cleanOne (allocator : PoolAllocator) (pre : Addr) (state : State) : Option State :=
  (decRc (state.p pre) state).map fun result =>
    freeWrapper pre (if result.1 = 1 then release allocator (result.2.p pre) result.2 else result.2)

/-- Where the loop is after this many turns, or where it has ended before. -/
def cleanLoop (allocator : PoolAllocator) : Nat → State → Option Addr → Option (State × Option Addr)
  | _, state, none => some (state, none)
  | 0, state, some cur => some (state, some cur)
  | turns + 1, state, some pre =>
      (cleanOne allocator pre state).bind fun state' => cleanLoop allocator turns state' (state.next pre)

/-- `clean_list (&limbo_list[epoch])`, with a turn for every wrapper there is. -/
def cleanList (allocator : PoolAllocator) (epoch : Epoch) (state : State) : Option State :=
  match cleanLoop allocator state.allocated.card state (state.limboList epoch) with
  | some (state, none) => some { state with limboList := Function.update state.limboList epoch none }
  | _ => none

/-- From these first wrappers the links lead through these lists, and each wrapper that has been allocated
is in one place: on one of the lists, in the pool, or in the hands of a function. -/
structure Books (state : State) (first : Epoch → Option Addr) (lists : Epoch → List Addr) (hand : List Addr) :
    Prop where
  linked : ∀ epoch, Linked state.next (first epoch) (lists epoch)
  place : ∀ wrapper, ∑ epoch, (lists epoch).count wrapper + state.wrapperPool.count wrapper + hand.count wrapper =
    if wrapper ∈ state.allocated then 1 else 0
  object : ∀ epoch, ∀ wrapper ∈ lists epoch, state.p wrapper ≠ 0
  pool : state.wrapperPool.length ≤ wrapperPoolSize

def State.items (state : State) (list : List Addr) : List Nat := list.map state.p

/-- `clean_list` has drained the list of `epoch`. It has freed the objects in `freed`, and has put aside the
decrements in the wrappers `added`. -/
structure Drained (state state' : State) (lists : Epoch → List Addr) (epoch : Epoch) (freed : List Nat)
    (added : List Addr) : Prop where
  books : Books state' state'.limboList
    (Function.update (Function.update lists epoch []) state.localEpoch (added ++ lists state.localEpoch)) []
  localEpoch : state'.localEpoch = state.localEpoch
  items : ∀ other, other ≠ epoch → state'.items (lists other) = state.items (lists other)
  decremented : state'.decremented = state.decremented ++ state.items (lists epoch)
  rc : ∀ object, (state'.objects.rc object).toNat + (state.items (lists epoch)).count object =
    (state.objects.rc object).toNat
  word4 : state'.objects.word4 = state.objects.word4
  freed_eq : state'.objects.freed = state.objects.freed ++ freed
  mem_freed : ∀ object, object ∈ freed ↔ object ∈ state.items (lists epoch) ∧ state'.objects.rc object = 0
  nodup : freed.Nodup
  added_eq : state'.items added = ((freed.map state.objects.word4).filter (· ≠ 0)).reverse

end Lfmr.LimboWrappers
