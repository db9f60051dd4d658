import Mathlib.Data.Fintype.Prod
import Lfmr.Concurrency.RefCount
import Lfmr.Header

/-!
# The deferred reference counts of `shared_object.c`

The calls the code generator emits for fields that hold objects of a spine class, one after the other. An
object has one such field, its `next`, at offset 4; the shared object has any number of them. A count is
decremented when a limbo list is cleaned, some time after the reference has gone.

A call ends without a result if an assertion fails or if memory is accessed that no object has.
-/

namespace Lfmr.DeferredCounts

open Lfmr.Concurrency

abbrev Addr := Nat

/-- A `void *`: the address, which is 0 for `NULL`, and the freeze bit. -/
structure Ptr where
  value : Addr
  frozen : Bool
  deriving DecidableEq

namespace Ptr

def null : Ptr := ⟨0, false⟩

def of (object : Addr) : Ptr := ⟨object, false⟩

def freeze (p : Ptr) : Ptr := { p with frozen := true }

def refs (p : Ptr) (object : Addr) : Nat := if p.value = object then 1 else 0

end Ptr

inductive Loc (Root : Type)
  | root (root : Root)
  | next (object : Addr)

/-- `live` are the objects that have been allocated and not freed. Each thread has a limbo list for each
epoch, the last entry in front. -/
structure State (Root Tid : Type) where
  root : Root → Ptr
  next : Addr → Ptr
  rc : Addr → UInt32
  published : Addr → Bool
  live : Finset Addr
  limboList : Tid × Epoch → List Ptr
  localEpoch : Tid → Epoch

variable {Root Tid : Type}

namespace State

def read (state : State Root Tid) : Loc Root → Ptr
  | .root root => state.root root
  | .next object => state.next object

def setRc (state : State Root Tid) (object : Addr) (rc : UInt32) : State Root Tid :=
  { state with rc := Function.update state.rc object rc }

def setPublished (state : State Root Tid) (object : Addr) (published : Bool) : State Root Tid :=
  { state with published := Function.update state.published object published }

def allocate (state : State Root Tid) (object : Addr) : State Root Tid :=
  { state with
    next := Function.update state.next object .null
    rc := Function.update state.rc object 0
    published := Function.update state.published object false
    live := insert object state.live }

def hasLoc (state : State Root Tid) : Loc Root → Bool
  | .root _ => true
  | .next object => object ∈ state.live

def hasObject (state : State Root Tid) (object : Addr) : Bool :=
  object = 0 ∨ object ∈ state.live

def hasUnpublished (state : State Root Tid) (object : Addr) : Bool :=
  object = 0 ∨ object ∈ state.live ∧ state.published object = false

section

variable [DecidableEq Root] [DecidableEq Tid]

def write (state : State Root Tid) (loc : Loc Root) (p : Ptr) : State Root Tid :=
  match loc with
  | .root root => { state with root := Function.update state.root root p }
  | .next object => { state with next := Function.update state.next object p }

def setList (state : State Root Tid) (index : Tid × Epoch) (list : List Ptr) : State Root Tid :=
  { state with limboList := Function.update state.limboList index list }

end

end State

open State

def incRc (p : Addr) (state : State Root Tid) : State Root Tid :=
  if p = 0 then state else state.setRc p (state.rc p + 1)

def prePublish (p : Addr) (state : State Root Tid) : State Root Tid :=
  if p = 0 then state else incRc p (state.setPublished p true)

/-- `so_lockfree_unpre_publish`, after `so_lockfree_pre_publish`. -/
def unprePublish (p : Addr) (state : State Root Tid) : State Root Tid :=
  if p = 0 then state
  else
    let state := state.setPublished p false
    state.setRc p (state.rc p - 1)

section

variable [DecidableEq Root] [DecidableEq Tid]

def delayDec (thread : Tid) (p : Ptr) (state : State Root Tid) : State Root Tid :=
  if p = .null then state
  else
    let index := (thread, state.localEpoch thread)
    state.setList index (p :: state.limboList index)

/-- The loop body of `clean_list`. A pointer with the freeze bit is not the address of an object. -/
def cleanOne (thread : Tid) (state : State Root Tid) (p : Ptr) : Option (State Root Tid) :=
  if p.frozen = false ∧ p.value ∈ state.live ∧ state.rc p.value ≠ 0 then
    let decremented := state.setRc p.value (state.rc p.value - 1)
    if state.rc p.value = 1 then
      let queued := delayDec thread (decremented.next p.value) decremented
      some { queued with live := queued.live.erase p.value }
    else some decremented
  else none

def cleanList (thread : Tid) (epoch : Epoch) (state : State Root Tid) : Option (State Root Tid) :=
  ((state.limboList (thread, epoch)).foldlM (cleanOne thread) state).map fun state =>
    state.setList (thread, epoch) []

/-- The assignment of a field: the wrapper, then the write. -/
def assign (thread : Tid) (loc : Loc Root) (rhs : Addr) (state : State Root Tid) : Option (State Root Tid) :=
  let lhs := state.read loc
  if state.hasLoc loc ∧ state.hasObject rhs ∧ lhs.frozen = false then
    let state := incRc rhs state
    let state := if lhs.value ≠ 0 ∧ state.published lhs.value then delayDec thread lhs state else state
    some (state.write loc (.of rhs))
  else none

def assignSpec (thread : Tid) (loc : Loc Root) (rhs : Addr) (state : State Root Tid) : Option (State Root Tid) :=
  assign thread loc rhs state

def assignSubord (thread : Tid) (loc : Loc Root) (rhs : Addr) (state : State Root Tid) : Option (State Root Tid) :=
  assign thread loc rhs state

/-- `_so_lockfree_cas_try_wrapper`, with the value `y` that was found in the field without the freeze bit. -/
def casTry (loc : Loc Root) (y z : Addr) (state : State Root Tid) : Option (State Root Tid) :=
  if state.hasLoc loc ∧ state.hasUnpublished z then
    let state := prePublish z state
    if state.read loc = .of y then
      if y = 0 then some (state.write loc (Ptr.of z).freeze) else none
    else some (unprePublish z state)
  else none

/-- A compare-and-swap that puts an unpublished object in the place of another. -/
def casPublish (thread : Tid) (loc : Loc Root) (y z : Addr) (state : State Root Tid) : Option (State Root Tid) :=
  if state.hasLoc loc ∧ state.hasUnpublished z then
    let state := prePublish z state
    if state.read loc = .of y then some (delayDec thread (.of y) (state.write loc (.of z)))
    else some (unprePublish z state)
  else none

def casLink (thread : Tid) (loc : Loc Root) (y z : Addr) (state : State Root Tid) : Option (State Root Tid) :=
  casPublish thread loc y z state

def casSwap (thread : Tid) (loc : Loc Root) (y z : Addr) (state : State Root Tid) : Option (State Root Tid) :=
  casPublish thread loc y z state

def casUnlink (thread : Tid) (loc : Loc Root) (y z : Addr) (state : State Root Tid) : Option (State Root Tid) :=
  if state.hasLoc loc ∧ state.hasObject z then
    let state := incRc z state
    if state.read loc = .of y then some (delayDec thread (.of y) (state.write loc (.of z)))
    else some (delayDec thread (.of z) state)
  else none

/-- `new` is the allocation of an object and `publish` what happens to a field of the shared object after
its `init`. `fix` sets the freeze bit, and `clean` is the part of `so_lockfree_on_entry` that follows a
change of the global epoch. -/
inductive Call (Root Tid : Type)
  | new (object : Addr)
  | publish (root : Root)
  | assignSpec (thread : Tid) (loc : Loc Root) (rhs : Addr)
  | assignSubord (thread : Tid) (loc : Loc Root) (rhs : Addr)
  | casTry (loc : Loc Root) (y z : Addr)
  | casLink (thread : Tid) (loc : Loc Root) (y z : Addr)
  | casSwap (thread : Tid) (loc : Loc Root) (y z : Addr)
  | casUnlink (thread : Tid) (loc : Loc Root) (y z : Addr)
  | fix (loc : Loc Root)
  | clean (thread : Tid) (epoch : Epoch)

def step (state : State Root Tid) : Call Root Tid → Option (State Root Tid)
  | .new object =>
      if object ≠ 0 ∧ object ∉ state.live then some (state.allocate object) else none
  | .publish root =>
      if (state.root root).value = 0 then some state
      else some (state.setPublished (state.root root).value true)
  | .assignSpec thread loc rhs => assignSpec thread loc rhs state
  | .assignSubord thread loc rhs => assignSubord thread loc rhs state
  | .casTry loc y z => casTry loc y z state
  | .casLink thread loc y z => casLink thread loc y z state
  | .casSwap thread loc y z => casSwap thread loc y z state
  | .casUnlink thread loc y z => casUnlink thread loc y z state
  | .fix loc => if state.hasLoc loc then some (state.write loc (state.read loc).freeze) else none
  | .clean thread epoch =>
      if epoch = state.localEpoch thread then none
      else (cleanList thread epoch state).map fun state =>
        { state with localEpoch := Function.update state.localEpoch thread epoch }

def initial : State Root Tid where
  root _ := .null
  next _ := .null
  rc _ := 0
  published _ := false
  live := ∅
  limboList _ := []
  localEpoch _ := 0

def run (calls : List (Call Root Tid)) (state : State Root Tid) : Option (State Root Tid) :=
  calls.foldlM step state

variable [Fintype Root] [Fintype Tid]

def State.fields (state : State Root Tid) (object : Addr) : Nat :=
  ∑ root, (state.root root).refs object + ∑ other ∈ state.live, (state.next other).refs object

def State.pending (state : State Root Tid) (object : Addr) : Nat :=
  ∑ index, (state.limboList index).count (.of object)

def State.number (state : State Root Tid) (object : Addr) : Nat := state.fields object + state.pending object

/-- The counts of published objects are exact, and those of which the number has become 0 have been freed. -/
structure Exact (state : State Root Tid) : Prop where
  rc : ∀ object ∈ state.live, state.published object = true → (state.rc object).toNat = state.number object
  kept : ∀ object ∈ state.live, state.published object = true → state.number object ≠ 0
  freed : ∀ object, object ≠ 0 → object ∉ state.live → state.number object = 0

structure Cleaned (state state' : State Root Tid) (thread : Tid) (epoch : Epoch) (freed : List Addr) : Prop where
  mem_freed : ∀ object, object ∈ freed ↔ object ∈ state.live ∧ object ∉ state'.live
  nodup : freed.Nodup
  queued : state'.limboList (thread, state.localEpoch thread) =
    ((freed.map fun object => Ptr.of (state.next object).value).filter (· ≠ .null)).reverse ++
      state.limboList (thread, state.localEpoch thread)
  drained : state'.limboList (thread, epoch) = []
  others : ∀ index, index ≠ (thread, epoch) → index ≠ (thread, state.localEpoch thread) →
    state'.limboList index = state.limboList index

/-- The assignment of a field that holds an unpublished object does not decrement its count, and cleaning
does not clear the freeze bit of a successor. Counts have 32 bits. -/
def Regular (state : State Root Tid) (call : Call Root Tid) : Prop :=
  (∀ object ∈ state.live, state.rc object ≠ 4294967295) ∧
    match call with
    | .assignSpec _ loc _ => (state.read loc).value = 0 ∨ state.published (state.read loc).value = true
    | .assignSubord _ loc _ => (state.read loc).value = 0 ∨ state.published (state.read loc).value = true
    | .clean thread epoch => ∀ object ∈ state.live,
        (state.rc object).toNat = (state.limboList (thread, epoch)).count (.of object) →
          .of object ∈ state.limboList (thread, epoch) → (state.next object).frozen = false
    | _ => True

def RegularRun : List (Call Root Tid) → State Root Tid → Prop
  | [], _ => True
  | call :: calls, state =>
      Regular state call ∧
        match step state call with
        | some state' => RegularRun calls state'
        | none => True

instance (state : State Root Tid) : ∀ call, Decidable (Regular state call)
  | .new _ | .publish _ => inferInstanceAs (Decidable (_ ∧ True))
  | .assignSpec _ loc _ | .assignSubord _ loc _ =>
      inferInstanceAs (Decidable (_ ∧ ((state.read loc).value = 0 ∨ _ = true)))
  | .casTry .. | .casLink .. | .casSwap .. | .casUnlink .. | .fix _ => inferInstanceAs (Decidable (_ ∧ True))
  | .clean _ _ => inferInstanceAs (Decidable (_ ∧ ∀ object ∈ state.live, _ → _ → _))

instance decidableRegularRun : ∀ (calls : List (Call Root Tid)) (state : State Root Tid),
    Decidable (RegularRun calls state)
  | [], _ => .isTrue trivial
  | call :: calls, state =>
    have : Decidable (match step state call with | some state' => RegularRun calls state' | none => True) :=
      match step state call with
      | some state' => decidableRegularRun calls state'
      | none => .isTrue trivial
    inferInstanceAs (Decidable (Regular state call ∧ _))

end

end Lfmr.DeferredCounts
