import Lfmr.Concurrency.Interleaving
import Lfmr.Concurrency.Sections
import Lfmr.Header

/-!
# The three-epoch schemes, `auto_ebr.c` and `shared_object.c`

`critical_enter`, `critical_exit`, `free_node_later`, `clean_list` and `update_epoch` of `auto_ebr.c` and
`so_lockfree_on_entry`, `so_lockfree_on_exit`, `so_lockfree_delay_dec`, `clean_list` and `update_epoch` of the
Encore runtime's `shared_object.c` are the same code up to a `Scheme`: what draining one limbo entry does, which
value `update_epoch` compares the local epochs with, and who can register an entry.
-/

namespace Lfmr.EpochReclaim

open Lfmr.Concurrency

structure Scheme (Item Heap Op : Type) where
  /-- `update_threadhold`, `entry_max`. -/
  entryMax : Nat
  /-- Whether `update_epoch` compares with a copy of `global_epoch` taken before the lock, instead of
  reading it again for each thread. -/
  copiesEpoch : Bool
  /-- Whether an entry can be registered outside a critical section: `free_node_later` is exported, while
  `so_lockfree_delay_dec` is called by methods and `clean_list` only. -/
  retiresOutside : Bool
  /-- What `clean_list` does with an entry, and whether the object has to be released after it. -/
  execute : Heap → Item → Heap × Bool
  /-- The release of an object: the heap without it, and the entry to register in its turn. -/
  release : Heap → Item → Heap × Option Item
  client : Op → Heap → Heap

variable {n : Nat} {Item Heap Op : Type}

/-- An entry of a limbo list. `openWhen` records, for no code to read, the critical sections that were
open when the entry was registered. -/
structure Deferred (n : Nat) (Item : Type) where
  item : Item
  openWhen : Fin n → Option Nat

/-- `per_thread_meta_t`, `per_thread_t`. -/
structure PerThread (n : Nat) (Item : Type) where
  limboList : Epoch → List (Deferred n Item)
  entries : Nat
  inCritical : Bool
  localEpoch : Epoch

def PerThread.push (record : PerThread n Item) (entry : Deferred n Item) : PerThread n Item :=
  { record with
    limboList := Function.update record.limboList record.localEpoch
      (entry :: record.limboList record.localEpoch) }

/-- `auto_ebr_t`, `so_gc_t`. A thread's critical section lasts from the return of the entry function to
the call of the exit function; no code reads the record of them. -/
structure Shared (n : Nat) (Item Heap : Type) extends Sections (Fin n) where
  threads : Fin n → PerThread n Item
  globalEpoch : Epoch
  globalEpochLock : Bool
  heap : Heap

def Shared.setThread (shared : Shared n Item Heap) (thread : Fin n)
    (write : PerThread n Item → PerThread n Item) : Shared n Item Heap :=
  { shared with threads := Function.update shared.threads thread (write (shared.threads thread)) }

def Shared.open (shared : Shared n Item Heap) (thread : Fin n) : Shared n Item Heap :=
  { shared with toSections := shared.enter thread }

/-- Program points. `localEpoch` is the variable the entry function reads once at its start. -/
inductive Pc (n : Nat) (Item : Type) where
  | outside
  | inside
  /-- The entry function: raise the flag, read the global epoch. -/
  | raiseFlag (localEpoch : Epoch)
  | readEpoch (localEpoch : Epoch)
  /-- A new epoch: `clean_list`, then the writes of the local epoch and of the entry count. -/
  | cleanStart (localEpoch globalEpoch : Epoch)
  | clean (localEpoch globalEpoch : Epoch) (cur : List (Deferred n Item))
  | cleanRelease (localEpoch globalEpoch : Epoch) (item : Item) (cur : List (Deferred n Item))
  | publish (globalEpoch : Epoch)
  | resetEntries
  /-- The same epoch: count the entry, and after too many of them lower the flag and update. -/
  | countEntry (localEpoch : Epoch)
  | lowerFlag (localEpoch : Epoch)
  | resetCount (localEpoch : Epoch)
  /-- `update_epoch`, with the copy of the epoch it compares with, if it took one. -/
  | copyEpoch (localEpoch : Epoch)
  | tryLock (localEpoch : Epoch) (expected : Option Epoch)
  | scanFlag (localEpoch : Epoch) (expected : Option Epoch) (i : Nat)
  | scanLocal (localEpoch : Epoch) (expected : Option Epoch) (i : Nat)
  | scanGlobal (localEpoch : Epoch) (i : Nat) (found : Epoch)
  | advanceRead (localEpoch : Epoch)
  | advanceWrite (localEpoch globalEpoch : Epoch)
  | unlock (localEpoch : Epoch)

inductive Choice (Item Op : Type) where
  | go
  | enter
  | exit
  | retire (item : Item)
  | client (op : Op)

def Choice.isRetire : Choice Item Op → Bool
  | .retire _ => true
  | _ => false

variable (scheme : Scheme Item Heap Op)

/-- `free_node_later`, `so_lockfree_delay_dec`: the entry goes on the list of the stored local
epoch. -/
def retire (thread : Fin n) (item : Item) (shared : Shared n Item Heap) : Shared n Item Heap :=
  shared.setThread thread fun record => record.push { item, openWhen := shared.snapshot }

def call (thread : Fin n) (shared : Shared n Item Heap) :
    Pc n Item → Choice Item Op → Option (Shared n Item Heap × Pc n Item)
  | .outside, .enter => some (shared, .raiseFlag (shared.threads thread).localEpoch)
  | .inside, .exit =>
      some ({ shared.setThread thread fun record => { record with inCritical := false } with
        toSections := shared.exit thread }, .outside)
  | .inside, .retire item => some (retire thread item shared, .inside)
  | .outside, .retire item =>
      if scheme.retiresOutside then some (retire thread item shared, .outside) else none
  | .inside, .client op => some ({ shared with heap := scheme.client op shared.heap }, .inside)
  | _, _ => none

def cleanList (thread : Fin n) (shared : Shared n Item Heap) :
    Pc n Item → Option (Shared n Item Heap × Pc n Item)
  | .cleanStart l g => some (shared, .clean l g ((shared.threads thread).limboList g))
  | .clean l g (entry :: cur) =>
      let (heap, released) := scheme.execute shared.heap entry.item
      some ({ shared with heap }, if released then .cleanRelease l g entry.item cur else .clean l g cur)
  | .cleanRelease l g item cur =>
      match scheme.release shared.heap item with
      | (heap, none) => some ({ shared with heap }, .clean l g cur)
      | (heap, some next) => some (retire thread next { shared with heap }, .clean l g cur)
  | .clean _ g [] =>
      some (shared.setThread thread fun record =>
        { record with limboList := Function.update record.limboList g [] }, .publish g)
  | _ => none

def criticalEnter (thread : Fin n) (shared : Shared n Item Heap) :
    Pc n Item → Option (Shared n Item Heap × Pc n Item)
  | .raiseFlag l =>
      some (shared.setThread thread fun record => { record with inCritical := true }, .readEpoch l)
  | .readEpoch l =>
      if l ≠ shared.globalEpoch then
        some (shared, .cleanStart l shared.globalEpoch)
      else
        some (shared, .countEntry l)
  | .publish g =>
      some (shared.setThread thread fun record => { record with localEpoch := g }, .resetEntries)
  | .resetEntries =>
      some ((shared.setThread thread fun record => { record with entries := 0 }).open thread, .inside)
  | .countEntry l =>
      let counted := shared.setThread thread fun record => { record with entries := record.entries + 1 }
      if (shared.threads thread).entries < scheme.entryMax then
        some (counted.open thread, .inside)
      else
        some (counted, .lowerFlag l)
  | .lowerFlag l =>
      some (shared.setThread thread fun record => { record with inCritical := false }, .resetCount l)
  | .resetCount l =>
      some (shared.setThread thread fun record => { record with entries := 0 },
        if scheme.copiesEpoch then .copyEpoch l else .tryLock l none)
  | _ => none

def updateEpoch (shared : Shared n Item Heap) :
    Pc n Item → Option (Shared n Item Heap × Pc n Item)
  | .copyEpoch l => some (shared, .tryLock l (some shared.globalEpoch))
  | .tryLock l expected =>
      if shared.globalEpochLock then
        some (shared, .raiseFlag l)
      else
        some ({ shared with globalEpochLock := true }, .scanFlag l expected 0)
  | .scanFlag l expected i =>
      if h : i < n then
        if (shared.threads ⟨i, h⟩).inCritical then
          some (shared, .scanLocal l expected i)
        else
          some (shared, .scanFlag l expected (i + 1))
      else
        some (shared, .advanceRead l)
  | .scanLocal l expected i =>
      if h : i < n then
        match expected with
        | none => some (shared, .scanGlobal l i (shared.threads ⟨i, h⟩).localEpoch)
        | some globalEpoch =>
            if (shared.threads ⟨i, h⟩).localEpoch ≠ globalEpoch then
              some (shared, .unlock l)
            else
              some (shared, .scanFlag l expected (i + 1))
      else
        none
  | .scanGlobal l i found =>
      if found ≠ shared.globalEpoch then
        some (shared, .unlock l)
      else
        some (shared, .scanFlag l none (i + 1))
  | .advanceRead l => some (shared, .advanceWrite l shared.globalEpoch)
  | .advanceWrite l g => some ({ shared with globalEpoch := g + 1 }, .unlock l)
  | .unlock l => some ({ shared with globalEpochLock := false }, .raiseFlag l)
  | _ => none

def code : Code (Fin n) (Choice Item Op) (Shared n Item Heap) (Pc n Item) :=
  fun thread choice shared pc =>
    match choice with
    | .go =>
        match criticalEnter scheme thread shared pc with
        | some result => some result
        | none =>
            match cleanList scheme thread shared pc with
            | some result => some result
            | none => updateEpoch shared pc
    | choice => call scheme thread shared pc choice

/-- The state after `auto_ebr_init`, `encore_create_so`: zeroed records, and the global epoch 1. -/
def init (heap : Heap) : Config (Fin n) (Shared n Item Heap) (Pc n Item) :=
  { shared :=
      { threads := fun _ =>
          { limboList := fun _ => [], entries := 0, inCritical := false, localEpoch := 0 }
        globalEpoch := 1
        globalEpochLock := false
        heap
        toSections := .fresh }
    threads := fun _ => .outside }

def Pc.unpublished : Pc n Item → Option Epoch
  | .cleanStart _ g | .clean _ g _ | .cleanRelease _ g _ _ | .publish g => some g
  | _ => none

/-- No thread is about to drain an entry that was registered while a critical section was open that
still is. -/
def GracePeriod (config : Config (Fin n) (Shared n Item Heap) (Pc n Item)) : Prop :=
  ∀ (collector : Fin n) (l g : Epoch) (entry : Deferred n Item) (cur : List (Deferred n Item)),
    config.threads collector = .clean l g (entry :: cur) →
    ∀ (reader : Fin n) (k : Nat), entry.openWhen reader = some k → ¬ config.shared.StillOpen reader k

/-- `auto_ebr.c`: draining an entry frees the node. The heap is the list of the freed nodes. -/
def autoEbr : Scheme NodeAddr (List NodeAddr) Empty :=
  { entryMax := 100
    copiesEpoch := false
    retiresOutside := true
    execute := fun freed node => (freed ++ [node], false)
    release := fun freed _ => (freed, none)
    client := fun op _ => op.elim }

/-- The slots of the `threads` array that `update_epoch` of `auto_ebr.c` scans. -/
abbrev maxThreads : Nat := 65

/-- The objects of the Encore runtime: their reference counts, the word at offset 4 of each (zero is
the null pointer), and the list of the freed ones. -/
structure Objects where
  rc : Nat → UInt32
  word4 : Nat → Nat
  freed : List Nat

/-- `shared_object.c`: draining an entry decrements the object's count; when it was one, the word at
offset 4 is registered for a decrement, unless it is null, and the object is freed. -/
def sharedObject : Scheme Nat Objects (Objects → Objects) :=
  { entryMax := 100
    copiesEpoch := true
    retiresOutside := false
    execute := fun objects p =>
      ({ objects with rc := Function.update objects.rc p (objects.rc p - 1) }, objects.rc p == 1)
    release := fun objects p =>
      ({ objects with freed := objects.freed ++ [p] },
        if objects.word4 p = 0 then none else some (objects.word4 p))
    client := fun op objects => op objects }

end Lfmr.EpochReclaim
