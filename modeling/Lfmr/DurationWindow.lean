import Lfmr.Concurrency.Interleaving
import Lfmr.Concurrency.Sections

/-!
# The duration windows of the two `dw.c`

`dw_lockfree_on_entry`, `dw_lockfree_on_exit`, `set_collectible` and `collect` of the root `dw.c`, and the same
with `so_lockfree_on_entry` and `so_lockfree_on_exit` of the Encore runtime's `dw.c`. A thread enters the
current duration; at its exit it closes the duration that is current then, hands its item over to it and leaves
the one it entered. The last thread to leave a closed duration makes it collectible, and a collector cleans the
durations in the order in which they were closed.

The two files differ in what they record at the closing of a duration and in how they manage memory.
The accesses are written once, over a `Variant`, and what is done with items and their cells is a
parameter. The counter `pending` has 32 bits, and how many values `aba` has is a parameter too. `entry`
and `exit` count threads and are unbounded numbers.
-/

namespace Lfmr.DurationWindow

open Lfmr.Concurrency

abbrev Addr := Nat

abbrev ItemAddr := Nat

/-- Addresses of the cells of an item's list, `node_t` and `trace_address_list`. -/
abbrev CellAddr := Nat

inductive Variant where
  | encore
  | root
  deriving DecidableEq

structure Scheme (n : Nat) (Heap Op : Type) where
  variant : Variant
  /-- The number of values of `aba`; it is unbounded if this is 0. -/
  abaSize : Nat
  /-- A new item for the thread. The address and the old contents of its `address` field are those
  an allocator would give. -/
  newItem : Fin n → ItemAddr → Option CellAddr → Heap → Option (ItemAddr × Heap)
  client : Op → ItemAddr → Heap → Heap
  /-- The list that `clean_one` walks, what it does with a cell, and what with the item in the end. -/
  address : Heap → ItemAddr → Option CellAddr
  visit : Heap → CellAddr → Heap × Option CellAddr
  release : Fin n → ItemAddr → Heap → Heap
  markSweep : Heap → Heap

variable {n : Nat} {Heap Op : Type}

/-- `duration_t`. The field `closed`, which only assertions read, is left out. `openWhen` records, for
no code to read, the critical sections that were open when the duration was closed. -/
structure Duration (n : Nat) where
  head : Option ItemAddr
  entry : Nat
  exit : Nat
  collectible : Bool
  stw : Bool
  next : Option Addr
  openWhen : Fin n → Option Nat

/-- What `new_duration`, `new_headless_duration` write. The field `entry` is not among it. -/
def Duration.reset (duration : Duration n) : Duration n :=
  { duration with head := none, exit := 0, collectible := false, stw := false, next := none }

/-- `dw_gc_t`, `so_gc_t`, the memory of the durations, and the pools of the threads. A critical section
lasts from the return of the entry function to the call of the exit function. -/
structure Shared (n : Nat) (Heap : Type) extends Sections (Fin n) where
  aba : Nat
  entry : Nat
  currentD : Addr
  queueHead : Addr
  queueTail : Addr
  pending : Nat
  lock : Bool
  durations : Addr → Duration n
  allocated : Addr → Bool
  durationPool : Fin n → List Addr
  heap : Heap

def Shared.write (shared : Shared n Heap) (d : Addr) (change : Duration n → Duration n) :
    Shared n Heap :=
  { shared with durations := Function.update shared.durations d (change (shared.durations d)) }

def uint32Size : Nat := 4294967296

/-! ### Program points -/

inductive EntryPc where
  | loadAba
  | readCurrent (aba : Nat)
  | loadEntry (aba : Nat) (d : Addr)
  | cas (aba entry : Nat) (d : Addr)
  | storeDuration (d : Addr)

/-- The loop of the exit function, which closes the current duration `d`. -/
inductive ClosePc where
  | loadAba
  | cas (aba : Nat)
  | readCurrent
  | readEntry (d : Addr)
  | zeroEntry (d : Addr)
  | storeEntry (d : Addr) (entry : Nat)
  | readCount (d : Addr)
  | storeCount (d : Addr) (entry : Nat)
  | storeHead (d : Addr)
  | new (d : Addr)
  | storeCurrent (d new : Addr)
  | pushRead (d : Addr)
  | pushHead (d prev : Addr)
  | pushNext (d prev : Addr)
  | addAba (d : Addr)
  | lateHead (d : Addr)

/-- `set_collectible (d)`. A load of `d->entry` after the addition comes with the value it had at the
addition, which no code reads. -/
inductive SettlePc where
  | start
  | add (entry : Nat)
  | late (exit entryThen : Nat)
  | store

inductive CollectPc where
  | addPending
  | casLock
  | loadPending
  | casEmpty
  | subPending
  | peekTail
  | peekNext (tail : Addr)
  | loadCollectible (d : Addr)
  | readHead (d : Addr)
  | cleanOne (d : Addr) (item : ItemAddr)
  | cleanCell (d : Addr) (item : ItemAddr) (cur : Option CellAddr)
  | popTail (d : Addr)
  | popNext (d tail : Addr)
  | popFree (d tail next : Addr)
  | popStore (d next : Addr)
  | readStw (d : Addr)
  | addAba
  | readPending
  | casLoop

/-- A thread outside, in the entry function, inside with its `item` and `item->duration`, or in the
exit function. There `rest` is the duration still to be settled after the one at hand. -/
inductive Pc where
  | outside
  | entry (item : ItemAddr) (pc : EntryPc)
  | inside (item : ItemAddr) (duration : Addr)
  | close (item : ItemAddr) (myD : Addr) (pc : ClosePc)
  | settle (d : Addr) (rest : Option Addr) (pc : SettlePc)
  | collect (rest : Option Addr) (pc : CollectPc)

/-- What the code leaves open: the calls of the client, the memory that `malloc` returns together with
the old contents of the field `entry`, and in which order the operands of `==` are evaluated. -/
inductive Choice (Op : Type) where
  | go
  | enter (item : ItemAddr) (address : Option CellAddr)
  | client (op : Op)
  | exit
  | malloc (d : Addr) (entry : Nat)
  | late

/-! ### Memory of the durations -/

def durationPoolSize : Nat := 100

def malloc (d : Addr) (entry : Nat) (shared : Shared n Heap) : Option (Addr × Shared n Heap) :=
  if shared.allocated d then
    none
  else
    let owned := { shared with allocated := Function.update shared.allocated d true }
    some (d, owned.write d fun duration => { duration.reset with entry })

/-- `new_duration` and `new_headless_duration`. No other thread knows the address yet, so the writes of
the fields are one step. -/
def newDuration (variant : Variant) (thread : Fin n) (shared : Shared n Heap) :
    Choice Op → Option (Addr × Shared n Heap)
  | .malloc d entry =>
      match variant, shared.durationPool thread with
      | .root, _ :: _ => none
      | _, _ => malloc d entry shared
  | .go =>
      match variant, shared.durationPool thread with
      | .root, d :: rest =>
          let popped :=
            { shared with durationPool := Function.update shared.durationPool thread rest }
          some (d, popped.write d Duration.reset)
      | _, _ => none
  | _ => none

def freeDuration (variant : Variant) (thread : Fin n) (d : Addr) (shared : Shared n Heap) :
    Shared n Heap :=
  match variant with
  | .encore => { shared with allocated := Function.update shared.allocated d false }
  | .root =>
      let pool := shared.durationPool thread
      if pool.length = durationPoolSize then
        { shared with
          allocated := fun a => shared.allocated a && !pool.contains a
          durationPool := Function.update shared.durationPool thread [d] }
      else
        { shared with durationPool := Function.update shared.durationPool thread (d :: pool) }

/-! ### The functions -/

variable (scheme : Scheme n Heap Op)

/-- `dw_lockfree_on_entry`, `so_lockfree_on_entry`. -/
def onEntry (thread : Fin n) (item : ItemAddr) (shared : Shared n Heap) :
    EntryPc → Shared n Heap × Pc
  | .loadAba =>
      if shared.aba % 2 ≠ 0 then
        (shared, .entry item .loadAba)
      else
        (shared, .entry item (.readCurrent shared.aba))
  | .readCurrent aba => (shared, .entry item (.loadEntry aba shared.currentD))
  | .loadEntry aba d => (shared, .entry item (.cas aba shared.entry d))
  | .cas aba entry d =>
      if shared.aba = aba ∧ shared.entry = entry then
        ({ shared with entry := entry + 1 }, .entry item (.storeDuration d))
      else if shared.aba ≠ aba then
        (shared, .entry item .loadAba)
      else
        (shared, .entry item (.cas aba shared.entry d))
  | .storeDuration d => ({ shared with toSections := shared.enter thread }, .inside item d)

def settleBoth (myD d : Addr) : Pc :=
  if d ≠ myD then .settle d (some myD) .start else .settle myD none .start

/-- The writes to a duration that is being closed, up to the allocation of the next one. The Encore
file stores the number of entries and the item in the duration, the root file has the number in a
local variable only. -/
def closeDuration (item : ItemAddr) (myD : Addr) (shared : Shared n Heap) :
    ClosePc → Option (Shared n Heap × Pc)
  | .readEntry d =>
      match scheme.variant with
      | .encore => some ({ shared with entry := 0 }, .close item myD (.storeEntry d shared.entry))
      | .root => some (shared, .close item myD (.zeroEntry d))
  | .zeroEntry d => some ({ shared with entry := 0 }, .close item myD (.new d))
  | .storeEntry d entry =>
      some (shared.write d fun duration => { duration with entry },
        .close item myD (if d ≠ myD then .readCount d else .storeHead d))
  | .readCount d => some (shared, .close item myD (.storeCount d (shared.durations d).entry))
  | .storeCount d entry =>
      some (shared.write d fun duration => { duration with entry := entry + 1 },
        .close item myD (.storeHead d))
  | .storeHead d =>
      some (shared.write d fun duration => { duration with head := some item },
        .close item myD (.new d))
  | .lateHead d =>
      some (shared.write d fun duration => { duration with head := some item }, settleBoth myD d)
  | _ => none

/-- `dw_lockfree_on_exit`, `so_lockfree_on_exit`, up to the calls of `set_collectible`. -/
def onExit (thread : Fin n) (choice : Choice Op) (item : ItemAddr) (myD : Addr)
    (shared : Shared n Heap) : ClosePc → Option (Shared n Heap × Pc)
  | .loadAba =>
      if shared.aba % 2 ≠ 0 then
        some (shared, .close item myD .loadAba)
      else
        some (shared, .close item myD (.cas shared.aba))
  | .cas aba =>
      if shared.aba = aba then
        some ({ shared with aba := (aba + 1) % scheme.abaSize }, .close item myD .readCurrent)
      else
        some (shared, .close item myD .loadAba)
  | .readCurrent => some (shared, .close item myD (.readEntry shared.currentD))
  | .new d =>
      (newDuration scheme.variant thread shared choice).map fun (new, shared) =>
        (shared, .close item myD (.storeCurrent d new))
  | .storeCurrent d new =>
      some ({ shared with currentD := new }.write d fun duration =>
        { duration with openWhen := shared.snapshot }, .close item myD (.pushRead d))
  | .pushRead d => some (shared, .close item myD (.pushHead d shared.queueHead))
  | .pushHead d prev => some ({ shared with queueHead := d }, .close item myD (.pushNext d prev))
  | .pushNext d prev =>
      some (shared.write prev fun duration => { duration with next := some d },
        .close item myD (.addAba d))
  | .addAba d =>
      some ({ shared with aba := (shared.aba + 1) % scheme.abaSize },
        match scheme.variant with
        | .encore => settleBoth myD d
        | .root => .close item myD (.lateHead d))
  | pc => closeDuration scheme item myD shared pc

def settleRest : Option Addr → Pc
  | some myD => .settle myD none .start
  | none => .outside

/-- `set_collectible`. The Encore file loads `d->entry` before the addition; in the root file it is the
other operand of `==`, and may as well be loaded after it. -/
def setCollectible (choice : Choice Op) (d : Addr) (rest : Option Addr) (shared : Shared n Heap) :
    SettlePc → Option (Shared n Heap × Pc)
  | .start =>
      let duration := shared.durations d
      match scheme.variant, choice with
      | _, .go => some (shared, .settle d rest (.add duration.entry))
      | .root, .late =>
          some (shared.write d fun duration => { duration with exit := duration.exit + 1 },
            .settle d rest (.late duration.exit duration.entry))
      | _, _ => none
  | .add entry =>
      some (shared.write d fun duration => { duration with exit := duration.exit + 1 },
        if (shared.durations d).exit + 1 = entry then .settle d rest .store else settleRest rest)
  | .late exit _ =>
      some (shared,
        if exit + 1 = (shared.durations d).entry then .settle d rest .store else settleRest rest)
  | .store =>
      some (shared.write d fun duration => { duration with collectible := true },
        .collect rest .addPending)

def collectOne (thread : Fin n) (rest : Option Addr) (shared : Shared n Heap) :
    CollectPc → Option (Shared n Heap × Pc)
  | .peekTail => some (shared, .collect rest (.peekNext shared.queueTail))
  | .peekNext tail =>
      match (shared.durations tail).next with
      | none => some (shared, .collect rest .readPending)
      | some d => some (shared, .collect rest (.loadCollectible d))
  | .loadCollectible d =>
      if (shared.durations d).collectible then
        some (shared, .collect rest (.readHead d))
      else
        some (shared, .collect rest .readPending)
  | .readHead d =>
      (shared.durations d).head.map fun item => (shared, .collect rest (.cleanOne d item))
  | .cleanOne d item =>
      some (shared, .collect rest (.cleanCell d item (scheme.address shared.heap item)))
  | .cleanCell d item (some cur) =>
      let (heap, next) := scheme.visit shared.heap cur
      some ({ shared with heap }, .collect rest (.cleanCell d item next))
  | .cleanCell d item none =>
      some ({ shared with heap := scheme.release thread item shared.heap }, .collect rest (.popTail d))
  | .popTail d => some (shared, .collect rest (.popNext d shared.queueTail))
  | .popNext d tail =>
      match (shared.durations tail).next with
      | none => some (shared, .collect rest (.readStw d))
      | some next => some (shared, .collect rest (.popFree d tail next))
  | .popFree d tail next =>
      some (freeDuration scheme.variant thread tail shared, .collect rest (.popStore d next))
  | .popStore d next => some ({ shared with queueTail := next }, .collect rest (.readStw d))
  | .readStw d =>
      -- The root file has no such field and goes on with the next duration.
      if scheme.variant = .encore ∧ (shared.durations d).stw then
        some ({ shared with heap := scheme.markSweep shared.heap }, .collect rest .addAba)
      else
        some (shared, .collect rest .peekTail)
  | .addAba => some ({ shared with aba := (shared.aba + 1) % scheme.abaSize }, .collect rest .peekTail)
  | _ => none

/-- `collect`. The compare-and-swap that gives the lock back expects no pending call, and the lock
taken. -/
def collect (thread : Fin n) (rest : Option Addr) (shared : Shared n Heap) :
    CollectPc → Option (Shared n Heap × Pc)
  | .addPending =>
      some ({ shared with pending := (shared.pending + 1) % uint32Size },
        if shared.pending ≠ 0 then settleRest rest else .collect rest .casLock)
  | .casLock =>
      if shared.lock then
        some (shared, settleRest rest)
      else
        some ({ shared with lock := true }, .collect rest .loadPending)
  | .loadPending =>
      some (shared, .collect rest (if shared.pending = 0 then .casEmpty else .subPending))
  | .casEmpty =>
      if shared.pending = 0 ∧ shared.lock then
        some ({ shared with lock := false }, settleRest rest)
      else
        some (shared, .collect rest .subPending)
  | .subPending =>
      some ({ shared with pending := (shared.pending + (uint32Size - 1)) % uint32Size },
        .collect rest .peekTail)
  | .readPending =>
      some (shared, .collect rest (if shared.pending > 0 then .subPending else .casLoop))
  | .casLoop =>
      if shared.pending = 0 ∧ shared.lock then
        some ({ shared with lock := false }, settleRest rest)
      else
        some (shared, .collect rest .subPending)
  | pc => collectOne scheme thread rest shared pc

def code : Code (Fin n) (Choice Op) (Shared n Heap) Pc
  | thread, .enter item address, shared, .outside =>
      (scheme.newItem thread item address shared.heap).map fun (item, heap) =>
        ({ shared with heap }, .entry item .loadAba)
  | thread, .go, shared, .entry item pc => some (onEntry thread item shared pc)
  | _, .client op, shared, .inside item d =>
      some ({ shared with heap := scheme.client op item shared.heap }, .inside item d)
  | thread, .exit, shared, .inside item d =>
      some ({ shared with toSections := shared.exit thread }, .close item d .loadAba)
  | thread, choice, shared, .close item myD pc => onExit scheme thread choice item myD shared pc
  | _, choice, shared, .settle d rest pc => setCollectible scheme choice d rest shared pc
  | thread, .go, shared, .collect rest pc => collect scheme thread rest shared pc
  | _, _, _, _ => none

/-- The state after `dw_init_gc`, `encore_create_so`: the first duration at address 1, and the dummy of
the queue at address 0, in memory with arbitrary contents. -/
def init (memory : Addr → Duration n) (heap : Heap) : Config (Fin n) (Shared n Heap) Pc :=
  { shared :=
      { aba := 0
        entry := 0
        currentD := 1
        queueHead := 0
        queueTail := 0
        pending := 0
        lock := false
        durations := fun d =>
          if d = 0 then { memory d with next := none }
          else if d = 1 then (memory d).reset
          else memory d
        allocated := fun d => d = 0 ∨ d = 1
        durationPool := fun _ => []
        heap
        toSections := .fresh }
    threads := fun _ => .outside }

def Pc.cleaning : Pc → Option Addr
  | .collect _ (.cleanOne d _) | .collect _ (.cleanCell d _ _) => some d
  | _ => none

/-- A duration is cleaned only when no critical section that was open when it was closed still is. -/
def GracePeriod (config : Config (Fin n) (Shared n Heap) Pc) : Prop :=
  ∀ (collector : Fin n) (d : Addr), (config.threads collector).cleaning = some d →
    ∀ (reader : Fin n) (k : Nat), (config.shared.durations d).openWhen reader = some k →
      ¬ config.shared.StillOpen reader k

/-! ### The two files -/

structure Traced where
  rc : Nat → Nat
  address : ItemAddr → Option CellAddr
  cells : CellAddr → (Nat × Bool) × Option CellAddr
  received : List Nat

inductive TraceOp where
  | toTrace (cell : CellAddr) (p : Nat)
  | count (rc : Nat → Nat)

/-- The Encore runtime's `dw.c`: `clean_one` decrements the count of every object on the list that is
not marked, and takes out the objects whose count was one. -/
def encore (abaSize : Nat) (markSweep : Traced → Traced) : Scheme n Traced TraceOp :=
  { variant := .encore
    abaSize
    newItem := fun _ item _ heap =>
      some (item, { heap with address := Function.update heap.address item none })
    client := fun op item heap =>
      match op with
      | .toTrace cell p =>
          { heap with
            cells := Function.update heap.cells cell ((p, false), heap.address item)
            address := Function.update heap.address item (some cell) }
      | .count rc => { heap with rc }
    address := fun heap item => heap.address item
    visit := fun heap cell =>
      let ((f, marked), next) := heap.cells cell
      if marked then
        (heap, next)
      else
        ({ heap with
            rc := Function.update heap.rc f (heap.rc f - 1)
            received := if heap.rc f = 1 then heap.received ++ [f] else heap.received }, next)
    release := fun _ _ heap => heap
    markSweep }

/-- The nodes and item lists of the root `dw.c`, with the history of the nodes passed to
`free_node_later` and of those freed. -/
structure Nodes (n : Nat) where
  mrNext : CellAddr → Option CellAddr
  address : ItemAddr → Option CellAddr
  itemListPool : Fin n → List ItemAddr
  allocated : ItemAddr → Bool
  retired : List CellAddr
  freed : List CellAddr

def itemListPoolSize : Nat := 100

/-- `new_item_list`: it writes no field of the item list. -/
def newItemList (thread : Fin n) (item : ItemAddr) (address : Option CellAddr) (heap : Nodes n) :
    Option (ItemAddr × Nodes n) :=
  match heap.itemListPool thread with
  | pooled :: rest =>
      some (pooled, { heap with itemListPool := Function.update heap.itemListPool thread rest })
  | [] =>
      if heap.allocated item then
        none
      else
        some (item, { heap with
          allocated := Function.update heap.allocated item true
          address := Function.update heap.address item address })

def freeItemList (thread : Fin n) (item : ItemAddr) (heap : Nodes n) : Nodes n :=
  let pool := heap.itemListPool thread
  if pool.length = itemListPoolSize then
    { heap with
      allocated := fun a => heap.allocated a && !pool.contains a
      itemListPool := Function.update heap.itemListPool thread [item] }
  else
    { heap with itemListPool := Function.update heap.itemListPool thread (item :: pool) }

def root : Scheme n (Nodes n) CellAddr :=
  { variant := .root
    abaSize := uint32Size
    newItem := newItemList
    client := fun p item heap =>
      { heap with
        mrNext := Function.update heap.mrNext p (heap.address item)
        address := Function.update heap.address item (some p)
        retired := heap.retired ++ [p] }
    address := fun heap item => heap.address item
    visit := fun heap cur => ({ heap with freed := heap.freed ++ [cur] }, heap.mrNext cur)
    release := fun thread item heap =>
      freeItemList thread item { heap with address := Function.update heap.address item none }
    markSweep := id }

end Lfmr.DurationWindow
