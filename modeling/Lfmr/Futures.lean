import Lfmr.Concurrency.Interleaving

/-!
# Futures

`future_get_actor`, `future_await`, `future_chain_actor` and `future_fulfil` of `future.c`, on one future.
Any number of actors call the first three, any number of times; one producer calls the last, once. A step
is one access to the future, and those between `BLOCK` and `UNBLOCK` are made with the lock held. An actor
that waits gives the lock back when its context has been saved.

A closure is known by the number of the call that chains it. One that the producer hands over to a task is run
by a task runner later. The futures that closures fulfil are left out.

Beside the memory stand the actors that were recorded as waiting or resumed, the closures that were run, with
the values they were given, and what calls of `future_get_actor` returned.
-/

namespace Lfmr.Futures

open Lfmr.Concurrency

inductive Tid (n : Nat)
  | producer
  | runner
  | actor (i : Fin n)
  deriving DecidableEq

abbrev Value := Int

/-- `struct future`. The array of responsibilities is the list of its first `no_responsibilities` entries,
all of which are `BLOCKED_MESSAGE`. -/
structure Future (n : Nat) where
  value : Value
  fulfilled : Bool
  responsibilities : List (Fin n)
  lock : Option (Tid n)
  children : List Nat
  awaitedActors : List (Fin n)

structure Shared (n : Nat) extends Future n where
  /-- The actor has been scheduled again, or has the message that resumes it. -/
  awake : Fin n → Bool
  tasks : List (Nat × Value)
  aborted : Bool
  given : Option Value
  chainCalls : Nat
  waited : List (Fin n)
  resumed : List (Fin n)
  ran : List (Nat × Value)
  returned : List (Fin n × Value)

def maxResponsibilities : Nat := 16

inductive GetPc
  | check
  | lock
  | recheck
  | unlock
  | record
  | switch
  | blocked
  | readValue

inductive AwaitPc
  | lock
  | recheck
  | unlock
  | record
  | switch
  | awaiting

inductive ChainPc
  | lock
  | recheck
  | run
  | add
  | unlock

/-- `future_fulfil`: `unblock` has the loop variable, the two loops after it the rest of their lists. -/
inductive FulfilPc (n : Nat)
  | assertUnfulfilled
  | lock
  | writeValue
  | setFulfilled
  | unblock (i : Nat)
  | runChildren (current : List Nat)
  | wake (current : List (Fin n))
  | unlock

inductive Pc (n : Nat)
  | idle
  | get (pc : GetPc)
  | await (pc : AwaitPc)
  | chain (closure : Nat) (pc : ChainPc)
  | fulfil (value : Value) (byTask : Bool) (pc : FulfilPc n)
  | done

inductive Choice
  | go
  | get
  | await
  | chain
  | fulfil (value : Value) (byTask : Bool)
  deriving DecidableEq

variable {n : Nat}

namespace Shared

def acquire (shared : Shared n) (thread : Tid n) : Option (Shared n) :=
  match shared.lock with
  | none => some { shared with lock := some thread }
  | some _ => none

def release (shared : Shared n) : Shared n := { shared with lock := none }

def abort (shared : Shared n) : Shared n := { shared with aborted := true }

def block (shared : Shared n) (i : Fin n) : Shared n :=
  { shared with
    responsibilities := shared.responsibilities ++ [i]
    waited := shared.waited ++ [i] }

def await (shared : Shared n) (i : Fin n) : Shared n :=
  { shared with
    awaitedActors := i :: shared.awaitedActors
    waited := shared.waited ++ [i] }

def resume (shared : Shared n) (i : Fin n) : Shared n :=
  { shared with
    awake := Function.update shared.awake i true
    resumed := shared.resumed ++ [i] }

def addChild (shared : Shared n) (closure : Nat) : Shared n :=
  { shared with children := closure :: shared.children }

def runClosure (shared : Shared n) (closure : Nat) (value : Value) : Shared n :=
  { shared with ran := shared.ran ++ [(closure, value)] }

def schedule (shared : Shared n) (closure : Nat) (value : Value) : Shared n :=
  { shared with tasks := shared.tasks ++ [(closure, value)] }

end Shared

def getStep (i : Fin n) (shared : Shared n) : GetPc → Option (Shared n × Pc n)
  | .check =>
      if shared.fulfilled then some (shared, .get .readValue)
      else some (shared, .get .lock)
  | .lock => (shared.acquire (.actor i)).map (·, .get .recheck)
  | .recheck =>
      if shared.fulfilled then some (shared, .get .unlock)
      else some (shared, .get .record)
  | .unlock => some (shared.release, .get .readValue)
  | .record =>
      if shared.responsibilities.length < maxResponsibilities then some (shared.block i, .get .switch)
      else some (shared.abort, .get .record)
  | .switch => some (shared.release, .get .blocked)
  | .blocked =>
      if shared.awake i then
        some ({ shared with awake := Function.update shared.awake i false }, .get .readValue)
      else none
  | .readValue => some ({ shared with returned := shared.returned ++ [(i, shared.value)] }, .idle)

def awaitStep (i : Fin n) (shared : Shared n) : AwaitPc → Option (Shared n × Pc n)
  | .lock => (shared.acquire (.actor i)).map (·, .await .recheck)
  | .recheck =>
      if shared.fulfilled then some (shared, .await .unlock)
      else some (shared, .await .record)
  | .unlock => some (shared.release, .idle)
  | .record => some (shared.await i, .await .switch)
  | .switch => some (shared.release, .await .awaiting)
  | .awaiting =>
      if shared.awake i then
        some ({ shared with awake := Function.update shared.awake i false }, .idle)
      else none

def chainStep (i : Fin n) (shared : Shared n) (closure : Nat) : ChainPc → Option (Shared n × Pc n)
  | .lock => (shared.acquire (.actor i)).map (·, .chain closure .recheck)
  | .recheck =>
      if shared.fulfilled then some (shared, .chain closure .run)
      else some (shared, .chain closure .add)
  | .run => some (shared.runClosure closure shared.value, .chain closure .unlock)
  | .add => some (shared.addChild closure, .chain closure .unlock)
  | .unlock => some (shared.release, .idle)

def actorStep (i : Fin n) (choice : Choice) (shared : Shared n) (pc : Pc n) : Option (Shared n × Pc n) :=
  match choice, pc with
  | .get, .idle => some (shared, .get .check)
  | .await, .idle => some (shared, .await .lock)
  | .chain, .idle =>
      some ({ shared with chainCalls := shared.chainCalls + 1 }, .chain shared.chainCalls .lock)
  | .go, .get pc => getStep i shared pc
  | .go, .await pc => awaitStep i shared pc
  | .go, .chain closure pc => chainStep i shared closure pc
  | _, _ => none

def fulfilStep (shared : Shared n) (value : Value) (byTask : Bool) : FulfilPc n → Option (Shared n × Pc n)
  | .assertUnfulfilled =>
      if shared.fulfilled then some (shared.abort, .fulfil value byTask .assertUnfulfilled)
      else some (shared, .fulfil value byTask .lock)
  | .lock => (shared.acquire .producer).map (·, .fulfil value byTask .writeValue)
  | .writeValue => some ({ shared with value := value }, .fulfil value byTask .setFulfilled)
  | .setFulfilled => some ({ shared with fulfilled := true }, .fulfil value byTask (.unblock 0))
  | .unblock i =>
      match shared.responsibilities[i]? with
      | some actor => some (shared.resume actor, .fulfil value byTask (.unblock (i + 1)))
      | none => some (shared, .fulfil value byTask (.runChildren shared.children))
  | .runChildren [] => some (shared, .fulfil value byTask (.wake shared.awaitedActors))
  | .runChildren (closure :: next) =>
      if byTask then some (shared.schedule closure value, .fulfil value byTask (.runChildren next))
      else some (shared.runClosure closure value, .fulfil value byTask (.runChildren next))
  | .wake [] => some (shared, .fulfil value byTask .unlock)
  | .wake (actor :: next) => some (shared.resume actor, .fulfil value byTask (.wake next))
  | .unlock => some (shared.release, .done)

def producerStep (choice : Choice) (shared : Shared n) (pc : Pc n) : Option (Shared n × Pc n) :=
  match choice, pc with
  | .fulfil value byTask, .idle =>
      some ({ shared with given := some value }, .fulfil value byTask .assertUnfulfilled)
  | .go, .fulfil value byTask pc => fulfilStep shared value byTask pc
  | _, _ => none

def runnerStep (choice : Choice) (shared : Shared n) (pc : Pc n) : Option (Shared n × Pc n) :=
  match choice, shared.tasks with
  | .go, (closure, value) :: tasks => some ({ shared with tasks := tasks }.runClosure closure value, pc)
  | _, _ => none

/-- A failed assertion ends the program. -/
def code : Code (Tid n) Choice (Shared n) (Pc n) :=
  fun thread choice shared pc =>
    if shared.aborted then none
    else
      match thread with
      | .producer => producerStep choice shared pc
      | .runner => runnerStep choice shared pc
      | .actor i => actorStep i choice shared pc

def init : Config (Tid n) (Shared n) (Pc n) where
  shared :=
    { value := 0
      fulfilled := false
      responsibilities := []
      lock := none
      children := []
      awaitedActors := []
      awake := fun _ => false
      tasks := []
      aborted := false
      given := none
      chainCalls := 0
      waited := []
      resumed := []
      ran := []
      returned := [] }
  threads := fun _ => .idle

def Settled (config : Config (Tid n) (Shared n) (Pc n)) : Prop :=
  (∀ choice, config.step code .producer choice = none) ∧ (∀ choice, config.step code .runner choice = none) ∧
    ∀ i, config.step code (.actor i) .go = none

/-- Everybody who waited was resumed as often as it waited and has gone on, and all closures have been run. -/
structure AllServed (config : Config (Tid n) (Shared n) (Pc n)) : Prop where
  resumed : config.shared.waited.Perm config.shared.resumed
  ran : ∀ closure < config.shared.chainCalls, closure ∈ config.shared.ran.map Prod.fst
  idle : ∀ i, config.threads (.actor i) = .idle

structure Served (config : Config (Tid n) (Shared n) (Pc n)) : Prop where
  resumed : config.shared.resumed.Subperm config.shared.waited
  ran_once : (config.shared.ran.map Prod.fst).Nodup
  chained : ∀ entry ∈ config.shared.ran, entry.1 < config.shared.chainCalls
  ran_value : ∀ entry ∈ config.shared.ran, config.shared.given = some entry.2
  returned_value : ∀ entry ∈ config.shared.returned, config.shared.given = some entry.2
  settled : Settled config → AllServed config

def HasRoom (config : Config (Tid n) (Shared n) (Pc n)) (thread : Tid n) (_ : Choice) : Prop :=
  match thread, config.threads thread with
  | .actor _, .get .record => config.shared.responsibilities.length < maxResponsibilities
  | _, _ => True

instance (config : Config (Tid n) (Shared n) (Pc n)) (thread : Tid n) (choice : Choice) :
    Decidable (HasRoom config thread choice) := by
  unfold HasRoom
  split <;> infer_instance

/-- However the threads are scheduled, without new calls the run ends, and then all have been served. -/
def ServesAll (config : Config (Tid n) (Shared n) (Pc n)) : Prop :=
  ∃ bound, ∀ (schedule : List (Tid n)) (next : Config (Tid n) (Shared n) (Pc n)),
    config.runVia code HasRoom (schedule.map (·, .go)) = some next →
      schedule.length ≤ bound ∧ ((∀ thread, next.step code thread .go = none) → AllServed next)

end Lfmr.Futures
