import Lfmr.Concurrency.Interleaving

/-!
# The queueing lock of `mcslock.h`

`mcs_lock` and `mcs_unlock` of `util.c`, one access to the lock or to a field of a `qnode_t` a step. Every thread
passes its own `mynode`, so a node is named by its thread. A step that would follow a null pointer has no result.
-/

namespace Lfmr.McsLock

open Function Lfmr.Concurrency

variable {n : Nat}

/-- `arrived` lists the threads in the order of their exchanges, `served` counts those that have given the lock
away; no code reads them. -/
structure Shared (n : Nat) where
  lock : Option (Fin n)
  next : Fin n → Option (Fin n)
  locked : Fin n → Bool
  arrived : List (Fin n)
  served : Nat

/-- `idle` is before `mcs_lock`, `holding` between its return and the first access of `mcs_unlock`. -/
inductive Pc (n : Nat)
  | idle
  | clearLocked
  | exchange
  | setLocked (pred : Fin n)
  | link (pred : Fin n)
  | spin
  | holding
  | cas
  | await
  | readNext
  | signal (next : Fin n)
  deriving DecidableEq

def code : Code (Fin n) Unit (Shared n) (Pc n) := fun thread _ shared pc =>
  match pc with
  | .idle => some ({ shared with next := update shared.next thread none }, .clearLocked)
  | .clearLocked => some ({ shared with locked := update shared.locked thread false }, .exchange)
  | .exchange =>
      some ({ shared with lock := some thread, arrived := shared.arrived ++ [thread] },
        match shared.lock with
        | some pred => .setLocked pred
        | none => .spin)
  | .setLocked pred => some ({ shared with locked := update shared.locked thread true }, .link pred)
  | .link pred => some ({ shared with next := update shared.next pred (some thread) }, .spin)
  | .spin => some (shared, if shared.locked thread then .spin else .holding)
  | .holding => some (shared, if shared.next thread = none then .cas else .await)
  | .cas =>
      if shared.lock = some thread then some ({ shared with lock := none, served := shared.served + 1 }, .idle)
      else some (shared, .await)
  | .await => some (shared, if shared.next thread = none then .await else .readNext)
  | .readNext => (shared.next thread).map fun next => (shared, .signal next)
  | .signal next =>
      some ({ shared with locked := update shared.locked next false, served := shared.served + 1 }, .idle)

def init (next : Fin n → Option (Fin n)) (locked : Fin n → Bool) : Config (Fin n) (Shared n) (Pc n) where
  shared := { lock := none, next := next, locked := locked, arrived := [], served := 0 }
  threads := fun _ => .idle

def Pc.holds : Pc n → Bool
  | .holding | .cas | .await | .readNext | .signal _ => true
  | _ => false

/-- The thread is in a loop and its next turn does not end it. -/
def Blocked (config : Config (Fin n) (Shared n) (Pc n)) (thread : Fin n) : Prop :=
  config.threads thread = .spin ∧ config.shared.locked thread = true ∨
    config.threads thread = .await ∧ config.shared.next thread = none

end Lfmr.McsLock
