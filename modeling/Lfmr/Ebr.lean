import Lfmr.Concurrency.Interleaving
import Lfmr.Concurrency.Linked
import Lfmr.Header
import Mathlib.Data.List.Count

/-!
# Epoch-based reclamation, `ebr.c`

`critical_enter` and `free_node_later` start with `struct per_thread_t t = this_thread;`, a copy of the whole
record, so `Priv.t` is private to the call. Only `critical_exit`, the accounting line of `process_callbacks_epoch`
and `mr_reinitialize` write the record the other threads see.
-/

namespace Lfmr.Ebr

open Lfmr.Concurrency

def updateThreshold : Int := 100

structure PerThread where
  retireCount : UInt64
  limboList : Epoch → Option NodeAddr
  inCritical : Int
  entriesSinceUpdate : Int
  epoch : Epoch

/-- The globals `eg` and `threads`, and the `mr_next` fields of the nodes. `freed` lists the nodes
handed to `free_node` and `retired` the calls of `free_node_later`; no code reads either. -/
structure Shared (n : Nat) where
  threads : Fin n → PerThread
  globalEpoch : Epoch
  updateLock : Nat
  mrNext : NodeAddr → Option NodeAddr
  freed : List NodeAddr
  retired : List (Fin n × NodeAddr)

def Shared.setThread {n : Nat} (shared : Shared n) (thread : Fin n) (write : PerThread → PerThread) :
    Shared n :=
  { shared with threads := Function.update shared.threads thread (write (shared.threads thread)) }

inductive Caller where
  | client
  | criticalEnter
  deriving DecidableEq

inductive Pc where
  | rest
  | retry
  /-- `process_callbacks_epoch` at the test of its loop, then between the read of `mr_next` and
  `free_node`, then before the accounting. -/
  | callbacks (epoch : Epoch) (num : UInt64)
  | callbackFree (epoch : Epoch) (num : UInt64) (node : NodeAddr) (next : Option NodeAddr)
  | callbacksCount (epoch : Epoch) (num : UInt64)
  /-- `update_epoch`: the lock, the read of the epoch, the two reads for thread `i`, the write, and
  the release of the lock. -/
  | updateTrylock (caller : Caller)
  | updateRead (caller : Caller)
  | updateFlag (caller : Caller) (currEpoch : Epoch) (i : Nat)
  | updateEpoch (caller : Caller) (currEpoch : Epoch) (i : Nat)
  | updateWrite (caller : Caller) (currEpoch : Epoch)
  | updateUnlock (caller : Caller)
  | retire (q : NodeAddr)
  deriving DecidableEq

/-- What a thread alone sees: its program point, the local copy `t`, whether it is between the return
of `critical_enter` and the next call of `critical_exit`, and the values it read from `global_epoch`
in its latest `critical_enter`. -/
structure Priv where
  pc : Pc
  t : PerThread
  inside : Bool
  epochsRead : List Epoch

inductive Choice where
  | go
  | criticalEnter
  | criticalExit
  | freeNodeLater (q : NodeAddr)
  | updateEpoch
  | mrReinit

variable {n : Nat}

def PerThread.init (limboList : Epoch → Option NodeAddr) : PerThread :=
  { retireCount := 0, limboList, inCritical := 0, entriesSinceUpdate := 0, epoch := 0 }

def returnTo : Caller → Pc
  | .client => .rest
  | .criticalEnter => .retry

/-- `critical_enter` from the label `retry`: raise the flag of the copy, read the global epoch, and
take one of the three branches. -/
def criticalEnterRetry (shared : Shared n) (priv : Priv) : Shared n × Priv :=
  let t := { priv.t with inCritical := 1 }
  let epoch := shared.globalEpoch
  let read := { priv with t, epochsRead := epoch :: priv.epochsRead }
  if t.epoch ≠ epoch then
    (shared, { read with pc := .callbacks epoch 0 })
  else if t.entriesSinceUpdate = updateThreshold then
    (shared, { read with
      t := { t with inCritical := 0, entriesSinceUpdate := 0 }, pc := .updateTrylock .criticalEnter })
  else
    (shared, { read with
      t := { t with entriesSinceUpdate := t.entriesSinceUpdate + 1 }, pc := .rest, inside := true })

/-- `process_callbacks_epoch (&t.limbo_list[epoch])`, called by `critical_enter` on its copy, and the
end of the branch that calls it. -/
def processCallbacksEpoch (thread : Fin n) (shared : Shared n) (priv : Priv) :
    Pc → Option (Shared n × Priv)
  | .callbacks epoch num =>
      match priv.t.limboList epoch with
      | none => some (shared, { priv with pc := .callbacksCount epoch num })
      | some node => some (shared, { priv with pc := .callbackFree epoch num node (shared.mrNext node) })
  | .callbackFree epoch num node next =>
      some ({ shared with freed := shared.freed ++ [node] },
        { priv with
          pc := .callbacks epoch (num + 1)
          t := { priv.t with limboList := Function.update priv.t.limboList epoch next } })
  | .callbacksCount epoch num =>
      some (shared.setThread thread fun record => { record with retireCount := record.retireCount - num },
        { priv with
          pc := .rest
          t := { priv.t with epoch := epoch, entriesSinceUpdate := 0 }
          inside := true })
  | _ => none

def updateEpoch (shared : Shared n) (priv : Priv) : Pc → Option (Shared n × Priv)
  | .updateTrylock caller =>
      if shared.updateLock = 0 then
        some ({ shared with updateLock := 1 }, { priv with pc := .updateRead caller })
      else
        some (shared, { priv with pc := returnTo caller })
  | .updateRead caller => some (shared, { priv with pc := .updateFlag caller shared.globalEpoch 0 })
  | .updateFlag caller currEpoch i =>
      if h : i < n then
        if (shared.threads ⟨i, h⟩).inCritical = 1 then
          some (shared, { priv with pc := .updateEpoch caller currEpoch i })
        else
          some (shared, { priv with pc := .updateFlag caller currEpoch (i + 1) })
      else
        some (shared, { priv with pc := .updateWrite caller currEpoch })
  | .updateEpoch caller currEpoch i =>
      if h : i < n then
        if (shared.threads ⟨i, h⟩).epoch ≠ currEpoch then
          some (shared, { priv with pc := .updateUnlock caller })
        else
          some (shared, { priv with pc := .updateFlag caller currEpoch (i + 1) })
      else
        none
  | .updateWrite caller currEpoch =>
      some ({ shared with globalEpoch := currEpoch + 1 }, { priv with pc := .updateUnlock caller })
  | .updateUnlock caller =>
      -- `spin_unlock` aborts the program when the lock was not held.
      if shared.updateLock = 1 then
        some ({ shared with updateLock := 0 }, { priv with pc := returnTo caller })
      else
        none
  | _ => none

def freeNodeLater (q : NodeAddr) (shared : Shared n) (priv : Priv) : Shared n × Priv :=
  ({ shared with mrNext := Function.update shared.mrNext q (priv.t.limboList priv.t.epoch) },
    { priv with
      pc := .rest
      t := { priv.t with
        limboList := Function.update priv.t.limboList priv.t.epoch (some q)
        retireCount := priv.t.retireCount + 1 } })

/-- The program calls `mr_reinitialize` while no other thread runs; it is one access here. It does not
touch the limbo lists. -/
def mrReinit (shared : Shared n) : Shared n :=
  { shared with
    threads := fun i => PerThread.init (shared.threads i).limboList
    globalEpoch := 1
    updateLock := 0 }

def call (thread : Fin n) (shared : Shared n) (priv : Priv) : Choice → Option (Shared n × Priv)
  | .criticalEnter =>
      some (shared,
        { pc := .retry, t := shared.threads thread, inside := false, epochsRead := [] })
  | .criticalExit =>
      some (shared.setThread thread fun record => { record with inCritical := 0 },
        { priv with inside := false })
  | .freeNodeLater q =>
      some ({ shared with retired := shared.retired ++ [(thread, q)] },
        { priv with pc := .retire q, t := shared.threads thread })
  | .updateEpoch => some (shared, { priv with pc := .updateTrylock .client })
  | .mrReinit => some (mrReinit shared, priv)
  | .go => none

def code : Code (Fin n) Choice (Shared n) Priv := fun thread choice shared priv =>
  match priv.pc, choice with
  | .rest, choice => call thread shared priv choice
  | .retry, .go => some (criticalEnterRetry shared priv)
  | .retire q, .go => some (freeNodeLater q shared priv)
  | .callbacks epoch num, .go => processCallbacksEpoch thread shared priv (.callbacks epoch num)
  | .callbackFree epoch num node next, .go =>
      processCallbacksEpoch thread shared priv (.callbackFree epoch num node next)
  | .callbacksCount epoch num, .go =>
      processCallbacksEpoch thread shared priv (.callbacksCount epoch num)
  | pc, .go => updateEpoch shared priv pc
  | _, _ => none

def mrInit (mrNext : NodeAddr → Option NodeAddr) : Config (Fin n) (Shared n) Priv :=
  { shared :=
      { threads := fun _ => PerThread.init fun _ => none
        globalEpoch := 1
        updateLock := 0
        mrNext
        freed := []
        retired := [] }
    threads := fun _ =>
      { pc := .rest, t := PerThread.init fun _ => none, inside := false, epochsRead := [] } }

end Lfmr.Ebr
