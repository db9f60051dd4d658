import Lfmr.EpochReclaim

/-!
# What a scan of `update_epoch` has seen

The three-epoch schemes with a record for each thread of its latest scan, which no code reads: the copy
of the global epoch that the scan compares with, the global epoch and the open sections at the moment the
lock was taken, and the threads found in a critical section with the local epochs read.
-/

namespace Lfmr.EpochReclaim

open Lfmr.Concurrency

variable {n : Nat} {Item Heap Op : Type}

structure Scan (n : Nat) where
  copied : Epoch
  current : Epoch
  opened : Fin n → Option Nat
  found : List (Fin n × Epoch)

def Scan.observe (scan : Scan n) (shared : Shared n Item Heap) : Pc n Item → Scan n
  | .tryLock _ (some copied) =>
      { copied, current := shared.globalEpoch, opened := shared.snapshot, found := [] }
  | .scanLocal _ _ i =>
      if h : i < n then
        { scan with found := scan.found ++ [(⟨i, h⟩, (shared.threads ⟨i, h⟩).localEpoch)] }
      else
        scan
  | _ => scan

def observed (scheme : Scheme Item Heap Op) :
    Code (Fin n) (Choice Item Op) (Shared n Item Heap) (Pc n Item × Scan n) :=
  fun thread choice shared priv =>
    (code scheme thread choice shared priv.1).map fun result =>
      (result.1, result.2, priv.2.observe shared priv.1)

def observedInit (heap : Heap) : Config (Fin n) (Shared n Item Heap) (Pc n Item × Scan n) where
  shared := (init heap).shared
  threads thread := ((init heap).threads thread, ⟨0, 0, fun _ => none, []⟩)

/-- The local epochs the scan has read are the epoch that is advanced, and so is that of every thread
which has not left its section since the lock was taken: the new epoch is the next one for it. -/
structure Scan.Agrees (scan : Scan n) (shared : Shared n Item Heap) (epoch : Epoch) : Prop where
  found : ∀ entry ∈ scan.found, entry.2 = epoch
  inside : ∀ reader k, scan.opened reader = some k → shared.StillOpen reader k →
    (shared.threads reader).localEpoch = epoch

end Lfmr.EpochReclaim
