import Lfmr.Proof.EpochGrace

/-!
# Runs of the two files

What `auto_ebr.c` and `shared_object.c` keep, and the schedules on which the epoch overruns a thread
that is still inside its critical section.
-/

namespace Lfmr.EpochReclaim

open Lfmr.Concurrency

variable {n : Nat} {Item Heap Op : Type}

def overrun (collector reader : Fin n) (k : Nat)
    (config : Config (Fin n) (Shared n Item Heap) (Pc n Item)) : Bool :=
  match config.threads collector with
  | .clean _ _ (entry :: _) =>
      entry.openWhen reader == some k && config.shared.inside reader &&
        config.shared.entered reader == k
  | _ => false

def draining [DecidableEq Item] (thread : Fin n) (item : Item)
    (config : Config (Fin n) (Shared n Item Heap) (Pc n Item)) : Bool :=
  match config.threads thread with
  | .clean _ _ (entry :: _) => entry.item == item
  | _ => false

theorem not_gracePeriod_of_overrun {collector reader : Fin n} {k : Nat}
    {config : Config (Fin n) (Shared n Item Heap) (Pc n Item)}
    (h : overrun collector reader k config = true) : ¬ GracePeriod config := by
  intro hgrace
  unfold overrun at h
  split at h
  · rename_i l g entry cur hpc
    simp only [Bool.and_eq_true, beq_iff_eq] at h
    obtain ⟨⟨hopen, hinside⟩, hentered⟩ := h
    exact hgrace collector l g entry cur hpc reader k hopen ⟨hinside, hentered⟩
  · simp at h

def go (thread : Fin n) (accesses : Nat) : List (Fin n × Choice Item Op) :=
  List.replicate accesses (thread, .go)

def beginNew (thread : Fin n) : List (Fin n × Choice Item Op) := (thread, .enter) :: go thread 2

def finishNew (thread : Fin n) : List (Fin n × Choice Item Op) := go thread 4

def enterNew (thread : Fin n) : List (Fin n × Choice Item Op) := beginNew thread ++ finishNew thread

def wearOut (thread : Fin n) : List (Fin n × Choice Item Op) :=
  (List.replicate 100 ((thread, .enter) :: go thread 3 ++ [(thread, .exit)])).flatten

def finishScan (thread : Fin n) (idle : Nat) : List (Fin n × Choice Item Op) :=
  go thread (idle + 4) ++ go thread 2 ++ finishNew thread ++ [(thread, .exit)]

/-- One of two threads retires an item in epoch 1 and updates the epoch three times, with `toScan`
accesses to the scan of each. Epoch 4 shares its list with epoch 1, so the thread drains the item
there. -/
def retireAndDrain (thread : Fin n) (toScan : Nat) (item : Item) : List (Fin n × Choice Item Op) :=
  let update := wearOut thread ++ (thread, .enter) :: go thread toScan ++ go thread (2 + 4) ++ go thread 2
  enterNew thread ++ [(thread, .retire item), (thread, .exit)] ++
  update ++ finishNew thread ++ [(thread, .exit)] ++
  update ++ finishNew thread ++ [(thread, .exit)] ++ update ++ go thread 1

/-! ### `auto_ebr.c` -/

/-- Three of 65 threads. The old local epochs of the reader and of the retirer, which retires node 7, equal the
current one after a wrap-around. The epochs have the numbers 1 to 5; the retirer is let pass in 3 with its local
epoch 0, the reader in 4 with its local epoch 1. -/
def wrapAround (reader retirer updater : Fin n) : List (Fin n × Choice NodeAddr Empty) :=
  let startScan := wearOut updater ++ (updater, .enter) :: go updater 6
  enterNew reader ++ [(reader, .exit)] ++ enterNew updater ++ [(updater, .exit)] ++
  startScan ++ finishScan updater 65 ++
  startScan ++ go updater 2 ++ beginNew retirer ++ finishScan updater 63 ++
  startScan ++ go updater 1 ++ beginNew reader ++ go updater 3 ++ finishScan updater 63 ++
  finishNew retirer ++
  startScan ++ go updater 3 ++ finishNew reader ++
  [(retirer, .retire 7), (retirer, .exit)] ++ enterNew retirer ++
  go updater 3 ++ finishScan updater 63 ++
  [(retirer, .exit)] ++ beginNew retirer ++ go retirer 1

/-- In every run of `shared_object.c` whose accesses are regular, a decrement is executed only after
every method call that was in progress when it was registered has called `so_lockfree_on_exit`. -/
theorem sharedObject_gracePeriod {objects : Objects}
    {config : Config (Fin n) (Shared n Nat Objects) (Pc n Nat)}
    (hreach : ReachableVia (code sharedObject) (Regular sharedObject) (init objects) config) :
    GracePeriod config :=
  gracePeriod_of_regular hreach

def plainObjects : Objects := { rc := fun _ => 1, word4 := fun _ => 0, freed := [] }

/-- The decrement of object 7 comes to be executed. -/
theorem sharedObject_gracePeriod_dec :
    ∃ config : Config (Fin 2) (Shared 2 Nat Objects) (Pc 2 Nat),
      ReachableVia (code sharedObject) (Regular sharedObject) (init plainObjects) config ∧
      draining 0 7 config = true ∧ GracePeriod config := by
  have hrun : ((init plainObjects).runVia (code sharedObject) (Regular sharedObject)
      (retireAndDrain (n := 2) 0 7 7)).any (draining 0 7) = true := by
    decide +kernel
  obtain ⟨config, hreach, hdraining⟩ := exists_reachableVia_of_run _ _ hrun
  exact ⟨config, hreach, hdraining, sharedObject_gracePeriod hreach⟩

/-- Four threads, two of which copy the global epoch 1 and stop before the lock. The reader begins a
call, the retirer registers a decrement under epoch 1 and moves the epoch to 2. Then the two compare
with their copies, which the reader still matches, and move the epoch on to 4. -/
def outdatedCopies (reader retirer first second : Fin n) :
    List (Fin n × Choice Nat (Objects → Objects)) :=
  let toLock : Fin n → List (Fin n × Choice Nat (Objects → Objects)) := fun updater =>
    wearOut updater ++ (updater, .enter) :: go updater 6
  let update : Fin n → List (Fin n × Choice Nat (Objects → Objects)) := fun updater =>
    go updater 3 ++ go updater 7
  enterNew first ++ [(first, .exit)] ++ toLock first ++
  enterNew second ++ [(second, .exit)] ++ toLock second ++
  enterNew reader ++
  enterNew retirer ++ [(retirer, .retire 7), (retirer, .exit)] ++
  toLock retirer ++ update retirer ++ go retirer 2 ++ finishNew retirer ++ [(retirer, .exit)] ++
  update first ++ update second ++
  beginNew retirer ++ go retirer 1

theorem sharedObject_outdatedCopies :
    ∃ config, Reachable (code (n := 4) sharedObject) (init plainObjects) config ∧
      overrun 1 0 1 config = true ∧ ¬ GracePeriod config := by
  have hrun : ((init plainObjects).run (code sharedObject) (outdatedCopies (n := 4) 0 1 2 3)).any (overrun 1 0 1)
      = true := by
    decide +kernel
  obtain ⟨config, hreach, hoverrun⟩ := exists_reachable_of_run _ _ hrun
  exact ⟨config, hreach, hoverrun, not_gracePeriod_of_overrun hoverrun⟩

end Lfmr.EpochReclaim
