import Lfmr.Proof.DurationGrace

/-!
# Runs of the two `dw.c`

What the two files keep, and the run on which the root file cleans a duration while a thread is still
inside its critical section.
-/

namespace Lfmr.DurationWindow

open Lfmr.Concurrency

variable {n : Nat} {Heap Op : Type}

def isCleaning (collector : Fin n) (d : Addr) (config : Config (Fin n) (Shared n Heap) Pc) : Bool :=
  (config.threads collector).cleaning == some d

def tooEarly (collector : Fin n) (d : Addr) (reader : Fin n) (k : Nat)
    (config : Config (Fin n) (Shared n Heap) Pc) : Bool :=
  isCleaning collector d config && (config.shared.durations d).openWhen reader == some k &&
    config.shared.inside reader && config.shared.entered reader == k

theorem not_gracePeriod_of_tooEarly {collector reader : Fin n} {d : Addr} {k : Nat}
    {config : Config (Fin n) (Shared n Heap) Pc} (h : tooEarly collector d reader k config = true) :
    ¬ GracePeriod config := by
  intro hgrace
  simp only [tooEarly, isCleaning, Bool.and_eq_true, beq_iff_eq] at h
  obtain ⟨⟨⟨hcleaning, hopen⟩, hinside⟩, hentered⟩ := h
  exact hgrace collector d hcleaning reader k hopen ⟨hinside, hentered⟩

def go (thread : Fin n) (accesses : Nat) : List (Fin n × Choice Op) :=
  List.replicate accesses (thread, .go)

def enter (thread : Fin n) (item : ItemAddr) : List (Fin n × Choice Op) :=
  (thread, .enter item none) :: go thread 5

/-- A thread exits and closes the current duration, in `writes` accesses up to the allocation of the next one
and `pushes` from there on. -/
def exit (thread : Fin n) (writes pushes : Nat) (new : Addr) : List (Fin n × Choice Op) :=
  (thread, .exit) :: go thread (2 + writes) ++ (thread, .malloc new 0) :: go thread pushes

def settleAndClean (thread : Fin n) : List (Fin n × Choice Op) := go thread 3 ++ go thread 8

def memoryWith (entry : Nat) : Addr → Duration n := fun _ =>
  { head := none, entry, exit := 0, collectible := false, stw := false, next := none
    openWhen := fun _ => none }

/-- In every run of the Encore `dw.c` with an unbounded `aba`, whatever the methods do to their objects, a duration is cleaned
only after every thread that was inside when it was closed has called `so_lockfree_on_exit`. -/
theorem encore_gracePeriod {markSweep : Traced → Traced} {memory : Addr → Duration n} {heap : Traced}
    {config : Config (Fin n) (Shared n Traced) Pc}
    (hreach : Reachable (code (encore 0 markSweep)) (init memory heap) config) : GracePeriod config :=
  gracePeriod_of_regular (ReachableVia.mono hreach fun config thread choice _ =>
    regular_of_unbounded rfl rfl config thread choice)

def noObjects : Traced :=
  { rc := fun _ => 0, address := fun _ => none, cells := fun _ => ((0, false), none), received := [] }

/-- Two threads enter and leave the first duration. The second one closes another one, behind it in the queue,
and then cleans the first. -/
def encoreBoth (first second : Fin n) : List (Fin n × Choice TraceOp) :=
  enter first 10 ++ enter second 11 ++ exit first 4 5 2 ++ go first 2 ++
  exit second 6 5 3 ++ go second 12 ++ settleAndClean second

theorem encore_gracePeriod_clean :
    ∃ config : Config (Fin 2) (Shared 2 Traced) Pc, Reachable (code (encore 0 id)) (init (memoryWith 0) noObjects) config ∧
      isCleaning 1 1 config = true ∧ GracePeriod config := by
  have hrun : ((init (memoryWith 0) noObjects).run (code (encore 0 id)) (encoreBoth (n := 2) 0 1)).any
      (isCleaning 1 1) = true := by
    decide +kernel
  obtain ⟨config, hreach, hcleaning⟩ := exists_reachable_of_run _ _ hrun
  exact ⟨config, hreach, hcleaning, encore_gracePeriod hreach⟩

/-- In every regular run of the root `dw.c`, whose `aba` has 32 bits, a duration is cleaned only after every thread that was
inside when it was closed has called `dw_lockfree_on_exit`. -/
theorem root_gracePeriod {memory : Addr → Duration n} {heap : Nodes n}
    {config : Config (Fin n) (Shared n (Nodes n)) Pc}
    (hreach : ReachableVia (code root) (Regular root) (init memory heap) config) :
    GracePeriod config :=
  gracePeriod_of_regular hreach

def noNodes : Nodes n :=
  { mrNext := fun _ => none, address := fun _ => none, itemListPool := fun _ => []
    allocated := fun _ => false, retired := [], freed := [] }

/-- The same with the root file. The second duration is never collected: it has zero for its number
of entries. -/
def rootBoth (first second : Fin n) : List (Fin n × Choice CellAddr) :=
  enter first 10 ++ enter second 11 ++ exit first 3 6 2 ++ go first 2 ++
  exit second 3 6 3 ++ go second 2 ++ settleAndClean second

/-- The memory of the first duration happens to hold the right number. -/
theorem root_gracePeriod_clean :
    ∃ config : Config (Fin 2) (Shared 2 (Nodes 2)) Pc,
      ReachableVia (code root) (Regular root) (init (memoryWith 2) noNodes) config ∧
      isCleaning 1 1 config = true ∧ GracePeriod config := by
  have hrun : ((init (memoryWith 2) noNodes).runVia (code root) (Regular root) (rootBoth (n := 2) 0 1)).any
      (isCleaning 1 1) = true := by
    decide +kernel
  obtain ⟨config, hreach, hcleaning⟩ := exists_reachableVia_of_run _ _ hrun
  exact ⟨config, hreach, hcleaning, root_gracePeriod hreach⟩

/-- Two threads enter the first duration, whose memory holds the number 1, and one of them leaves. -/
def rootFirst (first second : Fin n) : List (Fin n × Choice CellAddr) :=
  enter first 10 ++ enter second 11 ++ exit first 3 6 2 ++ settleAndClean first

theorem root_tooEarly :
    ∃ config : Config (Fin 2) (Shared 2 (Nodes 2)) Pc,
      Reachable (code root) (init (memoryWith 1) noNodes) config ∧ tooEarly 0 1 1 1 config = true ∧ ¬ GracePeriod config := by
  have hrun : ((init (memoryWith 1) noNodes).run (code root) (rootFirst (n := 2) 0 1)).any (tooEarly 0 1 1 1)
      = true := by
    decide +kernel
  obtain ⟨config, hreach, hearly⟩ := exists_reachable_of_run _ _ hrun
  exact ⟨config, hreach, hearly, not_gracePeriod_of_tooEarly hearly⟩

end Lfmr.DurationWindow
