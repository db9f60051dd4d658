import Lfmr.Concurrency.RefCount
import Lfmr.Futures

/-!
# The work that is left on a future

As long as nobody makes a new call, every access makes it less. An actor that records itself gives the
producer something to do, so that this costs it more than any other access.
-/

namespace Lfmr.Futures

open Lfmr.Concurrency

variable {n : Nat} {shared shared' : Shared n} {thread : Tid n} {pc pc' : Pc n} {i : Fin n}

/-- A closure counts twice, for it may become a task. -/
def Shared.listed (shared : Shared n) : Nat := 2 * shared.children.length + shared.awaitedActors.length

def FulfilPc.work (shared : Shared n) : FulfilPc n → Nat
  | .assertUnfulfilled => shared.responsibilities.length + shared.listed + 8
  | .lock => shared.responsibilities.length + shared.listed + 7
  | .writeValue => shared.responsibilities.length + shared.listed + 6
  | .setFulfilled => shared.responsibilities.length + shared.listed + 5
  | .unblock i => (shared.responsibilities.length - i) + shared.listed + 4
  | .runChildren current => 2 * current.length + shared.awaitedActors.length + 3
  | .wake current => current.length + 2
  | .unlock => 1

def Pc.actorWork : Pc n → Nat
  | .get .check => 8
  | .get .lock => 7
  | .get .recheck | .await .lock | .chain _ .lock => 6
  | .get .record | .await .recheck | .chain _ .recheck => 5
  | .await .record | .chain _ .add => 4
  | .get .switch => 3
  | .get .unlock | .get .blocked | .await .switch | .chain _ .run => 2
  | .get .readValue | .await .unlock | .await .awaiting | .chain _ .unlock => 1
  | _ => 0

def Pc.producerWork (shared : Shared n) : Pc n → Nat
  | .fulfil _ _ pc => pc.work shared
  | _ => 0

def Shared.work (shared : Shared n) (producer : Pc n) : Nat :=
  shared.tasks.length + (!shared.aborted).toNat + producer.producerWork shared

def work (config : Config (Tid n) (Shared n) (Pc n)) : Nat :=
  config.shared.work (config.threads .producer) + ∑ i, (config.threads (.actor i)).actorWork

theorem acquire_map_eq_some {next : Pc n} (h : (shared.acquire thread).map (·, next) = some (shared', pc')) :
    shared.acquire thread = some shared' ∧ pc' = next := by
  obtain ⟨taken, hacquire, heq⟩ := Option.map_eq_some_iff.mp h
  cases heq
  exact ⟨hacquire, rfl⟩

theorem work_acquire (producer : Pc n) (hacquire : shared.acquire thread = some shared') :
    shared'.work producer = shared.work producer := by
  unfold Shared.acquire at hacquire
  split at hacquire <;> cases hacquire
  rfl

theorem work_abort (producer : Pc n) (haborted : shared.aborted = false) :
    shared.abort.work producer < shared.work producer := by
  have hsame : producer.producerWork shared.abort = producer.producerWork shared := rfl
  rw [Shared.work, Shared.work, hsame, haborted]
  exact Nat.add_lt_add_right (Nat.lt_succ_self _) _

/-- What an access of an actor leaves is less, wherever the producer is. -/
def Progresses (shared : Shared n) (pc : Pc n) (shared' : Shared n) (pc' : Pc n) : Prop :=
  ∀ producer, shared'.work producer + pc'.actorWork < shared.work producer + pc.actorWork

theorem progresses_of_pc (hpc : Nat.blt pc'.actorWork pc.actorWork = true)
    (hshared : ∀ producer, shared'.work producer = shared.work producer) : Progresses shared pc shared' pc' := by
  intro producer
  rw [hshared producer]
  exact Nat.add_lt_add_left (Nat.le_of_ble_eq_true hpc) _

/-- The producer's work grows with the lists that it has to go through. -/
theorem progresses_of_listed {a b c : Nat} (hpc : Nat.blt (pc'.actorWork + (a + 2 * b + c)) pc.actorWork = true)
    (htasks : shared'.tasks = shared.tasks) (haborted : shared'.aborted = shared.aborted)
    (hblocked : shared'.responsibilities.length = shared.responsibilities.length + a)
    (hchildren : shared'.children.length = shared.children.length + b)
    (hawaited : shared'.awaitedActors.length = shared.awaitedActors.length + c) :
    Progresses shared pc shared' pc' := by
  intro producer
  have hlt : pc'.actorWork + (a + 2 * b + c) < pc.actorWork := Nat.le_of_ble_eq_true hpc
  have hgrows : producer.producerWork shared' ≤ producer.producerWork shared + (a + 2 * b + c) := by
    cases producer with
    | fulfil value byTask pc =>
      cases pc <;> simp only [Pc.producerWork, FulfilPc.work, Shared.listed] <;> omega
    | _ => exact Nat.le_add_right _ _
  unfold Shared.work
  rw [htasks, haborted]
  omega

theorem getStep_progresses {pc : GetPc} (haborted : shared.aborted = false)
    (hstep : getStep i shared pc = some (shared', pc')) : Progresses shared (.get pc) shared' pc' := by
  cases pc with
  | check | recheck | blocked =>
    simp only [getStep] at hstep
    split at hstep <;> cases hstep <;> exact progresses_of_pc rfl fun _ => rfl
  | lock =>
    obtain ⟨hacquire, rfl⟩ := acquire_map_eq_some hstep
    exact progresses_of_pc rfl fun producer => work_acquire producer hacquire
  | unlock | switch | readValue =>
    cases hstep
    exact progresses_of_pc rfl fun _ => rfl
  | record =>
    simp only [getStep] at hstep
    split at hstep <;> cases hstep
    · exact progresses_of_listed (a := 1) (b := 0) (c := 0) rfl rfl rfl List.length_append rfl rfl
    · exact fun producer => Nat.add_lt_add_right (work_abort producer haborted) _

theorem awaitStep_progresses {pc : AwaitPc} (hstep : awaitStep i shared pc = some (shared', pc')) :
    Progresses shared (.await pc) shared' pc' := by
  cases pc with
  | recheck | awaiting =>
    simp only [awaitStep] at hstep
    split at hstep <;> cases hstep <;> exact progresses_of_pc rfl fun _ => rfl
  | lock =>
    obtain ⟨hacquire, rfl⟩ := acquire_map_eq_some hstep
    exact progresses_of_pc rfl fun producer => work_acquire producer hacquire
  | unlock | switch =>
    cases hstep
    exact progresses_of_pc rfl fun _ => rfl
  | record =>
    cases hstep
    exact progresses_of_listed (a := 0) (b := 0) (c := 1) rfl rfl rfl rfl rfl rfl

theorem chainStep_progresses {closure : Nat} {pc : ChainPc}
    (hstep : chainStep i shared closure pc = some (shared', pc')) : Progresses shared (.chain closure pc) shared' pc' := by
  cases pc with
  | recheck =>
    simp only [chainStep] at hstep
    split at hstep <;> cases hstep <;> exact progresses_of_pc rfl fun _ => rfl
  | lock =>
    obtain ⟨hacquire, rfl⟩ := acquire_map_eq_some hstep
    exact progresses_of_pc rfl fun producer => work_acquire producer hacquire
  | run | unlock =>
    cases hstep
    exact progresses_of_pc rfl fun _ => rfl
  | add =>
    cases hstep
    exact progresses_of_listed (a := 0) (b := 1) (c := 0) rfl rfl rfl rfl rfl rfl

theorem fulfilStep_work {value : Value} {byTask : Bool} {pc : FulfilPc n} (haborted : shared.aborted = false)
    (hstep : fulfilStep shared value byTask pc = some (shared', pc')) :
    shared'.work pc' < shared.work (.fulfil value byTask pc) := by
  cases pc with
  | assertUnfulfilled =>
    simp only [fulfilStep] at hstep
    split at hstep <;> cases hstep
    · exact work_abort _ haborted
    · exact Nat.lt_succ_self _
  | lock =>
    obtain ⟨hacquire, rfl⟩ := acquire_map_eq_some hstep
    rw [work_acquire _ hacquire]
    exact Nat.lt_succ_self _
  | writeValue | setFulfilled | unlock =>
    cases hstep
    exact Nat.lt_succ_self _
  | unblock k =>
    simp only [fulfilStep] at hstep
    split at hstep <;> cases hstep
    · rename_i hget
      obtain ⟨hk, -⟩ := List.getElem?_eq_some_iff.mp hget
      simp only [Shared.work, Shared.resume, Pc.producerWork, FulfilPc.work, Shared.listed]
      omega
    · simp only [Shared.work, Pc.producerWork, FulfilPc.work, Shared.listed]
      omega
  | runChildren current =>
    cases current with
    | nil =>
      cases hstep
      simp only [Shared.work, Pc.producerWork, FulfilPc.work, List.length_nil]
      omega
    | cons closure next =>
      simp only [fulfilStep] at hstep
      split at hstep <;> cases hstep <;>
        simp only [Shared.work, Shared.schedule, Shared.runClosure, Pc.producerWork, FulfilPc.work,
          List.length_cons, List.length_append, List.length_nil] <;> omega
  | wake current =>
    cases current with
    | nil | cons actor next =>
      cases hstep
      exact Nat.lt_succ_self _

theorem code_progresses (hcode : code (.actor i) .go shared pc = some (shared', pc')) :
    Progresses shared pc shared' pc' := by
  unfold code at hcode
  split at hcode
  · cases hcode
  · rename_i haborted
    cases pc with
    | get pc => exact getStep_progresses (Bool.eq_false_iff.mpr haborted) hcode
    | await pc => exact awaitStep_progresses hcode
    | chain closure pc => exact chainStep_progresses hcode
    | _ => cases hcode

theorem code_work_producer (hcode : code .producer .go shared pc = some (shared', pc')) :
    shared'.work pc' < shared.work pc := by
  unfold code at hcode
  split at hcode
  · cases hcode
  · rename_i haborted
    cases pc with
    | fulfil value byTask pc => exact fulfilStep_work (Bool.eq_false_iff.mpr haborted) hcode
    | _ => cases hcode

theorem code_work_runner (hcode : code .runner .go shared pc = some (shared', pc')) (producer : Pc n) :
    shared'.work producer < shared.work producer := by
  unfold code at hcode
  split at hcode
  · cases hcode
  · simp only [runnerStep] at hcode
    split at hcode <;> cases hcode
    rename_i htasks
    unfold Shared.work
    rw [htasks]
    exact Nat.add_lt_add_right (Nat.add_lt_add_right (Nat.lt_succ_self _) _) _

theorem work_lt_of_step {config next : Config (Tid n) (Shared n) (Pc n)}
    (hstep : config.step code thread .go = some next) : work next < work config := by
  obtain ⟨priv, hcode, hthreads⟩ := Config.step_eq_some_iff.mp hstep
  unfold work
  rw [hthreads]
  cases thread with
  | producer =>
    rw [Function.update_self]
    exact Nat.add_lt_add_right (code_work_producer hcode) _
  | runner => exact Nat.add_lt_add_right (code_work_runner hcode _) _
  | actor i =>
    have hsum := RefCount.sum_update_add (Finset.mem_univ i) Pc.actorWork (config.threads ∘ .actor) priv
    rw [← Function.update_comp_eq_of_injective _ fun _ _ => Tid.actor.inj] at hsum
    have hlt := code_progresses hcode (config.threads .producer)
    rw [Function.update_of_ne (show Tid.producer ≠ .actor i from nofun)]
    simp only [Function.comp_apply] at hsum
    omega

end Lfmr.Futures
