import Lfmr.Proof.FutureSteps
import Lfmr.Proof.FutureWork

/-!
# Everybody who waits for a future is served

In every run in which the array of blocked actors never overflows: once `future_fulfil` has been called, the
accesses that are left come to an end, and then everybody has been served. The first actor that finds the
array full ends the program, with all the others still waiting.
-/

namespace Lfmr.Futures

open Lfmr.Concurrency

variable {n : Nat} {shared shared' : Shared n} {ghost : Ghost n} {thread : Tid n} {pc pc' : Pc n} {i : Fin n}
  {choice : Choice}

theorem not_owner {owner : Nat → Option (Fin n)} (howner : ∀ c, owner c = some i ↔ pc.inFlight = some c)
    (hpc : pc.inFlight = none) (c : Nat) : owner c ≠ some i := by
  intro hc
  have hflight := (howner c).mp hc
  rw [hpc] at hflight
  cases hflight

section

variable (hglobal : GlobalInv shared ghost)
include hglobal

theorem getStep_keeps {pc : GetPc} (hinv : ThreadInv (.actor i) shared ghost (.get pc))
    (hroom : pc = .record → shared.responsibilities.length < maxResponsibilities)
    (hstep : getStep i shared pc = some (shared', pc')) : Keeps (.actor i) shared ghost shared' pc' := by
  obtain ⟨hlock, howner, hpc⟩ := hinv
  have hnone := not_owner howner rfl
  have hidle : ∀ c, ghost.owner c = some i ↔ (Pc.idle : Pc n).inFlight = some c := fun c =>
    iff_of_false (hnone c) nofun
  cases pc with
  | check =>
    simp only [getStep] at hstep
    split at hstep <;> cases hstep
    · rename_i hfulfilled
      exact keeps_of_threadInv hglobal ⟨hlock, howner, hfulfilled⟩
    · exact keeps_of_threadInv hglobal ⟨hlock, howner, trivial⟩
  | lock =>
    obtain ⟨hacquire, rfl⟩ := acquire_map_eq_some hstep
    exact keeps_acquire hglobal hacquire rfl ⟨howner, trivial⟩
  | recheck =>
    simp only [getStep] at hstep
    split at hstep <;> cases hstep
    · rename_i hfulfilled
      exact keeps_of_threadInv hglobal ⟨hlock, howner, hfulfilled⟩
    · rename_i hfulfilled
      exact keeps_of_threadInv hglobal ⟨hlock, howner, Bool.eq_false_iff.mpr hfulfilled⟩
  | unlock | switch =>
    cases hstep
    exact keeps_release hglobal (hlock.mpr rfl) rfl ⟨howner, hpc⟩
  | record =>
    rw [getStep, if_pos (hroom rfl)] at hstep
    cases hstep
    exact keeps_block hglobal (hlock.mpr rfl) hpc hnone
  | blocked =>
    simp only [getStep] at hstep
    split at hstep <;> cases hstep
    rename_i hawake
    exact keeps_wakeUp hglobal ⟨hlock, howner, hglobal.awake i hawake⟩
  | readValue =>
    cases hstep
    exact keeps_readValue hglobal ⟨hlock, hidle, trivial⟩ hpc

theorem awaitStep_keeps {pc : AwaitPc} (hinv : ThreadInv (.actor i) shared ghost (.await pc))
    (hstep : awaitStep i shared pc = some (shared', pc')) : Keeps (.actor i) shared ghost shared' pc' := by
  obtain ⟨hlock, howner, hpc⟩ := hinv
  have hnone := not_owner howner rfl
  have hidle : ∀ c, ghost.owner c = some i ↔ (Pc.idle : Pc n).inFlight = some c := fun c =>
    iff_of_false (hnone c) nofun
  cases pc with
  | lock =>
    obtain ⟨hacquire, rfl⟩ := acquire_map_eq_some hstep
    exact keeps_acquire hglobal hacquire rfl ⟨howner, trivial⟩
  | recheck =>
    simp only [awaitStep] at hstep
    split at hstep <;> cases hstep
    · exact keeps_of_threadInv hglobal ⟨hlock, howner, trivial⟩
    · rename_i hfulfilled
      exact keeps_of_threadInv hglobal ⟨hlock, howner, Bool.eq_false_iff.mpr hfulfilled⟩
  | unlock =>
    cases hstep
    exact keeps_release hglobal (hlock.mpr rfl) rfl ⟨hidle, trivial⟩
  | record =>
    cases hstep
    exact keeps_await hglobal (hlock.mpr rfl) hpc hnone
  | switch =>
    cases hstep
    exact keeps_release hglobal (hlock.mpr rfl) rfl ⟨howner, hpc⟩
  | awaiting =>
    simp only [awaitStep] at hstep
    split at hstep <;> cases hstep
    exact keeps_wakeUp hglobal ⟨hlock, hidle, trivial⟩

theorem chainStep_keeps {closure : Nat} {pc : ChainPc} (hinv : ThreadInv (.actor i) shared ghost (.chain closure pc))
    (hstep : chainStep i shared closure pc = some (shared', pc')) :
    Keeps (.actor i) shared ghost shared' pc' := by
  obtain ⟨hlock, howner, hpc⟩ := hinv
  cases pc with
  | lock =>
    obtain ⟨hacquire, rfl⟩ := acquire_map_eq_some hstep
    exact keeps_acquire hglobal hacquire rfl ⟨howner, trivial⟩
  | recheck =>
    simp only [chainStep] at hstep
    split at hstep <;> cases hstep
    · rename_i hfulfilled
      exact keeps_of_threadInv hglobal ⟨hlock, howner, hfulfilled⟩
    · rename_i hfulfilled
      exact keeps_of_threadInv hglobal ⟨hlock, howner, Bool.eq_false_iff.mpr hfulfilled⟩
  | run =>
    cases hstep
    exact keeps_run hglobal (hlock.mpr rfl) hpc howner
  | add =>
    cases hstep
    exact keeps_add hglobal (hlock.mpr rfl) hpc howner
  | unlock =>
    cases hstep
    exact keeps_release hglobal (hlock.mpr rfl) rfl ⟨howner, trivial⟩

theorem actorStep_keeps (hinv : ThreadInv (.actor i) shared ghost pc)
    (hroom : pc = .get .record → shared.responsibilities.length < maxResponsibilities)
    (hstep : actorStep i choice shared pc = some (shared', pc')) :
    Keeps (.actor i) shared ghost shared' pc' := by
  unfold actorStep at hstep
  split at hstep
  · cases hstep
    exact keeps_of_threadInv hglobal hinv
  · cases hstep
    exact keeps_of_threadInv hglobal hinv
  · cases hstep
    obtain ⟨hlock, howner, -⟩ := hinv
    exact keeps_chain hglobal (fun heq => absurd (hlock.mp heq) nofun) (not_owner howner rfl)
  · exact getStep_keeps hglobal hinv (fun heq => hroom (congrArg Pc.get heq)) hstep
  · exact awaitStep_keeps hglobal hinv hstep
  · exact chainStep_keeps hglobal hinv hstep
  · cases hstep

theorem fulfilStep_keeps {value : Value} {byTask : Bool} {pc : FulfilPc n}
    (hinv : ThreadInv .producer shared ghost (.fulfil value byTask pc))
    (hstep : fulfilStep shared value byTask pc = some (shared', pc')) :
    Keeps .producer shared ghost shared' pc' := by
  obtain ⟨hlock, hgiven, hpc⟩ := hinv
  cases pc with
  | assertUnfulfilled =>
    have hfulfilled : shared.fulfilled = false := hpc
    simp only [fulfilStep, hfulfilled, Bool.false_eq_true, if_false] at hstep
    cases hstep
    exact keeps_of_threadInv hglobal ⟨hlock, hgiven, hpc⟩
  | lock =>
    obtain ⟨hacquire, rfl⟩ := acquire_map_eq_some hstep
    exact keeps_acquire hglobal hacquire rfl ⟨hgiven, hpc⟩
  | writeValue =>
    cases hstep
    exact keeps_writeValue hglobal (hlock.mpr rfl) hgiven hpc
  | setFulfilled =>
    cases hstep
    exact keeps_setFulfilled hglobal (hlock.mpr rfl) hgiven hpc.1 hpc.2
  | unblock k =>
    obtain ⟨hfulfilled, hblocked, hclosures, hawaiting⟩ := hpc
    simp only [fulfilStep] at hstep
    split at hstep <;> cases hstep
    · rename_i a hget
      obtain ⟨hk, rfl⟩ := List.getElem?_eq_some_iff.mp hget
      rw [List.drop_eq_getElem_cons hk] at hblocked
      refine keeps_resume _ _ hglobal (hlock.mpr rfl) hfulfilled (by rw [hblocked]; rfl) ?_
        (fun _ => Or.imp_right awake_resume) ⟨hgiven, hfulfilled, rfl, hclosures, hawaiting⟩ rfl
      rw [hblocked]
      exact fun _ => mem_or_awake
    · rename_i hget
      rw [List.drop_eq_nil_iff.mpr (List.getElem?_eq_none_iff.mp hget)] at hblocked
      exact keeps_of_threadInv hglobal ⟨hlock, hgiven, hfulfilled, hblocked, hclosures, hawaiting⟩
  | runChildren current =>
    obtain ⟨hfulfilled, hblocked, hclosures, hawaiting⟩ := hpc
    cases current with
    | nil =>
      cases hstep
      exact keeps_of_threadInv hglobal ⟨hlock, hgiven, hfulfilled, hblocked, hclosures, hawaiting⟩
    | cons closure rest =>
      simp only [fulfilStep] at hstep
      split at hstep <;> cases hstep
      · exact keeps_takeChild (hlock.mpr rfl) rfl (hglobal.scheduleChild hclosures hfulfilled hgiven) rfl rfl
          ⟨hgiven, hfulfilled, hblocked, rfl, hawaiting⟩ rfl
      · exact keeps_takeChild (hlock.mpr rfl) rfl (hglobal.runChild hclosures hfulfilled hgiven) rfl rfl
          ⟨hgiven, hfulfilled, hblocked, rfl, hawaiting⟩ rfl
  | wake current =>
    obtain ⟨hfulfilled, hblocked, hclosures, hawaiting⟩ := hpc
    cases current with
    | nil =>
      cases hstep
      exact keeps_of_threadInv hglobal ⟨hlock, hgiven, hfulfilled, hblocked, hclosures, hawaiting⟩
    | cons a rest =>
      cases hstep
      refine keeps_resume _ rest hglobal (hlock.mpr rfl) hfulfilled (by rw [hblocked, hawaiting]; rfl)
        (fun _ => Or.imp_right awake_resume) ?_ ⟨hgiven, hfulfilled, hblocked, hclosures, rfl⟩ rfl
      rw [hawaiting]
      exact fun _ => mem_or_awake
  | unlock =>
    cases hstep
    exact keeps_release hglobal (hlock.mpr rfl) rfl hpc

theorem producerStep_keeps (hinv : ThreadInv .producer shared ghost pc)
    (hstep : producerStep choice shared pc = some (shared', pc')) :
    Keeps .producer shared ghost shared' pc' := by
  unfold producerStep at hstep
  split at hstep
  · cases hstep
    obtain ⟨hlock, hfulfilled, hgiven⟩ := hinv
    exact keeps_given hglobal (fun heq => absurd (hlock.mp heq) nofun) hfulfilled hgiven
  · exact fulfilStep_keeps hglobal hinv hstep
  · cases hstep

theorem runnerStep_keeps (hinv : ThreadInv .runner shared ghost pc)
    (hstep : runnerStep choice shared pc = some (shared', pc')) :
    Keeps .runner shared ghost shared' pc' := by
  unfold runnerStep at hstep
  split at hstep
  · rename_i htasks
    cases hstep
    exact keeps_runTask hglobal hinv htasks
  · cases hstep

end

theorem code_of_not_aborted (haborted : shared.aborted = false) (choice : Choice) :
    code thread choice shared pc = match thread with
      | .producer => producerStep choice shared pc
      | .runner => runnerStep choice shared pc
      | .actor i => actorStep i choice shared pc :=
  if_neg (ne_true_of_eq_false haborted)

theorem code_keeps (hglobal : GlobalInv shared ghost) (hinv : ThreadInv thread shared ghost pc)
    (hroom : ∀ i, thread = .actor i → pc = .get .record → shared.responsibilities.length < maxResponsibilities)
    (hcode : code thread choice shared pc = some (shared', pc')) : Keeps thread shared ghost shared' pc' := by
  rw [code_of_not_aborted hglobal.aborted] at hcode
  cases thread with
  | producer => exact producerStep_keeps hglobal hinv hcode
  | runner => exact runnerStep_keeps hglobal hinv hcode
  | actor i => exact actorStep_keeps hglobal hinv (hroom i rfl) hcode

theorem relyGuarantee : RelyGuarantee (code (n := n)) HasRoom GlobalInv ThreadInv Rely where
  step config ghost thread choice shared priv hglobal hlocal hallowed hcode := by
    refine code_keeps hglobal (hlocal thread) (fun i hthread hpc => ?_) hcode
    subst hthread
    unfold HasRoom at hallowed
    rw [hpc] at hallowed
    exact hallowed
  stable _ _ _ _ _ _ hinv hrely := hrely.threadInv hinv

def Ghost.empty : Ghost n := ⟨[], [], [], fun _ => none⟩

theorem globalInv_init : GlobalInv (init (n := n)).shared Ghost.empty where
  aborted := rfl
  waits := .refl _
  lists _ := ⟨rfl, rfl, rfl⟩
  value := nofun
  awake _ := nofun
  listed := ⟨.nil, fun _ hc => absurd hc (Nat.not_lt_zero _), nofun, nofun⟩
  ran := nofun
  tasks := nofun
  returned := nofun

theorem threadInv_init (thread : Tid n) :
    ThreadInv thread (init (n := n)).shared Ghost.empty ((init (n := n)).threads thread) := by
  refine ⟨iff_of_false nofun nofun, ?_⟩
  cases thread with
  | producer => exact ⟨rfl, rfl⟩
  | runner => rfl
  | actor i => exact ⟨fun _ => iff_of_false nofun nofun, trivial⟩

variable {config next : Config (Tid n) (Shared n) (Pc n)}

theorem invariants (hreach : ReachableVia code HasRoom init config) : ∃ ghost, GlobalInv config.shared ghost ∧
      ∀ thread, ThreadInv thread config.shared ghost (config.threads thread) :=
  relyGuarantee.invariant hreach Ghost.empty globalInv_init threadInv_init

/-! ### When everything has happened -/

theorem code_eq_none_of_step (h : config.step code thread choice = none) :
    code thread choice config.shared (config.threads thread) = none :=
  Option.map_eq_none_iff.mp h

/-- A thread that holds the lock can go on. -/
theorem code_ne_none_of_holdsLock (haborted : shared.aborted = false) (hpc : PcInv shared ghost pc thread)
    (hholds : pc.holdsLock = true) : code thread .go shared pc ≠ none := by
  rw [code_of_not_aborted haborted]
  cases thread with
  | producer =>
    cases pc with
    | fulfil value byTask pc =>
      cases pc with
      | unblock k =>
        simp only [producerStep, fulfilStep]
        split <;> rintro ⟨⟩
      | runChildren current =>
        cases current with
        | nil => rintro ⟨⟩
        | cons closure rest =>
          simp only [producerStep, fulfilStep]
          split <;> rintro ⟨⟩
      | wake current => cases current <;> rintro ⟨⟩
      | assertUnfulfilled | lock => cases hholds
      | _ => rintro ⟨⟩
    | idle | done => cases hholds
    | _ => exact hpc.elim
  | runner =>
    rw [show pc = .idle from hpc] at hholds
    cases hholds
  | actor i =>
    cases pc with
    | get pc =>
      cases pc with
      | recheck | record =>
        simp only [actorStep, getStep]
        split <;> rintro ⟨⟩
      | unlock | switch => rintro ⟨⟩
      | _ => cases hholds
    | await pc =>
      cases pc with
      | recheck =>
        simp only [actorStep, awaitStep]
        split <;> rintro ⟨⟩
      | unlock | record | switch => rintro ⟨⟩
      | _ => cases hholds
    | chain closure pc =>
      cases pc with
      | recheck =>
        simp only [actorStep, chainStep]
        split <;> rintro ⟨⟩
      | run | add | unlock => rintro ⟨⟩
      | lock => cases hholds
    | idle => cases hholds
    | _ => exact hpc.2.elim

theorem acquire_map_ne_none {next : Pc n} (hlock : shared.lock = none) :
    (shared.acquire thread).map (·, next) ≠ none := by
  simp [Shared.acquire, hlock]

section

variable (hglobal : GlobalInv config.shared ghost)
  (hlocal : ∀ thread, ThreadInv thread config.shared ghost (config.threads thread)) (hsettled : Settled config)

include hglobal hlocal hsettled

theorem Settled.lock_free : config.shared.lock = none := by
  cases hlock : config.shared.lock with
  | none => rfl
  | some thread =>
    obtain ⟨hholds, hpc⟩ := hlocal thread
    refine absurd (code_eq_none_of_step ?_) (code_ne_none_of_holdsLock hglobal.aborted hpc (hholds.mp hlock))
    cases thread with
    | producer => exact hsettled.1 .go
    | runner => exact hsettled.2.1 .go
    | actor i => exact hsettled.2.2 i

theorem Settled.producer_done : config.threads .producer = .done := by
  have hfree := hsettled.lock_free hglobal hlocal
  obtain ⟨hholds, hpc⟩ := hlocal .producer
  have hstep : ∀ choice, producerStep choice config.shared (config.threads .producer) = none := fun choice =>
    (code_of_not_aborted hglobal.aborted choice).symm.trans (code_eq_none_of_step (hsettled.1 choice))
  rw [hfree] at hholds
  cases hthread : config.threads .producer with
  | done => rfl
  | idle =>
    rw [hthread] at hstep
    cases hstep (.fulfil 0 false)
  | fulfil value byTask pc =>
    rw [hthread] at hstep hholds
    have hgo := hstep .go
    cases pc with
    | assertUnfulfilled =>
      simp only [producerStep, fulfilStep] at hgo
      split at hgo <;> cases hgo
    | lock => exact absurd hgo (acquire_map_ne_none hfree)
    | _ => cases hholds.mpr rfl
  | _ =>
    rw [hthread] at hpc
    exact hpc.elim

theorem Settled.actor_idle (i : Fin n) : config.threads (.actor i) = .idle := by
  have hfree := hsettled.lock_free hglobal hlocal
  have hproducer := (hlocal .producer).2
  rw [hsettled.producer_done hglobal hlocal] at hproducer
  obtain ⟨-, hblocked, -, hawaiting⟩ := hproducer
  obtain ⟨hholds, hpc⟩ := hlocal (.actor i)
  have hgo := code_eq_none_of_step (hsettled.2.2 i)
  rw [code_of_not_aborted hglobal.aborted] at hgo
  rw [hfree] at hholds
  cases hthread : config.threads (.actor i) with
  | idle => rfl
  | get pc =>
    rw [hthread] at hgo hholds hpc
    exfalso
    cases pc with
    | check =>
      simp only [actorStep, getStep] at hgo
      split at hgo <;> cases hgo
    | lock => exact acquire_map_ne_none hfree hgo
    | blocked =>
      have hawake : config.shared.awake i = true := hpc.2.resolve_left (hblocked ▸ List.not_mem_nil)
      simp only [actorStep, getStep, hawake, if_true] at hgo
      cases hgo
    | readValue => cases hgo
    | _ => cases hholds.mpr rfl
  | await pc =>
    rw [hthread] at hgo hholds hpc
    exfalso
    cases pc with
    | lock => exact acquire_map_ne_none hfree hgo
    | awaiting =>
      have hawake : config.shared.awake i = true := hpc.2.resolve_left (hawaiting ▸ List.not_mem_nil)
      simp only [actorStep, awaitStep, hawake, if_true] at hgo
      cases hgo
    | _ => cases hholds.mpr rfl
  | chain closure pc =>
    rw [hthread] at hgo hholds
    exfalso
    cases pc with
    | lock => exact acquire_map_ne_none hfree hgo
    | _ => cases hholds.mpr rfl
  | _ =>
    rw [hthread] at hpc
    exact hpc.2.elim

end

theorem Settled.tasks_nil (hglobal : GlobalInv config.shared ghost) (hsettled : Settled config) :
    config.shared.tasks = [] := by
  have hgo := code_eq_none_of_step (hsettled.2.1 .go)
  rw [code_of_not_aborted hglobal.aborted] at hgo
  cases htasks : config.shared.tasks with
  | nil => rfl
  | cons task tasks =>
    simp only [runnerStep, htasks] at hgo
    cases hgo

theorem served_of_inv (hglobal : GlobalInv config.shared ghost)
    (hlocal : ∀ thread, ThreadInv thread config.shared ghost (config.threads thread)) : Served config where
  resumed := (List.sublist_append_left _ _).subperm.trans hglobal.waits.symm.subperm
  ran_once := (List.sublist_append_left _ _).nodup hglobal.listed.nodup
  chained entry hentry :=
    (hglobal.listed.listed entry.1 (List.mem_append_left _ (List.mem_map_of_mem hentry))).1
  ran_value := hglobal.ran
  returned_value := hglobal.returned
  settled hsettled := by
    have hproducer := (hlocal .producer).2
    rw [hsettled.producer_done hglobal hlocal] at hproducer
    obtain ⟨-, hblocked, hclosures, hawaiting⟩ := hproducer
    have hidle := hsettled.actor_idle hglobal hlocal
    refine ⟨?_, fun c hc => ?_, hidle⟩
    · have hwaits := hglobal.waits
      rwa [hblocked, hawaiting, List.append_nil, List.append_nil] at hwaits
    · rcases hglobal.listed.mem_or_owned c hc with hmem | ⟨i, howner⟩
      · rwa [listedClosures, hsettled.tasks_nil hglobal, hclosures, List.map_nil, List.append_nil,
          List.append_nil] at hmem
      · have hflight := ((hlocal (.actor i)).2.1 c).mp howner
        rw [hidle i] at hflight
        cases hflight

/-! ### Running out of room -/

/-- After an abort nothing happens, so that those who still waited are never resumed. -/
theorem not_served_of_aborted (haborted : config.shared.aborted = true)
    (hlength : config.shared.resumed.length < config.shared.waited.length) : ¬ Served config := by
  intro hserved
  have hnone : ∀ thread choice, config.step code thread choice = none := by
    intro thread choice
    apply Option.map_eq_none_iff.mpr
    unfold code
    rw [if_pos haborted]
  have hall := hserved.settled ⟨hnone _, hnone _, fun i => hnone _ _⟩
  exact Nat.ne_of_gt hlength hall.resumed.length_eq

theorem not_served_of_no_room (hglobal : GlobalInv config.shared ghost)
    (hlocal : ∀ thread, ThreadInv thread config.shared ghost (config.threads thread))
    (hstep : config.step code thread choice = some next) (hroom : ¬ HasRoom config thread choice) :
    ¬ Served next := by
  obtain ⟨priv, hcode, -⟩ := Config.step_eq_some_iff.mp hstep
  unfold HasRoom at hroom
  split at hroom
  · rename_i i hpc
    have hinv := (hlocal (.actor i)).2.2
    rw [hpc] at hcode hinv
    rw [code_of_not_aborted hglobal.aborted] at hcode
    cases choice with
    | go =>
      simp only [actorStep, getStep, if_neg hroom, Option.some.injEq, Prod.mk.injEq] at hcode
      obtain ⟨hshared, -⟩ := hcode
      have hlength : config.shared.waited.length = config.shared.resumed.length +
          (config.shared.responsibilities.length + ghost.awaiting.length) := by
        rw [hglobal.waits.length_eq, List.length_append, List.length_append, (hglobal.lists hinv).blocked]
      apply not_served_of_aborted
      · rw [← hshared]
        rfl
      · rw [← hshared]
        change config.shared.resumed.length < config.shared.waited.length
        unfold maxResponsibilities at hroom
        omega
    | _ => cases hcode
  · exact absurd trivial hroom

/-! ### The end of the run -/

theorem fulfilStep_ne_idle {value : Value} {byTask : Bool} {pc : FulfilPc n}
    (hstep : fulfilStep shared value byTask pc = some (shared', pc')) : pc' ≠ .idle := by
  rintro rfl
  unfold fulfilStep at hstep
  split at hstep
  case h_2 => cases (acquire_map_eq_some hstep).2
  all_goals first | cases hstep | (split at hstep <;> cases hstep)

theorem producer_ne_idle (hstep : config.step code thread choice = some next)
    (hproducer : config.threads .producer ≠ .idle) : next.threads .producer ≠ .idle := by
  obtain ⟨priv, hcode, hthreads⟩ := Config.step_eq_some_iff.mp hstep
  rw [hthreads]
  cases thread with
  | producer =>
    rw [Function.update_self]
    have hstep : producerStep choice config.shared (config.threads .producer) = some (next.shared, priv) :=
      (Option.ite_none_left_eq_some.mp hcode).2
    unfold producerStep at hstep
    split at hstep
    · contradiction
    · exact fulfilStep_ne_idle hstep
    · cases hstep
  | _ => exact hproducer

theorem settled_of_stuck (hproducer : config.threads .producer ≠ .idle)
    (hstuck : ∀ thread, config.step code thread .go = none) : Settled config := by
  have hnone : ∀ choice, config.step code .producer choice = none ∧ config.step code .runner choice = none := by
    intro choice
    by_cases hgo : choice = .go
    · exact hgo ▸ ⟨hstuck _, hstuck _⟩
    · constructor <;> refine Option.map_eq_none_iff.mpr (ite_eq_left_iff.mpr fun _ => ?_)
      · simp only [producerStep]
        split <;> trivial
      · simp only [runnerStep]
        split <;> trivial
  exact ⟨fun choice => (hnone choice).1, fun choice => (hnone choice).2, fun i => hstuck _⟩

theorem servesAll (hreach : ReachableVia code HasRoom init config) (hproducer : config.threads .producer ≠ .idle) :
    ServesAll config := by
  refine ⟨work config, fun schedule next hrun => ⟨?_, fun hstuck => ?_⟩⟩
  · have hlength := Config.length_le_of_runVia (· = .go) work ?_ ?_ hrun
    · rwa [List.length_map] at hlength
    · rintro config next thread _ rfl hstep
      exact work_lt_of_step hstep
    · simp
  · obtain ⟨ghost, hglobal, hlocal⟩ := invariants (hreach.run _ hrun)
    have hnext : next.threads .producer ≠ .idle :=
      (ReachableVia.refl.run _ hrun).invariant (·.threads .producer ≠ .idle) hproducer
        fun _ _ _ _ hinv _ hstep => producer_ne_idle hstep hinv
    exact (served_of_inv hglobal hlocal).settled (settled_of_stuck hnext hstuck)

def allGet (n : Nat) : List (Tid n × Choice) :=
  (List.finRange n).flatMap fun i =>
    [(.actor i, .get), (.actor i, .go), (.actor i, .go), (.actor i, .go), (.actor i, .go), (.actor i, .go)]

end Lfmr.Futures
