import Lfmr.Concurrency.HandOff
import Lfmr.Proof.DurationGrace

/-!
# No collectible duration is left behind

`collect` hands work over: the work is ready when the duration at the front of the queue is
collectible, and the counter and the lock are those of `pending_lock_t`. So what a thread leaves to the
others is seen to, as long as the 32 bits of `pending` are enough.
-/

namespace Lfmr.DurationWindow

open Lfmr.Concurrency Lfmr.ClosingOrder

variable {n : Nat} {Heap Op : Type}

def Ready (shared : Shared n Heap) : Prop :=
  ∃ d, (shared.durations shared.queueTail).next = some d ∧ (shared.durations d).collectible = true

def Pc.exiting : Pc → Bool
  | .close _ _ _ | .settle _ _ _ | .collect _ _ => true
  | _ => false

def Pc.draining : Pc → Bool
  | .collect _ .addPending | .collect _ .casLock | .collect _ .loadPending | .collect _ .casEmpty => false
  | .collect _ _ => true
  | _ => false

def PendingFits (config : Config (Fin n) (Shared n Heap) Pc) (thread : Fin n) (_ : Choice Op) : Prop :=
  match config.threads thread with
  | .collect _ .addPending => config.shared.pending + 1 < uint32Size
  | _ => True

def Pc.addsPending : Pc → Bool
  | .collect _ .addPending => true
  | _ => false

variable {config : Config (Fin n) (Shared n Heap) Pc} {choice : Choice Op}
  {scheme : Scheme n Heap Op} {memory : Addr → Duration n}

theorem pendingFits_iff {thread : Fin n} : PendingFits config thread choice ↔
      ((config.threads thread).addsPending = true → config.shared.pending + 1 < uint32Size) := by
  unfold PendingFits Pc.addsPending
  split <;> simp

instance (config : Config (Fin n) (Shared n Heap) Pc) (thread : Fin n) (choice : Choice Op) :
    Decidable (PendingFits config thread choice) :=
  decidable_of_iff _ pendingFits_iff.symm

/-- At most one thread at a time is in the loop of `collect`. -/
def OneDrains (config : Config (Fin n) (Shared n Heap) Pc) : Prop :=
  ∀ thread other, (config.threads thread).draining = true → (config.threads other).draining = true →
    thread = other

/-- `pending` is decremented only when it is not zero, and once all threads have left the exit function
the duration at the front of the queue is not collectible. -/
structure LeavesNothing (config : Config (Fin n) (Shared n Heap) Pc) : Prop where
  decrement : ∀ thread rest, config.threads thread = .collect rest .subPending →
    1 ≤ config.shared.pending
  front : (∀ thread, (config.threads thread).exiting = false) → ¬ Ready config.shared

def Pc.duty : Pc → Duty
  | .collect _ .addPending => .adding
  | .collect _ .casLock => .locking
  | .collect _ .loadPending | .collect _ .casEmpty | .collect _ .readPending
  | .collect _ .casLoop => .holding
  | .collect _ .subPending => .due
  | .collect _ _ => .working
  | _ => .away

def Shared.work (shared : Shared n Heap) : Work :=
  { pending := shared.pending, lock := shared.lock, ready := Ready shared }

structure Quiet (shared shared' : Shared n Heap) : Prop where
  pending : shared'.pending = shared.pending
  lock : shared'.lock = shared.lock
  ready : Ready shared' → Ready shared

variable {variant : Variant} {thread : Fin n} {shared shared' : Shared n Heap} {ghost : Ghost n}
  {pc pc' : Pc}

theorem Quiet.refl : Quiet shared shared := ⟨rfl, rfl, id⟩

theorem Quiet.step (hquiet : Quiet shared shared') (hduty : pc'.duty = pc.duty) :
    Duty.Step shared.work pc.duty shared'.work pc'.duty := by
  have hwork : shared'.work = { shared.work with ready := Ready shared' } := by
    simp [Shared.work, hquiet.pending, hquiet.lock]
  rw [hwork, hduty]
  exact .stay hquiet.ready

theorem quiet_write (d : Addr) {change : Duration n → Duration n}
    (hnext : ∀ duration, (change duration).next = duration.next ∨ (change duration).next = none)
    (hcollectible : ∀ duration, (change duration).collectible = true → duration.collectible = true) :
    Quiet shared (shared.write d change) := by
  refine ⟨rfl, rfl, ?_⟩
  rintro ⟨e, hfront, hset⟩
  refine ⟨e, ?_, ?_⟩
  · simp only [Shared.write, Function.update_apply] at hfront
    split at hfront
    · rename_i heq
      rcases hnext (shared.durations d) with hsame | hnone
      · rw [heq, ← hsame]
        exact hfront
      · simp [hnone] at hfront
    · exact hfront
  · simp only [Shared.write, Function.update_apply] at hset
    split at hset
    · rename_i heq
      rw [heq]
      exact hcollectible _ hset
    · exact hset

theorem duty_settleBoth (myD d : Addr) : (settleBoth myD d).duty = .away := by
  unfold settleBoth
  split <;> rfl

theorem duty_settleRest (rest : Option Addr) : (settleRest rest).duty = .away := by
  cases rest <;> rfl

theorem onEntry_quiet (thread : Fin n) (item : ItemAddr) (shared : Shared n Heap) (pc : EntryPc) :
    Quiet shared (onEntry thread item shared pc).1 ∧ (onEntry thread item shared pc).2.duty = .away := by
  cases pc with
  | loadAba =>
    simp only [onEntry]
    split <;> exact ⟨.refl, rfl⟩
  | readCurrent aba | loadEntry aba d => exact ⟨.refl, rfl⟩
  | cas aba entry d =>
    simp only [onEntry]
    split
    · exact ⟨⟨rfl, rfl, id⟩, rfl⟩
    · split <;> exact ⟨.refl, rfl⟩
  | storeDuration d => exact ⟨⟨rfl, rfl, id⟩, rfl⟩

theorem newDuration_quiet {new : Addr}
    (hnew : newDuration variant thread shared choice = some (new, shared')) : Quiet shared shared' := by
  obtain ⟨entry, allocated, durationPool, rfl⟩ := newDuration_eq hnew
  have hquiet : Quiet shared (shared.write new fun duration => { duration.reset with entry }) :=
    quiet_write new (fun _ => Or.inr rfl) (by simp [Duration.reset])
  exact ⟨rfl, rfl, hquiet.ready⟩

theorem closeDuration_quiet {item : ItemAddr} {myD : Addr} {pc : ClosePc}
    (hcode : closeDuration scheme item myD shared pc = some (shared', pc')) :
    Quiet shared shared' ∧ pc'.duty = .away := by
  have hwrite : ∀ (d : Addr) (change : Duration n → Duration n), (∀ duration, (change duration).next = duration.next) →
      (∀ duration, (change duration).collectible = duration.collectible) →
      Quiet shared (shared.write d change) := by
    intro d change hnext hcollectible
    exact quiet_write d (fun duration => Or.inl (hnext duration)) fun duration hset => by
      rwa [hcollectible] at hset
  unfold closeDuration at hcode
  split at hcode
  · split at hcode
    all_goals
      cases hcode
      exact ⟨⟨rfl, rfl, id⟩, rfl⟩
  · cases hcode
    exact ⟨⟨rfl, rfl, id⟩, rfl⟩
  all_goals simp only [Option.some.injEq, Prod.mk.injEq, reduceCtorEq] at hcode
  all_goals
    obtain ⟨rfl, rfl⟩ := hcode
    first
      | exact ⟨.refl, rfl⟩
      | exact ⟨hwrite _ _ (fun _ => rfl) fun _ => rfl, rfl⟩
      | exact ⟨hwrite _ _ (fun _ => rfl) fun _ => rfl, duty_settleBoth _ _⟩

theorem pushNext_quiet {item : ItemAddr} {myD d prev : Addr} (hglobal : GlobalInv variant shared ghost)
    (hinv : ThreadInv variant thread shared ghost (.close item myD (.pushNext d prev))) :
    Quiet shared (shared.write prev fun duration => { duration with next := some d }) := by
  have hclosed : d ∈ ghost.order.closed := by
    rw [hglobal.closed, hinv.at_pc.1]
    simp
  have howed : thread ∈ ghost.order.owing d := by
    rw [hinv.owed]
    simp only [Pc.owed, ClosePc.joined]
    split <;> simp_all
  have hopen := hglobal.not_collectible hclosed howed
  rw [write_next]
  refine ⟨rfl, rfl, ?_⟩
  rintro ⟨e, hfront, hset⟩
  simp only [Function.update_apply] at hfront
  split at hfront
  · obtain rfl : d = e := by simpa using hfront
    rw [hopen] at hset
    simp at hset
  · exact ⟨e, hfront, hset⟩

theorem onExit_quiet {item : ItemAddr} {myD : Addr} {pc : ClosePc} (hglobal : GlobalInv variant shared ghost)
    (hinv : ThreadInv variant thread shared ghost (.close item myD pc))
    (hcode : onExit scheme thread choice item myD shared pc = some (shared', pc')) :
    Quiet shared shared' ∧ pc'.duty = .away := by
  unfold onExit at hcode
  split at hcode
  · split at hcode
    all_goals
      cases hcode
      exact ⟨.refl, rfl⟩
  · split at hcode
    all_goals
      cases hcode
      exact ⟨⟨rfl, rfl, id⟩, rfl⟩
  · cases hcode
    exact ⟨.refl, rfl⟩
  · rw [Option.map_eq_some_iff] at hcode
    obtain ⟨⟨new, allocated⟩, hnew, hresult⟩ := hcode
    cases hresult
    exact ⟨newDuration_quiet hnew, rfl⟩
  · rename_i d new
    cases hcode
    have hquiet : Quiet shared (shared.write d fun duration =>
        { duration with openWhen := shared.snapshot }) :=
      quiet_write d (fun _ => Or.inl rfl) fun _ hset => hset
    exact ⟨⟨rfl, rfl, hquiet.ready⟩, rfl⟩
  · cases hcode
    exact ⟨.refl, rfl⟩
  · cases hcode
    exact ⟨⟨rfl, rfl, id⟩, rfl⟩
  · cases hcode
    exact ⟨pushNext_quiet hglobal hinv, rfl⟩
  · cases hcode
    refine ⟨⟨rfl, rfl, id⟩, ?_⟩
    split
    · exact duty_settleBoth _ _
    · rfl
  · exact closeDuration_quiet hcode

theorem setCollectible_step {d : Addr} {rest : Option Addr} {pc : SettlePc}
    (hcode : setCollectible scheme choice d rest shared pc = some (shared', pc')) :
    Duty.Step shared.work .away shared'.work pc'.duty ∧ shared'.pending = shared.pending := by
  have hexit : Quiet shared (shared.write d fun duration =>
      { duration with exit := duration.exit + 1 }) :=
    quiet_write d (fun _ => Or.inl rfl) fun _ hset => hset
  have haway : ∀ {pc' : Pc}, pc'.duty = .away → pc'.duty = (Pc.settle d rest pc).duty := fun h => h
  cases pc with
  | start =>
    simp only [setCollectible] at hcode
    split at hcode
    all_goals simp only [Option.some.injEq, Prod.mk.injEq, reduceCtorEq] at hcode
    · obtain ⟨rfl, rfl⟩ := hcode
      exact ⟨Quiet.refl.step (haway rfl), rfl⟩
    · obtain ⟨rfl, rfl⟩ := hcode
      exact ⟨hexit.step (haway rfl), rfl⟩
  | add entry =>
    cases hcode
    refine ⟨hexit.step (haway ?_), rfl⟩
    split
    · rfl
    · exact duty_settleRest rest
  | late exit entryThen =>
    cases hcode
    refine ⟨Quiet.refl.step (haway ?_), rfl⟩
    split
    · rfl
    · exact duty_settleRest rest
  | store =>
    cases hcode
    exact ⟨.announce, rfl⟩

/-- The body of the inner loop is work, and its end has seen that nothing is ready. -/
theorem collectOne_step {rest : Option Addr} {pc : CollectPc} (hglobal : GlobalInv variant shared ghost)
    (hinv : ThreadInv variant thread shared ghost (.collect rest pc))
    (hcode : collectOne scheme thread rest shared pc = some (shared', pc')) :
    Duty.Step shared.work (Pc.collect rest pc).duty shared'.work pc'.duty ∧ shared'.pending = shared.pending := by
  obtain ⟨-, hat⟩ := hinv.at_pc
  cases pc with
  | peekNext tail =>
    obtain ⟨htail, rfl⟩ := hat
    simp only [collectOne] at hcode
    split at hcode
    · rename_i hnone
      cases hcode
      refine ⟨.finish ?_, rfl⟩
      rintro ⟨d, hfront, -⟩
      rw [htail, hnone] at hfront
      simp at hfront
    · cases hcode
      exact ⟨.work, rfl⟩
  | loadCollectible d =>
    obtain ⟨htail, hfirst⟩ := hat
    simp only [collectOne] at hcode
    split at hcode
    · cases hcode
      exact ⟨.work, rfl⟩
    · rename_i hopen
      cases hcode
      refine ⟨.finish ?_, rfl⟩
      rintro ⟨e, hfront, hset⟩
      obtain ⟨newer, hchain⟩ := List.head?_eq_some_iff.mp hfirst
      have hlinked := hglobal.linked
      rw [hchain, linked_cons, ← htail, hfront] at hlinked
      obtain rfl : e = d := by simpa using hlinked.1
      exact hopen hset
  | readHead d =>
    simp only [collectOne, Option.map_eq_some_iff, Prod.mk.injEq] at hcode
    obtain ⟨item, -, rfl, rfl⟩ := hcode
    exact ⟨.work, rfl⟩
  | cleanCell d item cur =>
    cases cur with
    | none | some cell =>
      cases hcode
      exact ⟨.work, rfl⟩
  | popNext d tail | readStw d =>
    simp only [collectOne] at hcode
    split at hcode
    all_goals
      cases hcode
      exact ⟨.work, rfl⟩
  | popFree d tail next =>
    cases hcode
    obtain ⟨allocated, durationPool, heq⟩ := freeDuration_eq scheme.variant thread tail shared
    rw [heq]
    exact ⟨.work, rfl⟩
  | peekTail | cleanOne d item | popTail d | popStore d next | addAba =>
    cases hcode
    exact ⟨.work, rfl⟩
  | _ => simp [collectOne] at hcode

theorem collect_step {rest : Option Addr} {pc : CollectPc} (hglobal : GlobalInv variant shared ghost)
    (hinv : ThreadInv variant thread shared ghost (.collect rest pc))
    (hbound : shared.pending < uint32Size) (hfits : pc = .addPending → shared.pending + 1 < uint32Size)
    (hdue : pc = .subPending → shared.pending ≠ 0)
    (hcode : collect scheme thread rest shared pc = some (shared', pc')) :
    Duty.Step shared.work (Pc.collect rest pc).duty shared'.work pc'.duty ∧ shared'.pending < uint32Size := by
  -- Whoever holds the lock finds it taken.
  have hlock : (Pc.collect rest pc).collecting = true → shared.lock = true := by
    intro hcollecting
    rw [hglobal.lock, hinv.collector.mpr hcollecting]
    rfl
  cases pc with
  | addPending =>
    have hadd : (shared.pending + 1) % uint32Size = shared.pending + 1 := Nat.mod_eq_of_lt (hfits rfl)
    simp only [collect, Option.some.injEq, Prod.mk.injEq, hadd] at hcode
    obtain ⟨rfl, rfl⟩ := hcode
    refine ⟨?_, hfits rfl⟩
    split
    · rename_i hpending
      rw [duty_settleRest]
      exact .addMore hpending
    · rename_i hpending
      exact .addFirst (by simpa [Shared.work] using hpending)
  | casLock =>
    simp only [collect] at hcode
    split at hcode
    · rename_i htaken
      cases hcode
      rw [duty_settleRest]
      exact ⟨.locked htaken, hbound⟩
    · rename_i hfree
      cases hcode
      exact ⟨.lock (by simpa [Shared.work] using hfree), hbound⟩
  | loadPending =>
    cases hcode
    refine ⟨?_, hbound⟩
    split
    · exact Quiet.refl.step rfl
    · rename_i hpending
      exact .resume hpending
  | casEmpty | casLoop =>
    simp only [collect] at hcode
    split at hcode
    · rename_i hempty
      cases hcode
      rw [duty_settleRest]
      exact ⟨.unlock hempty.1, hbound⟩
    · rename_i hmore
      cases hcode
      exact ⟨.resume fun hzero => hmore ⟨hzero, hlock rfl⟩, hbound⟩
  | subPending =>
    have hpending := hdue rfl
    have hsub : (shared.pending + (uint32Size - 1)) % uint32Size = shared.pending - 1 := by
      unfold uint32Size at hbound ⊢
      omega
    simp only [collect, Option.some.injEq, Prod.mk.injEq, hsub] at hcode
    obtain ⟨rfl, rfl⟩ := hcode
    exact ⟨.take, Nat.lt_of_le_of_lt (Nat.sub_le _ _) hbound⟩
  | readPending =>
    cases hcode
    refine ⟨?_, hbound⟩
    split
    · rename_i hpending
      exact .resume (Nat.pos_iff_ne_zero.mp hpending)
    · exact Quiet.refl.step rfl
  | _ =>
    simp only [collect] at hcode
    obtain ⟨hstep, hpending⟩ := collectOne_step hglobal hinv hcode
    exact ⟨hstep, hpending ▸ hbound⟩

/-- Every access is one of those that hand work over. -/
theorem code_step (hglobal : GlobalInv variant config.shared ghost)
    (hinv : ThreadInv variant thread config.shared ghost (config.threads thread))
    (hbound : config.shared.pending < uint32Size) (hfits : PendingFits config thread choice)
    (hdue : (config.threads thread).duty = .due → config.shared.pending ≠ 0)
    (hcode : code scheme thread choice config.shared (config.threads thread) = some (shared', pc')) :
    Duty.Step config.shared.work (config.threads thread).duty shared'.work pc'.duty ∧ shared'.pending < uint32Size := by
  unfold PendingFits at hfits
  generalize config.threads thread = pc at hinv hfits hdue hcode ⊢
  have hquiet : ∀ {pc : Pc}, Quiet config.shared shared' → pc.duty = .away → pc'.duty = .away →
      Duty.Step config.shared.work pc.duty shared'.work pc'.duty ∧ shared'.pending < uint32Size := by
    intro pc hquiet hduty hduty'
    exact ⟨hquiet.step (hduty'.trans hduty.symm), hquiet.pending ▸ hbound⟩
  unfold code at hcode
  split at hcode
  · rw [Option.map_eq_some_iff] at hcode
    obtain ⟨⟨item, heap⟩, -, hresult⟩ := hcode
    cases hresult
    exact hquiet ⟨rfl, rfl, id⟩ rfl rfl
  · rename_i thread _ _ _ _ item pc
    simp only [Option.some.injEq] at hcode
    have hentry := onEntry_quiet thread item config.shared pc
    rw [hcode] at hentry
    exact hquiet hentry.1 rfl hentry.2
  · cases hcode
    exact hquiet ⟨rfl, rfl, id⟩ rfl rfl
  · cases hcode
    exact hquiet ⟨rfl, rfl, id⟩ rfl rfl
  · obtain ⟨hexit, hduty⟩ := onExit_quiet hglobal hinv hcode
    exact hquiet hexit rfl hduty
  · obtain ⟨hstep, hpending⟩ := setCollectible_step hcode
    exact ⟨hstep, hpending ▸ hbound⟩
  · rename_i rest pc
    refine collect_step hglobal hinv hbound ?_ ?_ hcode
    · rintro rfl
      exact hfits
    · rintro rfl
      exact hdue rfl
  · simp at hcode

def RegularFits (scheme : Scheme n Heap Op) (config : Config (Fin n) (Shared n Heap) Pc)
    (thread : Fin n) (choice : Choice Op) : Prop :=
  Regular scheme config thread choice ∧ PendingFits config thread choice

instance (scheme : Scheme n Heap Op) (config : Config (Fin n) (Shared n Heap) Pc) (thread : Fin n) (choice : Choice Op) :
    Decidable (RegularFits scheme config thread choice) := inferInstanceAs (Decidable (_ ∧ _))

theorem handedOver_of_regular {heap : Heap}
    (hreach : ReachableVia (code scheme) (RegularFits scheme) (init memory heap) config) :
    HandedOver config.shared.work (fun thread => (config.threads thread).duty) ∧
      config.shared.pending < uint32Size := by
  induction hreach with
  | refl =>
    refine ⟨⟨?_, ?_, ?_, ?_, ?_⟩, by simp [init, uint32Size]⟩
    all_goals simp [init, Shared.work, Ready, Pc.duty, Duty.HasLock]
  | @step config next thread choice hreach hallowed hstep ih =>
    obtain ⟨hover, hbound⟩ := ih
    obtain ⟨ghost, hglobal, hlocal⟩ := invariants_of_regular (hreach.mono fun _ _ _ h => h.1)
    obtain ⟨pc', hcode, hthreads⟩ := Config.step_eq_some_iff.mp hstep
    obtain ⟨hduty, hbound'⟩ :=
      code_step hglobal (hlocal thread) hbound hallowed.2 (hover.due thread) hcode
    refine ⟨?_, hbound'⟩
    have hnext := hover.step hduty
    convert hnext using 1
    funext other
    rw [hthreads]
    by_cases heq : other = thread
    · subst heq
      simp
    · simp [heq]

theorem duty_eq_away {pc : Pc} (hexiting : pc.exiting = false) : pc.duty = .away := by
  cases pc with
  | collect rest pc => simp [Pc.exiting] at hexiting
  | _ => rfl

theorem leavesNothing_of_regular {heap : Heap}
    (hreach : ReachableVia (code scheme) (RegularFits scheme) (init memory heap) config) :
    LeavesNothing config := by
  obtain ⟨hover, -⟩ := handedOver_of_regular hreach
  constructor
  · intro thread rest hpc
    have hdue := hover.due thread (by rw [hpc]; rfl)
    exact Nat.one_le_iff_ne_zero.mpr hdue
  · intro hexiting
    exact hover.not_ready fun thread => duty_eq_away (hexiting thread)

theorem collecting_of_draining {pc : Pc} (hdraining : pc.draining = true) : pc.collecting = true := by
  cases pc with
  | collect rest pc => cases pc <;> simp_all [Pc.draining, Pc.collecting]
  | _ => simp [Pc.draining] at hdraining

theorem oneDrains_of_regular {heap : Heap}
    (hreach : ReachableVia (code scheme) (Regular scheme) (init memory heap) config) :
    OneDrains config := by
  obtain ⟨ghost, -, hlocal⟩ := invariants_of_regular hreach
  intro thread other hthread hother
  have hfirst := (hlocal thread).collector.mpr (collecting_of_draining hthread)
  have hsecond := (hlocal other).collector.mpr (collecting_of_draining hother)
  exact Option.some.inj (hfirst.symm.trans hsecond)

end Lfmr.DurationWindow
