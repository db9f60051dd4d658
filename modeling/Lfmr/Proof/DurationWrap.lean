import Lfmr.Proof.DurationHandOff
import Lfmr.Proof.DurationRuns

/-!
# The hand-over of the Encore runtime

What `collect` of the Encore `dw.c` keeps, and the run on which the counter `pending` wraps around: one
thread drains the queue without end while another goes on closing durations, and leaves the last one to
it just as it gives up.
-/

namespace Lfmr.DurationWindow

open List Function Lfmr.Concurrency Lfmr.ClosingOrder

/-- In every run of the Encore `dw.c` in which no addition to `aba` wraps around, at most one thread at a time
drains the queue. If no addition to `pending` does either, then it is never decremented below zero, and a
collectible duration is never left at the front of the queue. -/
theorem encore_handOff {n : Nat} {markSweep : Traced → Traced} {memory : Addr → Duration n}
    {heap : Traced} :
    let encore := encore uint32Size markSweep
    (∀ config, ReachableVia (code encore) (Regular encore) (init memory heap) config → OneDrains config) ∧
      ∀ config, ReachableVia (code encore) (RegularFits encore) (init memory heap) config → LeavesNothing config :=
  ⟨fun _ => oneDrains_of_regular, fun _ => leavesNothing_of_regular⟩

def allLeft (config : Config (Fin 2) (Shared 2 Traced) Pc) : Bool :=
  !(config.threads 0).exiting && !(config.threads 1).exiting && config.shared.queueTail == 2

/-- Two threads leave one after the other, and the second cleans for both. -/
theorem encore_handOff_both :
    ∃ config : Config (Fin 2) (Shared 2 Traced) Pc,
      ReachableVia (code (encore uint32Size id)) (RegularFits (encore uint32Size id)) (init (memoryWith 0) noObjects) config ∧
      OneDrains config ∧ config.shared.queueTail = 2 ∧ ¬ Ready config.shared := by
  have hrun : ((init (memoryWith 0) noObjects).runVia (code (encore uint32Size id)) (RegularFits (encore uint32Size id))
      (encoreBoth (n := 2) 0 1 ++ go 1 22)).any allLeft = true := by
    decide +kernel
  obtain ⟨config, hreach, hleft⟩ := exists_reachableVia_of_run _ _ hrun
  simp only [allLeft, Bool.and_eq_true, Bool.not_eq_true', beq_iff_eq] at hleft
  obtain ⟨⟨hfirst, hsecond⟩, htail⟩ := hleft
  refine ⟨config, hreach, encore_handOff.1 config (hreach.mono fun _ _ _ h => h.1), htail,
    (encore_handOff.2 config hreach).front (Fin.forall_fin_two.mpr ⟨hfirst, hsecond⟩)⟩

/-- The same of the regular runs of the root `dw.c`. -/
theorem root_handOff {n : Nat} {memory : Addr → Duration n} {heap : Nodes n}
    {config : Config (Fin n) (Shared n (Nodes n)) Pc}
    (hreach : ReachableVia (code root) (RegularFits root) (init memory heap) config) :
    OneDrains config ∧ LeavesNothing config :=
  ⟨oneDrains_of_regular (hreach.mono fun _ _ _ hfits => hfits.1), leavesNothing_of_regular hreach⟩

theorem root_handOff_clean : ∃ config : Config (Fin 2) (Shared 2 (Nodes 2)) Pc,
      ReachableVia (code root) (RegularFits root) (init (memoryWith 2) noNodes) config ∧
      isCleaning 1 1 config = true ∧ OneDrains config ∧ LeavesNothing config := by
  have hrun : ((init (memoryWith 2) noNodes).runVia (code root) (RegularFits root)
      (rootBoth (n := 2) 0 1)).any (isCleaning 1 1) = true := by
    decide +kernel
  obtain ⟨config, hreach, hcleaning⟩ := exists_reachableVia_of_run _ _ hrun
  exact ⟨config, hreach, hcleaning, root_handOff hreach⟩

structure Parked (entry count : Nat) (lock : Bool) (shared : Shared 2 Traced) : Prop where
  even : shared.aba % 2 = 0
  entry : shared.entry = entry
  pending : shared.pending = count
  lock : shared.lock = lock
  queueHead : shared.queueHead = shared.queueTail
  next : (shared.durations shared.queueTail).next = none
  blank : Blank (shared.durations shared.currentD)
  distinct : shared.currentD ≠ shared.queueTail
  allocated : ∀ d, shared.allocated d = true ↔ d = shared.currentD ∨ d = shared.queueTail

variable {count : Nat} {lock : Bool} {shared : Shared 2 Traced}

attribute [local simp] soloRun

theorem soloRun_enter (thread : Fin 2) (item : ItemAddr) (h : Parked 0 count lock shared) :
    ∃ shared', soloRun (code (encore uint32Size id)) thread (.enter item none :: replicate 5 .go) shared
        .outside = some (shared', .inside item shared'.currentD) ∧
      Parked 1 count lock shared' ∧ shared'.heap.address item = none := by
  refine ⟨{ shared with
    entry := 1
    heap := { shared.heap with address := update shared.heap.address item none }
    toSections := shared.enter thread }, ?_, ?_, by simp⟩
  · simp [code, encore, onEntry, h.even, h.entry, replicate]
  · exact { h with entry := rfl }

structure Closing (count : Nat) (lock : Bool) (d : Addr) (duration : Duration 2) (shared : Shared 2 Traced) : Prop where
  odd : shared.aba % 2 = 1
  entry : shared.entry = 0
  pending : shared.pending = count
  lock : shared.lock = lock
  queueHead : shared.queueHead = shared.queueTail
  current : shared.durations d = duration
  distinct : d ≠ shared.queueTail
  allocated : ∀ e, shared.allocated e = true ↔ e = d ∨ e = shared.queueTail

attribute [local simp] Shared.write

theorem soloRun_close (thread : Fin 2) (item : ItemAddr) (h : Parked 1 count lock shared) :
    ∃ shared', soloRun (code (encore uint32Size id)) thread (.exit :: replicate 6 .go) shared
        (.inside item shared.currentD) = some (shared', .close item shared.currentD (.new shared.currentD)) ∧
      Closing count lock shared.currentD
        { shared.durations shared.currentD with entry := 1, head := some item } shared' ∧
      shared'.heap = shared.heap := by
  refine ⟨{ shared with
    toSections := shared.exit thread
    aba := (shared.aba + 1) % uint32Size
    entry := 0
    durations := update shared.durations shared.currentD
      { shared.durations shared.currentD with entry := 1, head := some item } }, ?_, ?_, rfl⟩
  · simp [code, encore, onExit, closeDuration, h.even, h.entry, replicate]
  · have heven := h.even
    exact { h with odd := by simp only [uint32Size]; omega, entry := rfl, current := by simp }

structure Loaded (count : Nat) (lock : Bool) (d : Addr) (duration : Duration 2) (shared : Shared 2 Traced) : Prop where
  even : shared.aba % 2 = 0
  entry : shared.entry = 0
  pending : shared.pending = count
  lock : shared.lock = lock
  queueHead : shared.queueHead = d
  front : (shared.durations shared.queueTail).next = some d
  contents : shared.durations d = duration
  blank : Blank (shared.durations shared.currentD)
  distinct : [shared.currentD, d, shared.queueTail].Nodup
  allocated : ∀ e, shared.allocated e = true ↔ e ∈ [shared.currentD, d, shared.queueTail]

variable {duration : Duration 2}

/-- The next duration is allocated, and the closed one goes into the queue. -/
theorem soloRun_push (thread : Fin 2) {item : ItemAddr} {d new : Addr}
    (h : Closing count lock d duration shared) (hnew : shared.allocated new = false) :
    ∃ shared', soloRun (code (encore uint32Size id)) thread (.malloc new 0 :: replicate 5 .go) shared
        (.close item d (.new d)) = some (shared', .settle d none .start) ∧
      Loaded count lock d { duration with openWhen := shared.snapshot } shared' ∧
      shared'.heap = shared.heap := by
  have hold : ∀ e, e = d ∨ e = shared.queueTail → e ≠ new := by
    rintro e he rfl
    rw [(h.allocated e).mpr he] at hnew
    simp at hnew
  have hd := hold d (Or.inl rfl)
  have htail := hold shared.queueTail (Or.inr rfl)
  refine ⟨(({ shared with
      aba := (shared.aba + 1) % uint32Size
      currentD := new
      queueHead := d
      allocated := update shared.allocated new true }.write new
        fun duration => { duration.reset with entry := 0 }).write d
          fun duration => { duration with openWhen := shared.snapshot }).write shared.queueHead
            fun duration => { duration with next := some d }, ?_, ?_, rfl⟩
  · simp [code, encore, onExit, newDuration, malloc, hnew, settleBoth, replicate]
  · have hodd := h.odd
    have hdistinct := h.distinct
    refine ⟨by simp only [Shared.write, uint32Size]; omega, h.entry, h.pending, h.lock, rfl, ?_, ?_, ?_, ?_, ?_⟩
    · simp [h.queueHead]
    · simp [h.queueHead, update_apply, hdistinct, hd, h.current]
    · simp only [Shared.write, h.queueHead, update_apply, htail.symm, hd.symm, if_false, if_true]
      exact ⟨rfl, rfl, rfl, rfl⟩
    · simp [hdistinct, hd.symm, htail.symm]
    · intro e
      by_cases heq : e = new
      · simp [heq]
      · simp [heq, h.allocated]

theorem soloRun_settle (thread : Fin 2) {d : Addr} (h : Loaded count true d duration shared)
    (hexit : duration.exit = 0) (hentry : duration.entry = 1) :
    ∃ shared', soloRun (code (encore uint32Size id)) thread (replicate (if count = 0 then 5 else 4) .go) shared
        (.settle d none .start) = some (shared', .outside) ∧
      Loaded ((count + 1) % uint32Size) true d { duration with exit := 1, collectible := true } shared' ∧
      shared'.heap = shared.heap := by
  obtain ⟨heven, hzero, rfl, hlock, hhead, hfront, rfl, hblank, hdistinct, hallocated⟩ := h
  have hne := hdistinct
  simp only [nodup_cons, mem_cons, not_mem_nil, or_false, not_or] at hne
  obtain ⟨⟨hcurrent, -⟩, htail, -⟩ := hne
  refine ⟨{ shared with
    pending := (shared.pending + 1) % uint32Size
    durations := update shared.durations d { shared.durations d with exit := 1, collectible := true } }, ?_, ?_, rfl⟩
  · split
    · rename_i hfirst
      simp [code, encore, setCollectible, collect, settleRest, hexit, hentry, hlock, hfirst, replicate]
    · rename_i hmore
      simp [code, encore, setCollectible, collect, settleRest, hexit, hentry, hmore, replicate]
  · refine ⟨heven, hzero, rfl, hlock, hhead, ?_, by simp, ?_, hdistinct, hallocated⟩
    · simpa [update_of_ne (Ne.symm htail)] using hfront
    · simpa [update_of_ne hcurrent] using hblank

theorem soloRun_settle_first (thread : Fin 2) {d : Addr} (h : Loaded 0 false d duration shared)
    (hexit : duration.exit = 0) (hentry : duration.entry = 1) :
    ∃ shared', soloRun (code (encore uint32Size id)) thread (replicate 5 .go) shared
        (.settle d none .start) = some (shared', .collect none .loadPending) ∧
      Loaded 1 true d { duration with exit := 1, collectible := true } shared' ∧
      shared'.heap = shared.heap := by
  obtain ⟨heven, hzero, hpending, hlock, hhead, hfront, rfl, hblank, hdistinct, hallocated⟩ := h
  have hne := hdistinct
  simp only [nodup_cons, mem_cons, not_mem_nil, or_false, not_or] at hne
  obtain ⟨⟨hcurrent, -⟩, htail, -⟩ := hne
  refine ⟨{ shared with
    pending := 1
    lock := true
    durations := update shared.durations d { shared.durations d with exit := 1, collectible := true } }, ?_, ?_, rfl⟩
  · simp [code, encore, setCollectible, collect, hexit, hentry, hlock, hpending, replicate, uint32Size]
  · refine ⟨heven, hzero, rfl, rfl, hhead, ?_, by simp, ?_, hdistinct, hallocated⟩
    · simpa [update_of_ne (Ne.symm htail)] using hfront
    · simpa [update_of_ne hcurrent] using hblank

theorem soloRun_take (thread : Fin 2) {d : Addr} (h : Loaded 1 true d duration shared) :
    ∃ shared', soloRun (code (encore uint32Size id)) thread (replicate 2 .go) shared
        (.collect none .loadPending) = some (shared', .collect none .peekTail) ∧
      Loaded 0 true d duration shared' ∧ shared'.heap = shared.heap := by
  refine ⟨{ shared with pending := 0 }, ?_, ?_, rfl⟩
  · simp [code, encore, collect, h.pending, replicate, uint32Size]
  · exact { h with pending := rfl }

theorem soloRun_drain (thread : Fin 2) {d : Addr} {item : ItemAddr}
    (h : Loaded count true d duration shared) (hcollectible : duration.collectible = true)
    (hhead : duration.head = some item) (hstw : duration.stw = false) (hnext : duration.next = none)
    (haddress : shared.heap.address item = none) :
    ∃ shared', soloRun (code (encore uint32Size id)) thread (replicate 11 .go) shared
        (.collect none .peekTail) = some (shared', .collect none .peekTail) ∧
      Parked 0 count true shared' := by
  have hdistinct := h.distinct
  simp only [nodup_cons, mem_cons, not_mem_nil, or_false, not_or] at hdistinct
  obtain ⟨⟨hcurrent, hother⟩, htail, -⟩ := hdistinct
  refine ⟨{ shared with
    allocated := update shared.allocated shared.queueTail false
    queueTail := d }, ?_, ?_⟩
  · simp [code, encore, collect, collectOne, freeDuration, h.front, h.contents, hcollectible,
      hhead, hstw, haddress, replicate]
  · refine { h with next := ?_, distinct := hcurrent, allocated := fun e => ?_ }
    · simpa [h.contents] using hnext
    · by_cases heq : e = shared.queueTail
      · subst heq
        simp [Ne.symm hother, Ne.symm htail]
      · simp [heq, h.allocated]

theorem soloRun_exit (thread : Fin 2) (item : ItemAddr) (h : Parked 1 count lock shared) :
    ∃ choices shared' d duration, soloRun (code (encore uint32Size id)) thread choices shared
        (.inside item shared.currentD) = some (shared', .settle d none .start) ∧
      Loaded count lock d duration shared' ∧ Blank duration ∧ duration.entry = 1 ∧
      duration.head = some item ∧ shared'.heap = shared.heap := by
  obtain ⟨closed, hclose, hclosing, hheap⟩ := soloRun_close thread item h
  have hnew : closed.allocated (shared.currentD + closed.queueTail + 1) = false := by
    have hfresh : ∀ a b : Nat, ¬ (a + b + 1 = a ∨ a + b + 1 = b) := by omega
    rw [← Bool.not_eq_true, hclosing.allocated]
    exact hfresh _ _
  obtain ⟨pushed, hpush, hloaded, hheap'⟩ := soloRun_push thread hclosing hnew
  refine ⟨_, pushed, shared.currentD, _, (soloRun_append hclose _).trans hpush, hloaded, ?_, rfl, rfl,
    hheap'.trans hheap⟩
  exact ⟨h.blank.exit, h.blank.collectible, h.blank.stw, h.blank.next⟩

/-- Thread 0 drains the queue and has cleaned everything, thread 1 is outside. -/
structure Round (count : Nat) (config : Config (Fin 2) (Shared 2 Traced) Pc) : Prop where
  collector : config.threads 0 = .collect none .peekTail
  worker : config.threads 1 = .outside
  parked : Parked 0 count true config.shared

def wrapInit : Config (Fin 2) (Shared 2 Traced) Pc := init (memoryWith 0) noObjects

theorem exists_first_round : ∃ config, Reachable (code (encore uint32Size id)) wrapInit config ∧ Round 0 config := by
  have hparked : Parked 0 0 false wrapInit.shared := by
    refine ⟨rfl, rfl, rfl, rfl, rfl, rfl, ⟨rfl, rfl, rfl, rfl⟩, by decide, fun d => ?_⟩
    simp [wrapInit, init, or_comm]
  obtain ⟨entered, henter, hparked, haddress⟩ := soloRun_enter 0 0 hparked
  obtain ⟨choices, closed, d, duration, hexit, hloaded, hblank, hentry, hhead, hheap⟩ :=
    soloRun_exit 0 0 hparked
  obtain ⟨settled, hsettle, hloaded, hheap'⟩ := soloRun_settle_first 0 hloaded hblank.exit hentry
  obtain ⟨taken, htake, hloaded, hheap''⟩ := soloRun_take 0 hloaded
  have haddress' : taken.heap.address 0 = none := by rw [hheap'', hheap', hheap, haddress]
  obtain ⟨drained, hdrain, hparked⟩ :=
    soloRun_drain 0 hloaded rfl hhead hblank.stw hblank.next haddress'
  have hrun := (soloRun_append henter _).trans ((soloRun_append hexit _).trans
    ((soloRun_append hsettle _).trans ((soloRun_append htake _).trans hdrain)))
  refine ⟨_, Reachable.refl.solo rfl hrun, ?_⟩
  exact ⟨by simp, by simp [wrapInit, init], hparked⟩

/-- Thread 1 enters and leaves, and thread 0 cleans what it has closed: `pending` has grown by one. -/
theorem Round.next {config : Config (Fin 2) (Shared 2 Traced) Pc} (h : Round count config)
    (hreach : Reachable (code (encore uint32Size id)) wrapInit config) :
    ∃ next, Reachable (code (encore uint32Size id)) wrapInit next ∧ Round ((count + 1) % uint32Size) next := by
  obtain ⟨entered, henter, hparked, haddress⟩ := soloRun_enter 1 0 h.parked
  obtain ⟨choices, closed, d, duration, hexit, hloaded, hblank, hentry, hhead, hheap⟩ :=
    soloRun_exit 1 0 hparked
  obtain ⟨settled, hsettle, hloaded, hheap'⟩ := soloRun_settle 1 hloaded hblank.exit hentry
  have hleave := (soloRun_append henter _).trans ((soloRun_append hexit _).trans hsettle)
  have hreach := hreach.solo h.worker hleave
  have haddress' : settled.heap.address 0 = none := by rw [hheap', hheap, haddress]
  obtain ⟨drained, hdrain, hparked⟩ :=
    soloRun_drain 0 hloaded rfl hhead hblank.stw hblank.next haddress'
  refine ⟨_, hreach.solo (by simpa using h.collector) hdrain, ?_⟩
  exact ⟨by simp, by simp, hparked⟩

theorem exists_round (count : Nat) (hcount : count < uint32Size) :
    ∃ config, Reachable (code (encore uint32Size id)) wrapInit config ∧ Round count config := by
  induction count with
  | zero => exact exists_first_round
  | succ count ih =>
    obtain ⟨config, hreach, hround⟩ := ih (Nat.lt_of_succ_lt hcount)
    rw [← Nat.mod_eq_of_lt hcount]
    exact hround.next hreach

/-- After `2 ^ 32 - 1` rounds thread 0 finds the queue empty just before thread 1 closes its duration,
and looks at `pending` just after. -/
theorem encore_leftBehind :
    ∃ config, Reachable (code (encore uint32Size id)) wrapInit config ∧
      (∀ thread, (config.threads thread).exiting = false) ∧ Ready config.shared := by
  obtain ⟨config, hreach, hround⟩ := exists_round (uint32Size - 1) (by decide)
  obtain ⟨entered, henter, hparked, haddress⟩ := soloRun_enter 1 0 hround.parked
  have hreach := hreach.solo hround.worker henter
  have hlook : soloRun (code (encore uint32Size id)) 0 (replicate 2 .go) entered (.collect none .peekTail) =
      some (entered, .collect none .readPending) := by
    simp [code, collect, collectOne, hparked.next, replicate]
  have hreach := hreach.solo (by simpa using hround.collector) hlook
  obtain ⟨choices, closed, d, duration, hexit, hloaded, hblank, hentry, hhead, -⟩ :=
    soloRun_exit 1 0 hparked
  obtain ⟨settled, hsettle, hloaded, -⟩ := soloRun_settle 1 hloaded hblank.exit hentry
  have hreach := hreach.solo (by simp) ((soloRun_append hexit _).trans hsettle)
  have hpending : settled.pending = 0 := hloaded.pending
  have hgive : soloRun (code (encore uint32Size id)) 0 (replicate 2 .go) settled (.collect none .readPending) =
      some ({ settled with lock := false }, .outside) := by
    simp [code, collect, settleRest, hpending, hloaded.lock, replicate]
  have hset : (settled.durations d).collectible = true := by rw [hloaded.contents]
  refine ⟨_, hreach.solo (by simp) hgive, Fin.forall_fin_two.mpr ⟨?_, ?_⟩, d, hloaded.front, hset⟩
  · simp [Pc.exiting]
  · simp [Pc.exiting]

end Lfmr.DurationWindow
