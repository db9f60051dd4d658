import Lfmr.Ebr

/-!
# What the copied record costs `ebr.c`

Nothing `critical_enter` or `free_node_later` writes reaches the record the other threads scan: in every reachable
state every shared record still has its flag down, its three limbo lists empty and its count at zero, and no node
was ever freed. That a thread inside a critical section is visible to `update_epoch` and that a retired node is
kept until it is freed are read off from it.
-/

namespace Lfmr.Ebr

open Lfmr.Concurrency

variable {n : Nat}

structure PerThread.Untouched (record : PerThread) : Prop where
  flagDown : record.inCritical = 0
  noLimbo : ∀ epoch, record.limboList epoch = none
  noCount : record.retireCount = 0

/-- The points of `critical_enter` at which its copy is still read, with what is known of the loop
over the copied limbo list: it found nothing. -/
def CopyUntouched (t : PerThread) : Pc → Prop
  | .rest | .retire _ => True
  | .updateTrylock caller | .updateRead caller | .updateFlag caller _ _ | .updateEpoch caller _ _
  | .updateWrite caller _ | .updateUnlock caller =>
      caller = .criticalEnter → ∀ epoch, t.limboList epoch = none
  | .retry => ∀ epoch, t.limboList epoch = none
  | .callbacks _ num => (∀ epoch, t.limboList epoch = none) ∧ num = 0
  | .callbackFree _ _ _ _ => False
  | .callbacksCount _ num => num = 0

structure SharedUntouched (shared : Shared n) : Prop where
  records : ∀ thread, (shared.threads thread).Untouched
  noFree : shared.freed = []

variable {shared shared' : Shared n} {priv : Priv}

theorem SharedUntouched.setThread (hshared : SharedUntouched shared) (thread : Fin n) {write : PerThread → PerThread}
    (hwrite : (write (shared.threads thread)).Untouched) :
    SharedUntouched (shared.setThread thread write) := by
  refine ⟨fun other => ?_, hshared.noFree⟩
  by_cases heq : other = thread
  · subst heq
    simpa [Shared.setThread] using hwrite
  · simpa [Shared.setThread, heq] using hshared.records other

theorem copyUntouched_returnTo {t : PerThread} {caller : Caller}
    (h : caller = .criticalEnter → ∀ epoch, t.limboList epoch = none) :
    CopyUntouched t (returnTo caller) := by
  cases caller with
  | client => trivial
  | criticalEnter => exact h rfl

theorem criticalEnterRetry_untouched (shared : Shared n) (hcopy : ∀ epoch, priv.t.limboList epoch = none) :
    (criticalEnterRetry shared priv).1 = shared ∧
      CopyUntouched (criticalEnterRetry shared priv).2.t (criticalEnterRetry shared priv).2.pc := by
  unfold criticalEnterRetry
  dsimp only
  split
  · exact ⟨rfl, hcopy, rfl⟩
  · split
    · exact ⟨rfl, fun _ => hcopy⟩
    · exact ⟨rfl, trivial⟩

section

variable (hshared : SharedUntouched shared)
include hshared

variable {priv' : Priv}

theorem processCallbacksEpoch_untouched {thread : Fin n} {pc : Pc} (hcopy : CopyUntouched priv.t pc)
    (hcode : processCallbacksEpoch thread shared priv pc = some (shared', priv')) :
    SharedUntouched shared' ∧ CopyUntouched priv'.t priv'.pc := by
  cases pc with
  | callbacks epoch num =>
    obtain ⟨hnone, rfl⟩ := hcopy
    simp only [processCallbacksEpoch, hnone, Option.some.injEq, Prod.mk.injEq] at hcode
    obtain ⟨rfl, rfl⟩ := hcode
    exact ⟨hshared, rfl⟩
  | callbackFree epoch num node next => exact hcopy.elim
  | callbacksCount epoch num =>
    obtain rfl : num = 0 := hcopy
    cases hcode
    have hrecord := hshared.records thread
    refine ⟨hshared.setThread thread ⟨hrecord.flagDown, hrecord.noLimbo, ?_⟩, trivial⟩
    simp [hrecord.noCount]
  | _ => simp [processCallbacksEpoch] at hcode

theorem updateEpoch_untouched {pc : Pc} (hcopy : CopyUntouched priv.t pc)
    (hcode : updateEpoch shared priv pc = some (shared', priv')) :
    SharedUntouched shared' ∧ CopyUntouched priv'.t priv'.pc := by
  cases pc with
  | updateTrylock caller =>
    simp only [updateEpoch] at hcode
    split at hcode
    · cases hcode
      exact ⟨⟨hshared.records, hshared.noFree⟩, hcopy⟩
    · cases hcode
      exact ⟨hshared, copyUntouched_returnTo hcopy⟩
  | updateRead caller =>
    cases hcode
    exact ⟨hshared, hcopy⟩
  | updateFlag caller currEpoch i =>
    simp only [updateEpoch] at hcode
    split at hcode
    · -- The flag of every record is down, so the scan passes over each thread at once.
      rename_i hlt
      simp only [(hshared.records ⟨i, hlt⟩).flagDown, Int.zero_ne_one, ↓reduceIte, Option.some.injEq,
        Prod.mk.injEq] at hcode
      obtain ⟨rfl, rfl⟩ := hcode
      exact ⟨hshared, hcopy⟩
    · cases hcode
      exact ⟨hshared, hcopy⟩
  | updateEpoch caller currEpoch i =>
    simp only [updateEpoch] at hcode
    split at hcode
    · split at hcode
      all_goals
        cases hcode
        exact ⟨hshared, hcopy⟩
    · simp at hcode
  | updateWrite caller currEpoch =>
    cases hcode
    exact ⟨⟨hshared.records, hshared.noFree⟩, hcopy⟩
  | updateUnlock caller =>
    simp only [updateEpoch] at hcode
    split at hcode
    · cases hcode
      exact ⟨⟨hshared.records, hshared.noFree⟩, copyUntouched_returnTo hcopy⟩
    · simp at hcode
  | _ => simp [updateEpoch] at hcode

theorem call_untouched {thread : Fin n} {choice : Choice} (hrest : priv.pc = .rest)
    (hcode : call thread shared priv choice = some (shared', priv')) :
    SharedUntouched shared' ∧ CopyUntouched priv'.t priv'.pc := by
  cases choice with
  | go => simp [call] at hcode
  | criticalEnter =>
    cases hcode
    exact ⟨hshared, (hshared.records thread).noLimbo⟩
  | criticalExit =>
    cases hcode
    have hrecord := hshared.records thread
    exact ⟨hshared.setThread thread ⟨rfl, hrecord.noLimbo, hrecord.noCount⟩, by simp [hrest, CopyUntouched]⟩
  | freeNodeLater q =>
    cases hcode
    exact ⟨⟨hshared.records, hshared.noFree⟩, trivial⟩
  | updateEpoch =>
    cases hcode
    refine ⟨hshared, ?_⟩
    intro hcaller
    cases hcaller
  | mrReinit =>
    cases hcode
    refine ⟨⟨fun i => ⟨rfl, (hshared.records i).noLimbo, rfl⟩, hshared.noFree⟩, ?_⟩
    simp [hrest, CopyUntouched]

theorem code_untouched {thread : Fin n} {choice : Choice} (hcopy : CopyUntouched priv.t priv.pc)
    (hcode : code thread choice shared priv = some (shared', priv')) :
    SharedUntouched shared' ∧ CopyUntouched priv'.t priv'.pc := by
  unfold code at hcode
  split at hcode
  case h_1 hpc => exact call_untouched hshared hpc hcode
  case h_2 hpc =>
    rw [hpc] at hcopy
    obtain ⟨hsame, hkeep⟩ := criticalEnterRetry_untouched shared hcopy
    simp only [Option.some.injEq] at hcode
    rw [hcode] at hsame hkeep
    obtain rfl : shared' = shared := hsame
    exact ⟨hshared, hkeep⟩
  case h_3 =>
    cases hcode
    exact ⟨⟨hshared.records, hshared.noFree⟩, trivial⟩
  case h_4 hpc | h_5 hpc | h_6 hpc =>
    exact processCallbacksEpoch_untouched hshared (hpc ▸ hcopy) hcode
  case h_7 => exact updateEpoch_untouched hshared hcopy hcode
  case h_8 => simp at hcode

end

variable {mrNext : NodeAddr → Option NodeAddr} {config : Config (Fin n) (Shared n) Priv}

/-- **The shared records never change.** -/
theorem sharedUntouched_of_reachable (hreach : Reachable code (mrInit mrNext) config) :
    SharedUntouched config.shared := by
  have hrg : RelyGuarantee (code (n := n)) (fun _ _ _ => True)
      (fun shared (_ : Unit) => SharedUntouched shared) (fun _ _ _ priv => CopyUntouched priv.t priv.pc)
      (fun _ _ _ => True) := by
    refine ⟨?_, fun _ _ _ _ _ _ hcopy _ => hcopy⟩
    intro config _ thread choice shared priv hshared hcopy _ hcode
    obtain ⟨hshared', hcopy'⟩ := code_untouched hshared (hcopy thread) hcode
    exact ⟨(), hshared', hcopy', fun _ _ => trivial⟩
  obtain ⟨-, hshared, -⟩ := hrg.invariant hreach () ⟨fun _ => ⟨rfl, fun _ => rfl, rfl⟩, rfl⟩ fun _ => trivial
  exact hshared

/-- Thread `i` is visible to `update_epoch`: while it is between the return of `critical_enter` and
its next call of `critical_exit`, the record that is scanned has its flag up and carries an epoch
that the thread read from `global_epoch` in that `critical_enter`. -/
def Published (config : Config (Fin n) (Shared n) Priv) (i : Fin n) : Prop :=
  (config.threads i).inside = true →
    (config.shared.threads i).inCritical = 1 ∧
      (config.shared.threads i).epoch ∈ (config.threads i).epochsRead

/-- No critical section is ever published: the property holds of a reachable state only while no
thread is inside one. -/
theorem published_iff_outside
    (hreach : Reachable code (mrInit mrNext) config) :
    (∀ i, Published config i) ↔ ∀ i, (config.threads i).inside = false := by
  have hshared := sharedUntouched_of_reachable hreach
  constructor
  · intro hpublished i
    by_contra hinside
    obtain ⟨hflag, -⟩ := hpublished i (by simpa using hinside)
    rw [(hshared.records i).flagDown] at hflag
    exact Int.zero_ne_one hflag
  · intro houtside i hinside
    simp [houtside i] at hinside

def enterSchedule : List (Fin 1 × Choice) :=
  [(0, .criticalEnter), (0, .go), (0, .go), (0, .go)]

theorem not_published_after_enter :
    ∃ config, Reachable (code (n := 1)) (mrInit fun _ => none) config ∧ ¬ Published config 0 := by
  refine ⟨_, ReachableVia.refl.run enterSchedule rfl, ?_⟩
  intro hpublished
  exact absurd (hpublished rfl).1 (by decide)

theorem published_iff_outside_enter :
    ∃ config, Reachable (code (n := 1)) (mrInit fun _ => none) config ∧ (config.threads 0).inside = true ∧
      ((∀ i, Published config i) ↔ ∀ i, (config.threads i).inside = false) := by
  refine ⟨_, ReachableVia.refl.run enterSchedule rfl, rfl, ?_⟩
  exact published_iff_outside (ReachableVia.refl.run enterSchedule rfl)

def OnLimbo (shared : Shared n) (thread : Fin n) (epoch : Epoch) (q : NodeAddr) : Prop :=
  ∃ nodes, Linked shared.mrNext ((shared.threads thread).limboList epoch) nodes ∧ q ∈ nodes

/-- Every retired node is on exactly one limbo list of the thread that retired it or was freed
exactly once, and each thread's count is the total length of its three lists. -/
structure Conserved (shared : Shared n) : Prop where
  kept : ∀ thread q, (thread, q) ∈ shared.retired →
    (∃! epoch, OnLimbo shared thread epoch q) ∨ shared.freed.count q = 1
  counted : ∀ thread, ∃ nodes : Epoch → List NodeAddr,
    (∀ epoch, Linked shared.mrNext ((shared.threads thread).limboList epoch) (nodes epoch)) ∧
      (shared.threads thread).retireCount.toNat = ((nodes 0).length + (nodes 1).length) +
        (nodes 2).length

theorem not_onLimbo (hshared : SharedUntouched shared) (thread : Fin n)
    (epoch : Epoch) (q : NodeAddr) : ¬ OnLimbo shared thread epoch q := by
  rintro ⟨nodes, hlinked, hmem⟩
  rw [(hshared.records thread).noLimbo, linked_none_iff] at hlinked
  simp [hlinked] at hmem

/-- A retired node is lost at once: it is on no list and is never freed. The books balance after a
run only if nothing was retired in it. -/
theorem conserved_iff_nothing_retired
    (hreach : Reachable code (mrInit mrNext) config) :
    Conserved config.shared ↔ config.shared.retired = [] := by
  have hshared := sharedUntouched_of_reachable hreach
  constructor
  · intro hconserved
    rw [List.eq_nil_iff_forall_not_mem]
    rintro ⟨thread, q⟩ hmem
    rcases hconserved.kept thread q hmem with ⟨epoch, hlimbo, -⟩ | hfreed
    · exact not_onLimbo hshared thread epoch q hlimbo
    · simp [hshared.noFree] at hfreed
  · intro hnone
    refine ⟨fun thread q hmem => ?_, fun thread => ⟨fun _ => [], fun epoch => ?_, ?_⟩⟩
    · simp [hnone] at hmem
    · simp [(hshared.records thread).noLimbo epoch]
    · simp [(hshared.records thread).noCount]

def retireSchedule : List (Fin 1 × Choice) :=
  enterSchedule ++ [(0, .freeNodeLater 7), (0, .go), (0, .criticalExit)]

theorem not_conserved_after_retire :
    ∃ config, Reachable (code (n := 1)) (mrInit fun _ => none) config ∧
      config.shared.retired = [(0, 7)] ∧ ¬ Conserved config.shared := by
  refine ⟨_, ReachableVia.refl.run retireSchedule rfl, rfl, fun hconserved => ?_⟩
  rcases hconserved.kept 0 7 List.mem_cons_self with ⟨epoch, ⟨nodes, hlinked, hmem⟩, -⟩ | hfreed
  · have hempty : nodes = [] := linked_none_iff.mp hlinked
    simp [hempty] at hmem
  · exact absurd hfreed (by decide)

theorem conserved_iff_nothing_retired_node :
    ∃ config, Reachable (code (n := 1)) (mrInit fun _ => none) config ∧ config.shared.retired = [(0, 7)] ∧
      (Conserved config.shared ↔ config.shared.retired = []) := by
  refine ⟨_, ReachableVia.refl.run retireSchedule rfl, rfl, ?_⟩
  exact conserved_iff_nothing_retired (ReachableVia.refl.run retireSchedule rfl)

end Lfmr.Ebr
