import Mathlib.Data.Set.Insert
import Mathlib.Logic.Function.Basic
import Mathlib.Tactic.Common

/-!
# Linearizability

The history of an object is the list of its calls and returns. It is linearizable if an atomic object
has it: one that takes, at some instant between a call and its return, the whole effect of the call in
one piece.

The instant of a call is often known only in hindsight. A call that does not change the state may
therefore note, at any instant, the result it would have there, and return any of the results it has
noted; such a run is one of the atomic object as well.
-/

namespace Lfmr.Concurrency

open Function

variable {Tid Op State Result : Type}

inductive Event (Tid Op Result : Type)
  | call (thread : Tid) (op : Op)
  | ret (thread : Tid) (result : Result)
  deriving DecidableEq

inductive Phase (Op Result : Type)
  | idle
  | pending (op : Op)
  | done (result : Result)

section Runs

variable [DecidableEq Tid] (spec : Op → State → State × Result) (init : State)

inductive AtomicRun : List (Event Tid Op Result) → State → (Tid → Phase Op Result) → Prop
  | nil : AtomicRun [] init fun _ => .idle
  | call {history state phase} (thread : Tid) (op : Op) :
      AtomicRun history state phase → phase thread = .idle →
      AtomicRun (history ++ [.call thread op]) state (Function.update phase thread (.pending op))
  | effect {history state phase} (thread : Tid) (op : Op) :
      AtomicRun history state phase → phase thread = .pending op →
      AtomicRun history (spec op state).1
        (Function.update phase thread (.done (spec op state).2))
  | ret {history state phase} (thread : Tid) (result : Result) :
      AtomicRun history state phase → phase thread = .done result →
      AtomicRun (history ++ [.ret thread result]) state (Function.update phase thread .idle)

/-- The history is one of the atomic object: each returned call has an instant between its call and
its return, and the results are those of the calls made one after another at these instants. -/
def Linearizable (history : List (Event Tid Op Result)) : Prop :=
  ∃ state phase, AtomicRun spec init history state phase

def Settled (phase : Tid → Phase Op Result) (noted : Tid → Set Result) (thread : Tid)
    (result : Result) : Prop :=
  phase thread = .done result ∨ ∃ op, phase thread = .pending op ∧ result ∈ noted thread

/-- The runs in which a pending call may note what it would return without changing the state. -/
inductive NotingRun :
    List (Event Tid Op Result) → State → (Tid → Phase Op Result) → (Tid → Set Result) → Prop
  | nil : NotingRun [] init (fun _ => .idle) fun _ => ∅
  | call {history state phase noted} (thread : Tid) (op : Op) :
      NotingRun history state phase noted → phase thread = .idle →
      NotingRun (history ++ [.call thread op]) state
        (Function.update phase thread (.pending op)) (Function.update noted thread ∅)
  | note {history state phase noted} (thread : Tid) (op : Op) (result : Result) :
      NotingRun history state phase noted → phase thread = .pending op →
      spec op state = (state, result) →
      NotingRun history state phase
        (Function.update noted thread (insert result (noted thread)))
  | effect {history state phase noted} (thread : Tid) (op : Op) :
      NotingRun history state phase noted → phase thread = .pending op →
      NotingRun history (spec op state).1
        (Function.update phase thread (.done (spec op state).2)) noted
  | ret {history state phase noted} (thread : Tid) (result : Result) :
      NotingRun history state phase noted → Settled phase noted thread result →
      NotingRun (history ++ [.ret thread result]) state (Function.update phase thread .idle) noted

end Runs

/-- The phases in hindsight: some of the pending calls take one of the results they have noted. -/
def Hindsight (phase : Tid → Phase Op Result) (noted : Tid → Set Result)
    (chosen : Tid → Phase Op Result) : Prop :=
  ∀ thread, chosen thread = phase thread ∨
    ∃ result, Settled phase noted thread result ∧ chosen thread = .done result

variable {phase chosen : Tid → Phase Op Result} {noted : Tid → Set Result}

theorem Hindsight.refl : Hindsight phase noted phase := fun _ => .inl rfl

section

variable [DecidableEq Tid] {thread : Tid}

theorem Hindsight.of_update {phase' : Tid → Phase Op Result} {noted' : Tid → Set Result}
    (hchosen : Hindsight phase' noted' chosen) {own : Phase Op Result}
    (hphase : ∀ other, other ≠ thread → phase' other = phase other)
    (hnoted : ∀ other, other ≠ thread → noted' other = noted other)
    (hown : own = phase thread ∨ ∃ result, Settled phase noted thread result ∧ own = .done result) :
    Hindsight phase noted (update chosen thread own) := by
  intro other
  by_cases heq : other = thread
  · subst heq
    rw [update_self]
    exact hown
  · rw [update_of_ne heq]
    simpa only [Settled, hphase other heq, hnoted other heq] using hchosen other

variable {spec : Op → State → State × Result} {init state : State}
  {history : List (Event Tid Op Result)}

/-- By induction on the run: the effect of a call that notes a result is put at the instant of the
note if that result is the one chosen for it. -/
theorem NotingRun.atomicRun (hrun : NotingRun spec init history state phase noted)
    (hchosen : Hindsight phase noted chosen) : AtomicRun spec init history state chosen := by
  induction hrun generalizing chosen with
  | nil =>
    have hidle : chosen = fun _ => .idle := by
      funext thread
      rcases hchosen thread with hsame | ⟨result, hsettled, _⟩
      · exact hsame
      · simp [Settled] at hsettled
    rw [hidle]
    exact .nil
  | @call history state phase noted thread op _ hidle ih =>
    have hpending : chosen thread = .pending op := by
      rcases hchosen thread with hsame | ⟨result, hsettled, _⟩
      · rw [hsame, update_self]
      · simp [Settled] at hsettled
    have hbefore := ih (hchosen.of_update (fun _ hne => update_of_ne hne _ _)
      (fun _ hne => update_of_ne hne _ _) (.inl rfl))
    have hafter := hbefore.call thread op (by rw [update_self, hidle])
    rwa [update_idem, ← hpending, update_eq_self] at hafter
  | @note history state phase noted thread op result _ hpending hspec ih =>
    by_cases hnow : chosen thread = .done result
    · have hbefore := ih (hchosen.of_update (fun _ _ => rfl) (fun _ hne => update_of_ne hne _ _) (.inl rfl))
      have hafter := hbefore.effect thread op (by rw [update_self, hpending])
      rwa [hspec, update_idem, ← hnow, update_eq_self] at hafter
    · apply ih
      intro other
      rcases hchosen other with hsame | ⟨earlier, hsettled, hdone⟩
      · exact .inl hsame
      · refine .inr ⟨earlier, ?_, hdone⟩
        by_cases heq : other = thread
        · subst heq
          rcases hsettled with hdone' | ⟨op', hop, hmem⟩
          · exact .inl hdone'
          · rw [update_self] at hmem
            refine .inr ⟨op', hop, hmem.resolve_left ?_⟩
            rintro rfl
            exact hnow hdone
        · simpa only [Settled, update_of_ne heq] using hsettled
  | @effect history state phase noted thread op _ hpending ih =>
    have hdone : chosen thread = .done (spec op state).2 := by
      rcases hchosen thread with hsame | ⟨result, hsettled, hresult⟩
      · rw [hsame, update_self]
      · simp only [Settled, update_self, Phase.done.injEq, reduceCtorEq, false_and, exists_false, or_false] at hsettled
        rw [hresult, hsettled]
    have hbefore := ih (hchosen.of_update (fun _ hne => update_of_ne hne _ _) (fun _ _ => rfl) (.inl rfl))
    have hafter := hbefore.effect thread op (by rw [update_self, hpending])
    rwa [update_idem, ← hdone, update_eq_self] at hafter
  | @ret history state phase noted thread result _ hsettled ih =>
    have hidle : chosen thread = .idle := by
      rcases hchosen thread with hsame | ⟨other, hother, _⟩
      · rw [hsame, update_self]
      · simp [Settled] at hother
    have hbefore := ih (hchosen.of_update (fun _ hne => update_of_ne hne _ _)
      (fun _ _ => rfl) (.inr ⟨result, hsettled, rfl⟩))
    have hafter := hbefore.ret thread result (update_self _ _ _)
    rwa [update_idem, ← hidle, update_eq_self] at hafter

theorem NotingRun.linearizable (hrun : NotingRun spec init history state phase noted) :
    Linearizable spec init history :=
  ⟨state, phase, hrun.atomicRun .refl⟩

end

end Lfmr.Concurrency
