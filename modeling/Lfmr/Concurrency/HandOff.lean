import Mathlib.Logic.Function.Basic
import Mathlib.Tactic.Common

/-!
# Handing work over

A thread that has made some work ready adds one to a counter and tries to take a lock. If it is not the only
one to have added, or the lock is taken, it leaves the work to the others. The thread with the lock takes one
off the counter, works until nothing is ready, and gives the lock back only if the counter is zero at that
moment.

`HandedOver` is why no work is forgotten: whoever leaves has seen somebody who is going to look again.
-/

namespace Lfmr.Concurrency

open Function

inductive Duty
  | away
  | adding
  | locking
  | holding
  | due
  | working
  deriving DecidableEq

def Duty.HasLock : Duty → Prop
  | .holding | .due | .working => True
  | _ => False

def Duty.WillLook : Duty → Prop
  | .adding | .due | .working => True
  | _ => False

structure Work where
  pending : Nat
  lock : Bool
  ready : Prop

/-- What one thread can do. Work becomes ready only together with the duty to add to the counter. -/
inductive Duty.Step : Work → Duty → Work → Duty → Prop
  | stay {work duty ready} (hready : ready → work.ready) :
      Step work duty { work with ready } duty
  | announce {work ready} : Step work .away { work with ready } .adding
  | addFirst {work} (hpending : work.pending = 0) :
      Step work .adding { work with pending := work.pending + 1 } .locking
  | addMore {work} (hpending : work.pending ≠ 0) :
      Step work .adding { work with pending := work.pending + 1 } .away
  | locked {work} (hlock : work.lock = true) : Step work .locking work .away
  | lock {work} (hlock : work.lock = false) :
      Step work .locking { work with lock := true } .holding
  | resume {work} (hpending : work.pending ≠ 0) : Step work .holding work .due
  | unlock {work} (hpending : work.pending = 0) :
      Step work .holding { work with lock := false } .away
  | take {work} : Step work .due { work with pending := work.pending - 1 } .working
  | work {work ready} : Step work .working { work with ready } .working
  | finish {work} (hready : ¬ work.ready) : Step work .working work .holding

variable {Tid : Type}

structure HandedOver (work : Work) (duty : Tid → Duty) : Prop where
  locked : work.lock = true ↔ ∃ thread, (duty thread).HasLock
  alone : ∀ thread other, (duty thread).HasLock → (duty other).HasLock → thread = other
  served : work.pending ≠ 0 → work.lock = true ∨ ∃ thread, duty thread = .locking
  announced : work.ready → work.pending ≠ 0 ∨ ∃ thread, (duty thread).WillLook
  due : ∀ thread, duty thread = .due → work.pending ≠ 0

theorem HandedOver.not_ready {work : Work} {duty : Tid → Duty} (h : HandedOver work duty)
    (haway : ∀ thread, duty thread = .away) : ¬ work.ready := by
  intro hready
  have hpending : work.pending ≠ 0 := by
    rcases h.announced hready with hpending | ⟨thread, hlook⟩
    · exact hpending
    · rw [haway thread] at hlook
      exact hlook.elim
  rcases h.served hpending with hlock | ⟨thread, hlocking⟩
  · obtain ⟨thread, hhas⟩ := h.locked.mp hlock
    rw [haway thread] at hhas
    exact hhas
  · simp [haway thread] at hlocking

variable [DecidableEq Tid] {work work' : Work} {duty : Tid → Duty} {thread : Tid} {after : Duty}

theorem exists_update {P : Duty → Prop} (h : ∃ other, P (duty other))
    (hself : P (duty thread) → P after) : ∃ other, P (update duty thread after other) := by
  obtain ⟨other, hother⟩ := h
  by_cases heq : other = thread
  · subst heq
    exact ⟨other, by simpa using hself hother⟩
  · exact ⟨other, by simpa [heq] using hother⟩

theorem hasLock_update (hsame : after.HasLock ↔ (duty thread).HasLock) (other : Tid) :
    (update duty thread after other).HasLock ↔ (duty other).HasLock := by
  by_cases heq : other = thread
  · subst heq
    simpa using hsame
  · rw [update_of_ne heq]

theorem HandedOver.keep (h : HandedOver work duty) (hlock : work'.lock = work.lock)
    (hsame : after.HasLock ↔ (duty thread).HasLock)
    (hserved : work'.pending ≠ 0 → work'.lock = true ∨ ∃ other, update duty thread after other = .locking)
    (hannounced : work'.ready → work'.pending ≠ 0 ∨ ∃ other, (update duty thread after other).WillLook)
    (hdue : after = .due → work'.pending ≠ 0)
    (hmore : work.pending ≤ work'.pending ∨ (duty thread).HasLock) :
    HandedOver work' (update duty thread after) := by
  refine ⟨?_, ?_, hserved, hannounced, ?_⟩
  · simp only [hasLock_update hsame, hlock]
    exact h.locked
  · simp only [hasLock_update hsame]
    exact h.alone
  · intro other hother
    by_cases heq : other = thread
    · subst heq
      exact hdue (by simpa using hother)
    · rw [update_of_ne heq] at hother
      have hpending := h.due other hother
      rcases hmore with hle | hhas
      · omega
      · exact absurd (h.alone other thread (by rw [hother]; trivial) hhas) heq

theorem HandedOver.step (h : HandedOver work duty) (hstep : Duty.Step work (duty thread) work' after) :
    HandedOver work' (update duty thread after) := by
  have hserved := h.served
  have hannounced := h.announced
  generalize hbefore : duty thread = before at hstep
  -- Threads that try the lock or are going to look again are not lost when this one was none of them.
  have hlocking : before ≠ .locking → (∃ other, duty other = .locking) →
      ∃ other, update duty thread after other = .locking :=
    fun hne hsome => exists_update (P := (· = .locking)) hsome fun hself =>
      absurd (hbefore.symm.trans hself) hne
  have hlook : (before.WillLook → after.WillLook) → (∃ other, (duty other).WillLook) →
      ∃ other, (update duty thread after other).WillLook :=
    fun himp hsome => exists_update hsome (by rwa [hbefore])
  have hself : after.WillLook → ∃ other, (update duty thread after other).WillLook :=
    fun hafter => ⟨thread, by simpa using hafter⟩
  cases hstep with
  | stay hready =>
    rw [← hbefore, update_eq_self]
    exact { h with announced := fun hnow => h.announced (hready hnow) }
  | announce =>
    refine h.keep rfl (by rw [hbefore]; exact Iff.rfl) (fun hpending => ?_) (fun _ => ?_) (by simp)
      (Or.inl (Nat.le_refl _))
    · exact (hserved hpending).imp id (hlocking (by simp))
    · exact Or.inr (hself trivial)
  | addFirst hpending =>
    refine h.keep rfl (by rw [hbefore]; exact Iff.rfl) (fun _ => ?_) (fun _ => Or.inl (by simp))
      (by simp) (Or.inl (by simp))
    exact Or.inr ⟨thread, by simp⟩
  | addMore hpending =>
    refine h.keep rfl (by rw [hbefore]; exact Iff.rfl) (fun _ => ?_) (fun _ => Or.inl (by simp))
      (by simp) (Or.inl (by simp))
    exact (hserved hpending).imp id (hlocking (by simp))
  | locked hlock =>
    refine h.keep rfl (by rw [hbefore]; exact Iff.rfl) (fun _ => Or.inl hlock) (fun hready => ?_)
      (by simp) (Or.inl (Nat.le_refl _))
    exact (hannounced hready).imp id (hlook False.elim)
  | lock hlock =>
    have hnone : ∀ other, ¬ (duty other).HasLock := by
      intro other hother
      rw [h.locked.mpr ⟨other, hother⟩] at hlock
      simp at hlock
    have honly : ∀ other, (update duty thread .holding other).HasLock → other = thread := by
      intro other hother
      by_contra hne
      rw [update_of_ne hne] at hother
      exact hnone other hother
    refine ⟨⟨fun _ => ⟨thread, by simp [Duty.HasLock]⟩, fun _ => rfl⟩, ?_, fun _ => Or.inl rfl,
      fun hready => (hannounced hready).imp id (hlook False.elim), ?_⟩
    · intro first second hfirst hsecond
      rw [honly first hfirst, honly second hsecond]
    · intro other hdue
      have heq := honly other (by rw [hdue]; trivial)
      subst heq
      simp at hdue
  | resume hpending =>
    exact h.keep rfl (by rw [hbefore]; exact Iff.rfl)
      (fun _ => Or.inl (h.locked.mpr ⟨thread, by rw [hbefore]; trivial⟩))
      (fun _ => Or.inl hpending) (fun _ => hpending) (Or.inl (Nat.le_refl _))
  | unlock hpending =>
    have hnone : ∀ other, ¬ (update duty thread .away other).HasLock := by
      intro other hother
      by_cases heq : other = thread
      · subst heq
        simp [Duty.HasLock] at hother
      · rw [update_of_ne heq] at hother
        exact heq (h.alone other thread hother (by rw [hbefore]; trivial))
    refine ⟨⟨by simp, fun ⟨other, hother⟩ => absurd hother (hnone other)⟩,
      fun other _ hother => absurd hother (hnone other), fun hne => absurd hpending hne,
      fun hready => (hannounced hready).imp id (hlook False.elim), ?_⟩
    intro other hdue
    exact absurd (by rw [hdue]; trivial) (hnone other)
  | take =>
    exact h.keep rfl (by rw [hbefore]; exact Iff.rfl)
      (fun _ => Or.inl (h.locked.mpr ⟨thread, by rw [hbefore]; trivial⟩))
      (fun _ => Or.inr (hself trivial)) (by simp) (Or.inr (by rw [hbefore]; trivial))
  | work =>
    exact h.keep rfl (by rw [hbefore])
      (fun _ => Or.inl (h.locked.mpr ⟨thread, by rw [hbefore]; trivial⟩))
      (fun _ => Or.inr (hself trivial)) (by simp) (Or.inl (Nat.le_refl _))
  | finish hready =>
    exact h.keep rfl (by rw [hbefore]; exact Iff.rfl)
      (fun _ => Or.inl (h.locked.mpr ⟨thread, by rw [hbefore]; trivial⟩))
      (fun hnow => absurd hnow hready) (by simp) (Or.inl (Nat.le_refl _))

end Lfmr.Concurrency
