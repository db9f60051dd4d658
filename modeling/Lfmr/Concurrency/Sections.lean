import Mathlib.Logic.Function.Basic
import Mathlib.Tactic.Common

/-!
# Critical sections

Which threads are inside a critical section, and how often each of them has entered one. A machine
carries this record along without reading it; a snapshot of it tells later which sections were open
at some earlier access.
-/

namespace Lfmr.Concurrency

/-- The sections of all threads. The section a thread is in has the number of its entries so far. -/
structure Sections (Tid : Type) where
  inside : Tid → Bool
  entered : Tid → Nat

namespace Sections

variable {Tid : Type}

def fresh : Sections Tid := { inside := fun _ => false, entered := fun _ => 0 }

def snapshot (sections : Sections Tid) (thread : Tid) : Option Nat :=
  if sections.inside thread then some (sections.entered thread) else none

def StillOpen (sections : Sections Tid) (thread : Tid) (k : Nat) : Prop :=
  sections.inside thread = true ∧ sections.entered thread = k

variable {sections : Sections Tid} {thread reader : Tid} {k : Nat}

theorem snapshot_eq_some : sections.snapshot thread = some k ↔ sections.StillOpen thread k := by
  unfold snapshot StillOpen
  split <;> simp_all

variable [DecidableEq Tid]

def enter (sections : Sections Tid) (thread : Tid) : Sections Tid :=
  { inside := Function.update sections.inside thread true
    entered := Function.update sections.entered thread (sections.entered thread + 1) }

def exit (sections : Sections Tid) (thread : Tid) : Sections Tid :=
  { sections with inside := Function.update sections.inside thread false }

@[simp]
theorem enter_inside_self : (sections.enter thread).inside thread = true := by simp [enter]

@[simp]
theorem enter_inside_of_ne (hne : reader ≠ thread) :
    (sections.enter thread).inside reader = sections.inside reader := by
  simp [enter, hne]

@[simp]
theorem exit_inside_self : (sections.exit thread).inside thread = false := by simp [exit]

@[simp]
theorem exit_inside_of_ne (hne : reader ≠ thread) : (sections.exit thread).inside reader = sections.inside reader := by
  simp [exit, hne]

theorem entered_le_enter (sections : Sections Tid) (thread reader : Tid) :
    sections.entered reader ≤ (sections.enter thread).entered reader := by
  by_cases heq : reader = thread
  · simp [enter, heq]
  · simp [enter, heq]

theorem StillOpen.of_enter (hopen : (sections.enter thread).StillOpen reader k)
    (hold : k ≤ sections.entered reader) : sections.StillOpen reader k ∧ reader ≠ thread := by
  have hne : reader ≠ thread := by
    rintro rfl
    have hk := hopen.2
    simp only [enter, Function.update_self] at hk
    omega
  refine ⟨?_, hne⟩
  simpa [StillOpen, enter, hne] using hopen

theorem StillOpen.of_exit (hopen : (sections.exit thread).StillOpen reader k) :
    sections.StillOpen reader k ∧ reader ≠ thread := by
  have hne : reader ≠ thread := by
    rintro rfl
    simpa [exit] using hopen.1
  refine ⟨?_, hne⟩
  simpa [StillOpen, exit, hne] using hopen

end Sections

end Lfmr.Concurrency
