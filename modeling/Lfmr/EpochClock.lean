import Mathlib.Logic.Function.Basic
import Mathlib.Tactic.Common

/-!
# Epochs without a modulus

The purpose of an epoch scheme, with epochs numbered and never reused. Each thread reads the current
number when it enters and is *active* until it leaves. One thread at a time scans: it *clears* the
others one by one, and when all are cleared the number advances. A thread may be cleared only if it
is not active or has read the current number.

Under that rule the number runs at most one ahead of every active thread, and an object put aside in
epoch `label` may be reclaimed by a thread that reads an epoch of at least `label + 3`.
-/

namespace Lfmr.EpochClock

variable {Tid : Type}

structure Clock (Tid : Type) where
  now : Nat
  reading : Tid → Nat
  active : Tid → Prop
  scanner : Option Tid
  cleared : Tid → Prop

structure Clock.Valid (clock : Clock Tid) : Prop where
  positive : 0 < clock.now
  reading_le : ∀ thread, clock.reading thread ≤ clock.now
  lag : ∀ thread, clock.active thread → clock.now ≤ clock.reading thread + 1
  cleared_reading : ∀ thread, clock.cleared thread → clock.active thread →
    clock.reading thread = clock.now

section Operations

variable [DecidableEq Tid]

def Clock.read (clock : Clock Tid) (thread : Tid) : Clock Tid :=
  { clock with
    reading := Function.update clock.reading thread clock.now
    active := Function.update clock.active thread True }

def Clock.leave (clock : Clock Tid) (thread : Tid) : Clock Tid :=
  { clock with active := Function.update clock.active thread False }

def Clock.beginScan (clock : Clock Tid) (thread : Tid) : Clock Tid :=
  { clock with scanner := some thread, cleared := fun _ => False }

def Clock.clear (clock : Clock Tid) (thread : Tid) : Clock Tid :=
  { clock with cleared := Function.update clock.cleared thread True }

def Clock.endScan (clock : Clock Tid) : Clock Tid :=
  { clock with scanner := none }

def Clock.advance (clock : Clock Tid) : Clock Tid :=
  { clock with now := clock.now + 1, cleared := fun _ => False }

variable {clock : Clock Tid}

attribute [local simp] Clock.read

section

variable (hvalid : clock.Valid)
include hvalid

theorem Clock.Valid.read (thread : Tid) : (clock.read thread).Valid := by
  refine ⟨hvalid.positive, fun other => ?_, fun other => ?_, fun other => ?_⟩
  all_goals by_cases heq : other = thread
  · simp [heq]
  · simpa [heq] using hvalid.reading_le other
  · simp [heq]
  · simpa [heq] using hvalid.lag other
  · simp [heq]
  · simpa [heq] using hvalid.cleared_reading other

theorem Clock.Valid.leave (thread : Tid) : (clock.leave thread).Valid := by
  refine ⟨hvalid.positive, hvalid.reading_le, fun other => ?_, fun other => ?_⟩
  all_goals by_cases heq : other = thread
  · simp [Clock.leave, heq]
  · simpa [Clock.leave, heq] using hvalid.lag other
  · simp [Clock.leave, heq]
  · simpa [Clock.leave, heq] using hvalid.cleared_reading other

omit [DecidableEq Tid] in
theorem Clock.Valid.beginScan (thread : Tid) : (clock.beginScan thread).Valid :=
  { hvalid with cleared_reading := fun _ hcleared => hcleared.elim }

theorem Clock.Valid.clear {thread : Tid} (hcurrent : clock.active thread → clock.reading thread = clock.now) :
    (clock.clear thread).Valid := by
  refine { hvalid with cleared_reading := fun other => ?_ }
  by_cases heq : other = thread
  · subst heq
    exact fun _ => hcurrent
  · simpa [Clock.clear, heq] using hvalid.cleared_reading other

omit [DecidableEq Tid] in
theorem Clock.Valid.endScan : clock.endScan.Valid :=
  { hvalid with }

omit [DecidableEq Tid] in
theorem Clock.Valid.advance (hcleared : ∀ thread, clock.cleared thread) : clock.advance.Valid := by
  refine ⟨Nat.succ_pos _, fun thread => ?_, fun thread hactive => ?_, fun _ h => h.elim⟩
  · exact Nat.le_succ_of_le (hvalid.reading_le thread)
  · have hreading := hvalid.cleared_reading thread (hcleared thread) hactive
    change clock.now + 1 ≤ clock.reading thread + 1
    omega

end

end Operations

/-- **The grace period.** Three epochs after `label`, no thread is active that had read an epoch of at
most `label + 1`. -/
theorem Clock.Valid.not_active {clock : Clock Tid} (hvalid : clock.Valid) {reader collector : Tid}
    {label : Nat} (hreading : clock.reading reader ≤ label + 1)
    (hcollector : label + 3 ≤ clock.reading collector) : ¬ clock.active reader := by
  intro hactive
  have hlag := hvalid.lag reader hactive
  have hnow := hvalid.reading_le collector
  omega

end Lfmr.EpochClock
