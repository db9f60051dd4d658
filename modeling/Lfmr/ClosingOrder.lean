import Lfmr.Concurrency.Sections
import Mathlib.Data.Finset.Card
import Mathlib.Data.List.Nodup

/-!
# Windows in the order of their closing

The purpose of a scheme of windows, without its memory and its counters. One window is current, the
others were closed one after another. A thread *owes* a window from when it joins it until it leaves
it; it joins the current one before a critical section, and leaves after it. The closing of a window
records the sections that are open.

A section that was open when a window was closed and still is belongs to a thread that owes this
window or one closed earlier. So the oldest closed window that nobody owes is out of reach of all of
the sections it recorded.
-/

namespace Lfmr.ClosingOrder

open Lfmr.Concurrency

variable {Window Tid : Type}

/-- The closed windows, oldest first, the current one, and the threads that owe each. -/
structure Order (Window Tid : Type) where
  closed : List Window
  current : Window
  owing : Window → Finset Tid

structure Order.Valid (order : Order Window Tid) (sections : Sections Tid)
    (openWhen : Window → Tid → Option Nat) : Prop where
  nodup : (order.closed ++ [order.current]).Nodup
  owing_mem : ∀ window thread, thread ∈ order.owing window →
    window ∈ order.closed ++ [order.current]
  inside : ∀ thread, sections.inside thread = true → ∃ window, thread ∈ order.owing window
  recorded : ∀ window ∈ order.closed, ∀ thread k, openWhen window thread = some k →
    k ≤ sections.entered thread
  ordered : ∀ older window newer, order.closed = older ++ window :: newer →
    ∀ thread k, openWhen window thread = some k → sections.StillOpen thread k →
      ∃ owed ∈ older ++ [window], thread ∈ order.owing owed

variable {order : Order Window Tid} {sections : Sections Tid}
  {openWhen openWhen' : Window → Tid → Option Nat} {thread : Tid}

theorem Order.Valid.congr (hvalid : order.Valid sections openWhen)
    (hsame : ∀ window ∈ order.closed, openWhen' window = openWhen window) :
    order.Valid sections openWhen' := by
  refine { hvalid with recorded := ?_, ordered := ?_ }
  · intro window hmem
    rw [hsame window hmem]
    exact hvalid.recorded window hmem
  · intro older window newer hclosed
    rw [hsame window (by simp [hclosed])]
    exact hvalid.ordered older window newer hclosed

variable {window : Window}

theorem Order.Valid.owing_eq_empty (hvalid : order.Valid sections openWhen)
    (hmem : window ∉ order.closed ++ [order.current]) : order.owing window = ∅ := by
  rw [Finset.eq_empty_iff_forall_notMem]
  exact fun thread howing => hmem (hvalid.owing_mem window thread howing)

/-- **The grace period.** No section the oldest closed window recorded is still open once nobody owes
that window. -/
theorem Order.Valid.not_stillOpen (hvalid : order.Valid sections openWhen)
    {newer : List Window} (hclosed : order.closed = window :: newer)
    (hleft : order.owing window = ∅) {k : Nat} (hopen : openWhen window thread = some k) :
    ¬ sections.StillOpen thread k := by
  intro hstill
  obtain ⟨owed, hmem, howing⟩ := hvalid.ordered [] window newer hclosed thread k hopen hstill
  obtain rfl : owed = window := by simpa using hmem
  simp [hleft] at howing

theorem Order.Valid.drop (hvalid : order.Valid sections openWhen)
    {newer : List Window} (hclosed : order.closed = window :: newer)
    (hleft : order.owing window = ∅) :
    Order.Valid { order with closed := newer } sections openWhen := by
  have howed : ∀ older owed other, owed ∈ window :: older → other ∈ order.owing owed → owed ∈ older := by
    intro older owed other hmem howing
    rcases List.mem_cons.mp hmem with rfl | hmem
    · simp [hleft] at howing
    · exact hmem
  refine ⟨?_, ?_, hvalid.inside, ?_, ?_⟩
  · have hnodup := hvalid.nodup
    rw [hclosed, List.cons_append] at hnodup
    exact hnodup.of_cons
  · intro owed other howing
    have hmem := hvalid.owing_mem owed other howing
    rw [hclosed, List.cons_append] at hmem
    exact howed _ owed other hmem howing
  · intro later hmem
    exact hvalid.recorded later (by simp [hclosed, show later ∈ newer from hmem])
  · rintro older later rest rfl other k hopen hstill
    obtain ⟨owed, hmem, howing⟩ :=
      hvalid.ordered (window :: older) later rest hclosed other k hopen hstill
    exact ⟨owed, howed _ owed other hmem howing, howing⟩

variable [DecidableEq Tid]

theorem Order.Valid.enter (hvalid : order.Valid sections openWhen)
    (howing : thread ∈ order.owing window) : order.Valid (sections.enter thread) openWhen := by
  refine ⟨hvalid.nodup, hvalid.owing_mem, ?_, ?_, ?_⟩
  · intro other hinside
    by_cases heq : other = thread
    · exact ⟨window, heq ▸ howing⟩
    · exact hvalid.inside other (by simpa [heq] using hinside)
  · intro closed hmem other k hopen
    exact Nat.le_trans (hvalid.recorded closed hmem other k hopen) (sections.entered_le_enter thread other)
  · intro older closed newer hclosed other k hopen hstill
    have hold := hvalid.recorded closed (by simp [hclosed]) other k hopen
    exact hvalid.ordered older closed newer hclosed other k hopen (hstill.of_enter hold).1

theorem Order.Valid.exit (hvalid : order.Valid sections openWhen) : order.Valid (sections.exit thread) openWhen := by
  refine { hvalid with inside := ?_, ordered := ?_ }
  · intro other hinside
    by_cases heq : other = thread
    · simp [heq] at hinside
    · exact hvalid.inside other (by simpa [heq] using hinside)
  · intro older closed newer hclosed other k hopen hstill
    exact hvalid.ordered older closed newer hclosed other k hopen hstill.of_exit.1

variable [DecidableEq Window]

def Order.join (order : Order Window Tid) (thread : Tid) (window : Window) : Order Window Tid :=
  { order with owing := Function.update order.owing window (insert thread (order.owing window)) }

def Order.leave (order : Order Window Tid) (thread : Tid) (window : Window) : Order Window Tid :=
  { order with owing := Function.update order.owing window ((order.owing window).erase thread) }

theorem Order.mem_owing_join {other : Tid} {owed : Window} : other ∈ (order.join thread window).owing owed ↔
      other ∈ order.owing owed ∨ (other = thread ∧ owed = window) := by
  by_cases heq : owed = window
  · subst heq
    simp [Order.join, or_comm]
  · simp [Order.join, heq]

theorem Order.mem_owing_leave {other : Tid} {owed : Window} : other ∈ (order.leave thread window).owing owed ↔
      other ∈ order.owing owed ∧ ¬ (other = thread ∧ owed = window) := by
  by_cases heq : owed = window
  · subst heq
    simp [Order.leave, and_comm]
  · simp [Order.leave, heq]

theorem Order.Valid.join (hvalid : order.Valid sections openWhen) (thread : Tid)
    (hmem : window ∈ order.closed ++ [order.current]) :
    (order.join thread window).Valid sections openWhen := by
  refine ⟨hvalid.nodup, ?_, ?_, hvalid.recorded, ?_⟩
  · intro owed other howing
    rcases Order.mem_owing_join.mp howing with howing | ⟨-, rfl⟩
    · exact hvalid.owing_mem owed other howing
    · exact hmem
  · intro other hinside
    obtain ⟨owed, howing⟩ := hvalid.inside other hinside
    exact ⟨owed, Order.mem_owing_join.mpr (Or.inl howing)⟩
  · intro older closed newer hclosed other k hopen hstill
    obtain ⟨owed, howed, howing⟩ := hvalid.ordered older closed newer hclosed other k hopen hstill
    exact ⟨owed, howed, Order.mem_owing_join.mpr (Or.inl howing)⟩

theorem Order.Valid.leave (hvalid : order.Valid sections openWhen) (houtside : sections.inside thread = false) :
    (order.leave thread window).Valid sections openWhen := by
  have hne : ∀ other, sections.inside other = true → other ≠ thread := by
    rintro other hinside rfl
    simp [houtside] at hinside
  refine ⟨hvalid.nodup, ?_, ?_, hvalid.recorded, ?_⟩
  · intro owed other howing
    exact hvalid.owing_mem owed other (Order.mem_owing_leave.mp howing).1
  · intro other hinside
    obtain ⟨owed, howing⟩ := hvalid.inside other hinside
    exact ⟨owed, Order.mem_owing_leave.mpr ⟨howing, fun h => hne other hinside h.1⟩⟩
  · intro older closed newer hclosed other k hopen hstill
    obtain ⟨owed, howed, howing⟩ := hvalid.ordered older closed newer hclosed other k hopen hstill
    exact ⟨owed, howed, Order.mem_owing_leave.mpr ⟨howing, fun h => hne other hstill.1 h.1⟩⟩

omit [DecidableEq Tid] [DecidableEq Window] in
/-- The current window is closed with a record of the open sections, and a new one is current. -/
theorem Order.Valid.close (hvalid : order.Valid sections openWhen) {new : Window}
    (hnew : new ∉ order.closed ++ [order.current])
    (hrecord : openWhen' order.current = sections.snapshot)
    (hsame : ∀ window ∈ order.closed, openWhen' window = openWhen window) :
    Order.Valid { order with closed := order.closed ++ [order.current], current := new } sections openWhen' := by
  refine ⟨?_, ?_, hvalid.inside, ?_, ?_⟩
  · rw [List.nodup_append]
    refine ⟨hvalid.nodup, by simp, ?_⟩
    rintro window hmem other hother rfl
    simp only [List.mem_singleton] at hother
    exact hnew (hother ▸ hmem)
  · intro owed other howing
    exact List.mem_append_left _ (hvalid.owing_mem owed other howing)
  · intro window hmem other k hopen
    rcases List.mem_append.mp hmem with hmem | hmem
    · rw [hsame window hmem] at hopen
      exact hvalid.recorded window hmem other k hopen
    · obtain rfl : window = order.current := by simpa using hmem
      rw [hrecord] at hopen
      exact Nat.le_of_eq (Sections.snapshot_eq_some.mp hopen).2.symm
  · intro older window newer hclosed other k hopen hstill
    rcases List.eq_nil_or_concat newer with rfl | ⟨newer, last, rfl⟩
    · -- The window just closed: every thread inside owes it or one closed before.
      obtain ⟨rfl, hlast⟩ := List.append_inj' hclosed rfl
      obtain rfl : order.current = window := by simpa using hlast
      obtain ⟨owed, howing⟩ := hvalid.inside other hstill.1
      exact ⟨owed, hvalid.owing_mem owed other howing, howing⟩
    · rw [List.concat_eq_append, ← List.cons_append, ← List.append_assoc] at hclosed
      obtain ⟨hclosed, -⟩ := List.append_inj' hclosed rfl
      rw [hsame window (by simp [hclosed])] at hopen
      exact hvalid.ordered older window newer hclosed other k hopen hstill

end Lfmr.ClosingOrder
