import Mathlib.Data.List.Nodup
import Mathlib.Logic.Function.Basic
import Mathlib.Tactic.Common

/-!
# Linked lists in a memory

A `next` field maps each cell to the cell behind it. `Linked next start cells` says that the pointer
`start` leads, link by link, through exactly `cells` to a null pointer.
-/

namespace Lfmr.Concurrency

open List Function

variable {Cell : Type} {next : Cell → Option Cell} {start : Option Cell} {cells : List Cell}

def Linked (next : Cell → Option Cell) : Option Cell → List Cell → Prop
  | start, [] => start = none
  | start, cell :: rest => start = some cell ∧ Linked next (next cell) rest

@[simp]
theorem linked_nil : Linked next start [] ↔ start = none := Iff.rfl

variable {cell dummy : Cell} {before : List Cell}

@[simp]
theorem linked_cons : Linked next start (cell :: cells) ↔ start = some cell ∧ Linked next (next cell) cells := Iff.rfl

theorem linked_none_iff : Linked next none cells ↔ cells = [] := by
  cases cells <;> simp

theorem Linked.congr {next' : Cell → Option Cell} (hlinked : Linked next start cells)
    (hsame : ∀ cell ∈ cells, next' cell = next cell) : Linked next' start cells := by
  induction cells generalizing start with
  | nil => exact hlinked
  | cons cell rest ih =>
    refine ⟨hlinked.1, ?_⟩
    rw [hsame cell mem_cons_self]
    exact ih hlinked.2 fun other hmem => hsame other (mem_cons_of_mem cell hmem)

theorem Linked.start_eq (hlinked : Linked next start cells) : start = cells.head? := by
  cases cells with
  | nil => exact hlinked
  | cons cell rest => exact hlinked.1

theorem Linked.suffix {after : List Cell} (hlinked : Linked next start (before ++ after)) :
    Linked next after.head? after := by
  induction before generalizing start with
  | nil => exact hlinked.start_eq ▸ hlinked
  | cons cell rest ih => exact ih hlinked.2

theorem Linked.next_eq {after : List Cell}
    (hlinked : Linked next start (before ++ cell :: after)) : next cell = after.head? :=
  (linked_cons.mp hlinked.suffix).2.start_eq

theorem Linked.forall_after {Holds : Cell → Prop}
    (hholds : ∀ cell target, Holds cell → next cell = some target → Holds target)
    {after : List Cell} (hlinked : Linked next start (before ++ cell :: after))
    (hcell : Holds cell) : ∀ other ∈ cell :: after, Holds other := by
  induction after generalizing before cell with
  | nil =>
    intro other hother
    rw [mem_singleton.mp hother]
    exact hcell
  | cons target after ih =>
    have htarget := hholds cell target hcell hlinked.next_eq
    rw [append_cons] at hlinked
    exact forall_mem_cons.mpr ⟨hcell, ih hlinked htarget⟩

theorem Linked.concat [DecidableEq Cell] {last new : Cell}
    (hlinked : Linked next start (before ++ [last])) (hnodup : (before ++ [last, new]).Nodup)
    (hnew : next new = none) :
    Linked (update next last (some new)) start (before ++ [last, new]) := by
  induction before generalizing start with
  | nil =>
    have hne : new ≠ last := fun heq => by simp [heq] at hnodup
    refine ⟨hlinked.1, update_self .., ?_⟩
    rwa [linked_nil, update_of_ne hne]
  | cons cell rest ih =>
    have hne : cell ≠ last := fun heq => by simp [heq] at hnodup
    refine ⟨hlinked.1, ?_⟩
    rw [update_of_ne hne]
    exact ih hlinked.2 hnodup.of_cons

theorem Linked.exists_pred (hlinked : Linked next start cells) (hmem : cell ∈ cells)
    (hstart : start ≠ some cell) : ∃ pred ∈ cells, next pred = some cell := by
  induction cells generalizing start with
  | nil => simp at hmem
  | cons first rest ih =>
    obtain ⟨rfl, hrest⟩ := linked_cons.mp hlinked
    have hne : cell ≠ first := fun heq => hstart (heq ▸ rfl)
    by_cases hnext : next first = some cell
    · exact ⟨first, mem_cons_self, hnext⟩
    · obtain ⟨pred, hpred, hlink⟩ := ih hrest ((mem_cons.mp hmem).resolve_left hne) hnext
      exact ⟨pred, mem_cons_of_mem first hpred, hlink⟩

theorem getLastD_mem (cells : List Cell) (dummy : Cell) : cells.getLastD dummy ∈ dummy :: cells := by
  rw [getLastD_eq_getLast?]
  cases hget : cells.getLast? with
  | none => simp
  | some last => exact mem_cons_of_mem dummy (mem_of_getLast? hget)

theorem Linked.after {after : List Cell} (hlinked : Linked next (next dummy) (before ++ after)) :
    Linked next (next (before.getLastD dummy)) after := by
  induction before generalizing dummy with
  | nil => exact hlinked
  | cons cell rest ih =>
    rw [getLastD_cons]
    exact ih (linked_cons.mp hlinked).2

section

variable (hlinked : Linked next (next dummy) cells) (hmem : cell ∈ dummy :: cells)
include hlinked hmem

theorem Linked.split : ∃ before after, cells = before ++ after ∧ before.getLastD dummy = cell ∧
      Linked next (next cell) after := by
  induction cells generalizing dummy with
  | nil =>
    obtain rfl : cell = dummy := by simpa using hmem
    exact ⟨[], [], rfl, rfl, hlinked⟩
  | cons first rest ih =>
    by_cases heq : cell = dummy
    · subst heq
      exact ⟨[], first :: rest, rfl, rfl, hlinked⟩
    · obtain ⟨before, after, rfl, hlast, hafter⟩ :=
        ih (linked_cons.mp hlinked).2 ((mem_cons.mp hmem).resolve_left heq)
      exact ⟨first :: before, after, rfl, by rw [getLastD_cons, hlast], hafter⟩

theorem Linked.next_mem {target : Cell} (hnext : next cell = some target) : target ∈ cells := by
  obtain ⟨before, after, rfl, _, hafter⟩ := hlinked.split hmem
  rw [hnext] at hafter
  cases after with
  | nil => simp at hafter
  | cons first rest =>
    obtain rfl := Option.some.inj (linked_cons.mp hafter).1
    simp

theorem Linked.getLastD_eq (hnext : next cell = none) : cells.getLastD dummy = cell := by
  obtain ⟨before, after, rfl, hlast, hafter⟩ := hlinked.split hmem
  rw [hnext, linked_none_iff] at hafter
  rw [hafter, append_nil, hlast]

end

theorem Linked.splice {next' : Cell → Option Cell} {after after' : List Cell}
    (hlinked : Linked next (next dummy) (before ++ after)) (hnodup : (dummy :: before).Nodup)
    (hsame : ∀ cell ∈ before, cell ≠ before.getLastD dummy → next' cell = next cell)
    (hdummy : dummy ≠ before.getLastD dummy → next' dummy = next dummy)
    (hafter : Linked next' (next' (before.getLastD dummy)) after') :
    Linked next' (next' dummy) (before ++ after') := by
  induction before generalizing dummy with
  | nil => exact hafter
  | cons cell rest ih =>
    obtain ⟨hstart, hrest⟩ := linked_cons.mp hlinked
    rw [getLastD_cons] at hsame hdummy hafter
    have hne : dummy ≠ rest.getLastD cell := by
      intro heq
      exact (nodup_cons.mp hnodup).1 (heq ▸ getLastD_mem rest cell)
    rw [cons_append, linked_cons, hdummy hne]
    refine ⟨hstart, ih hrest hnodup.of_cons ?_ ?_ hafter⟩
    · exact fun other hmem => hsame other (mem_cons_of_mem cell hmem)
    · exact hsame cell mem_cons_self

theorem Linked.snoc [DecidableEq Cell] {new : Cell}
    (hlinked : Linked next (next dummy) cells) (hnodup : (dummy :: (cells ++ [new])).Nodup)
    (hnew : next new = none) :
    Linked (update next (cells.getLastD dummy) (some new))
      (update next (cells.getLastD dummy) (some new) dummy) (cells ++ [new]) := by
  have hne : new ≠ cells.getLastD dummy := by
    intro heq
    rw [← cons_append] at hnodup
    exact (disjoint_of_nodup_append hnodup) (heq ▸ getLastD_mem cells dummy) (by simp)
  have hcells : Linked next (next dummy) (cells ++ []) := by rwa [append_nil]
  apply hcells.splice (hnodup.sublist (by simp))
  · exact fun cell _ hcell => update_of_ne hcell _ _
  · exact fun hcell => update_of_ne hcell _ _
  · rw [update_self, linked_cons, update_of_ne hne, hnew]
    exact ⟨rfl, rfl⟩

end Lfmr.Concurrency
