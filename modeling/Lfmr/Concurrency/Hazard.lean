import Mathlib.Data.Option.Basic
import Mathlib.Logic.Function.Basic
import Mathlib.Tactic.Common

/-!
# Hazard pointers

A thread announces the node it is going to use in a slot that all threads can read, and confirms
afterwards that the node is still linked. From then on the slot guards the node: a thread that frees
the nodes it has unlinked first reads all slots, and keeps the nodes it finds there.

The slots of a scan are read one after another, while other threads go on. `Covers` is what makes this
work: an unlinked node is never guarded anew, so the slots that have been read need not be read again.
-/

namespace Lfmr.Concurrency

open Function

inductive Custody (Tid : Type)
  | free
  | owned (thread : Tid)
  | linked
  | unlinked (thread : Tid)
  deriving DecidableEq

def Custody.InUse {Tid : Type} : Custody Tid → Prop
  | .linked => True
  | .unlinked _ => True
  | _ => False

/-- The slots, and what has happened to the nodes: how often each has been freed, and how often it had
been when a thread last loaded a pointer to it, or last saw such a pointer in memory. -/
structure Hazards (Tid Slot Node : Type) where
  pointer : Slot → Option Node
  custody : Node → Custody Tid
  frees : Node → Nat
  loadedAt : Tid → Node → Nat
  seenAt : Tid → Node → Nat

namespace Hazards

variable {Tid Slot Node : Type}

def fresh : Hazards Tid Slot Node where
  pointer _ := none
  custody _ := .free
  frees _ := 0
  loadedAt _ _ := 0
  seenAt _ _ := 0

def announce [DecidableEq Slot] (hazards : Hazards Tid Slot Node) (slot : Slot)
    (target : Option Node) : Hazards Tid Slot Node :=
  { hazards with pointer := Function.update hazards.pointer slot target }

section Nodes

variable [DecidableEq Node]

def assign (hazards : Hazards Tid Slot Node) (node : Node) (custody : Custody Tid) :
    Hazards Tid Slot Node :=
  { hazards with custody := Function.update hazards.custody node custody }

def free (hazards : Hazards Tid Slot Node) (node : Node) : Hazards Tid Slot Node :=
  { hazards with
    custody := Function.update hazards.custody node .free
    frees := Function.update hazards.frees node (hazards.frees node + 1) }

variable [DecidableEq Tid]

def stamp (hazards : Hazards Tid Slot Node) (record : Tid → Node → Nat) (thread : Tid) :
    Option Node → Tid → Node → Nat
  | some node =>
      Function.update record thread (Function.update (record thread) node (hazards.frees node))
  | none => record

def see (hazards : Hazards Tid Slot Node) (thread : Tid) (target : Option Node) :
    Hazards Tid Slot Node :=
  { hazards with seenAt := hazards.stamp hazards.seenAt thread target }

def load (hazards : Hazards Tid Slot Node) (thread : Tid) (target : Option Node) :
    Hazards Tid Slot Node :=
  { hazards.see thread target with loadedAt := hazards.stamp hazards.loadedAt thread target }

end Nodes

/-- The node that each slot guards: it has been linked at some time since it was announced there. -/
structure Valid (hazards : Hazards Tid Slot Node) (guard : Slot → Option Node) : Prop where
  announced : ∀ slot node, guard slot = some node → hazards.pointer slot = some node
  inUse : ∀ slot node, guard slot = some node → (hazards.custody node).InUse

def Current (hazards : Hazards Tid Slot Node) (thread : Tid) (node : Node) : Prop :=
  hazards.seenAt thread node = hazards.frees node

def HeldBy (hazards : Hazards Tid Slot Node) (thread : Tid) (node : Node) : Prop :=
  hazards.custody node = .owned thread ∨ hazards.custody node = .unlinked thread

structure Owns (hazards : Hazards Tid Slot Node) (thread : Tid) (node : Node) : Prop where
  owned : hazards.custody node = .owned thread
  current : hazards.Current thread node

structure Holds (hazards : Hazards Tid Slot Node) (thread : Tid) (nodes : List Node) : Prop where
  nodup : nodes.Nodup
  unlinked : ∀ node ∈ nodes, hazards.custody node = .unlinked thread
  current : ∀ node ∈ nodes, hazards.Current thread node

def Covers (guard : Slot → Option Node) (isRead : Slot → Prop) (nodes : List Node)
    (collected : List (Option Node)) : Prop :=
  ∀ slot, isRead slot → ∀ node ∈ nodes, guard slot = some node → some node ∈ collected

structure Steady (thread : Tid) (isOwn : Slot → Prop) (isHeld : Node → Prop)
    (hazards : Hazards Tid Slot Node) (guard : Slot → Option Node)
    (hazards' : Hazards Tid Slot Node) (guard' : Slot → Option Node) : Prop where
  pointer : ∀ slot, isOwn slot → hazards'.pointer slot = hazards.pointer slot
  guards : ∀ slot, isOwn slot → guard' slot = guard slot
  current : ∀ node, hazards'.frees node = hazards.frees node → hazards.Current thread node →
    hazards'.Current thread node
  guarded : ∀ slot node, guard slot = some node → hazards'.frees node = hazards.frees node
  custody : ∀ node, isHeld node → hazards'.custody node = hazards.custody node
  held : ∀ node, isHeld node → hazards'.frees node = hazards.frees node
  unlinked : ∀ slot node, isHeld node → hazards.custody node = .unlinked thread →
    guard' slot = some node → guard slot = some node

variable {hazards hazards' : Hazards Tid Slot Node} {guard guard' : Slot → Option Node}
  {thread other : Tid} {slot : Slot} {node : Node} {target : Option Node} {isOwn isRead : Slot → Prop}
  {isHeld : Node → Prop} {nodes : List Node} {collected : List (Option Node)}

theorem valid_fresh : (fresh : Hazards Tid Slot Node).Valid fun _ => none := by
  constructor <;> simp

theorem Valid.unguarded (hvalid : hazards.Valid guard) (hcustody : ¬ (hazards.custody node).InUse)
    (slot : Slot) : guard slot ≠ some node :=
  fun hguard => hcustody (hvalid.inUse slot node hguard)

theorem Steady.refl : Steady thread isOwn isHeld hazards guard hazards guard := by
  constructor <;> simp

theorem Steady.current_of_guard (hsteady : Steady thread isOwn isHeld hazards guard hazards' guard')
    (hguard : guard slot = some node) (hcurrent : hazards.Current thread node) :
    hazards'.Current thread node :=
  hsteady.current node (hsteady.guarded slot node hguard) hcurrent

theorem Steady.current_of_held
    (hsteady : Steady thread isOwn isHeld hazards guard hazards' guard') (hheld : isHeld node)
    (hcurrent : hazards.Current thread node) : hazards'.Current thread node :=
  hsteady.current node (hsteady.held node hheld) hcurrent

theorem Owns.steady (howns : hazards.Owns thread node)
    (hsteady : Steady thread isOwn isHeld hazards guard hazards' guard') (hheld : isHeld node) :
    hazards'.Owns thread node where
  owned := (hsteady.custody node hheld).trans howns.owned
  current := hsteady.current_of_held hheld howns.current

theorem Holds.steady (hholds : hazards.Holds thread nodes)
    (hsteady : Steady thread isOwn isHeld hazards guard hazards' guard')
    (hheld : ∀ node ∈ nodes, isHeld node) : hazards'.Holds thread nodes where
  nodup := hholds.nodup
  unlinked node hmem := (hsteady.custody node (hheld node hmem)).trans (hholds.unlinked node hmem)
  current node hmem := hsteady.current_of_held (hheld node hmem) (hholds.current node hmem)

theorem Holds.perm {nodes' : List Node} (hholds : hazards.Holds thread nodes)
    (hperm : nodes'.Perm nodes) : hazards.Holds thread nodes' where
  nodup := hperm.nodup_iff.mpr hholds.nodup
  unlinked node hmem := hholds.unlinked node (hperm.mem_iff.mp hmem)
  current node hmem := hholds.current node (hperm.mem_iff.mp hmem)

theorem Holds.left {others : List Node} (hholds : hazards.Holds thread (nodes ++ others)) :
    hazards.Holds thread nodes where
  nodup := hholds.nodup.sublist (List.sublist_append_left nodes others)
  unlinked node hmem := hholds.unlinked node (List.mem_append_left others hmem)
  current node hmem := hholds.current node (List.mem_append_left others hmem)

theorem holds_nil : hazards.Holds thread [] := by
  constructor <;> simp

theorem covers_of_not_read (hread : ∀ slot, ¬ isRead slot) : Covers guard isRead nodes collected :=
  fun slot hslot => absurd hslot (hread slot)

section

variable (hcovers : Covers guard isRead nodes collected)
include hcovers

theorem Covers.subset {nodes' : List Node} (hsubset : nodes' ⊆ nodes) : Covers guard isRead nodes' collected :=
  fun slot hslot node hnode => hcovers slot hslot node (hsubset hnode)

/-- An unlinked node is not guarded anew, so others do not undo what has been read. -/
theorem Covers.steady (hsteady : Steady thread isOwn isHeld hazards guard hazards' guard')
    (hheld : ∀ node ∈ nodes, isHeld node)
    (hunlinked : ∀ node ∈ nodes, hazards.custody node = .unlinked thread) :
    Covers guard' isRead nodes collected := by
  intro slot hslot node hnode hguard
  apply hcovers slot hslot node hnode
  exact hsteady.unlinked slot node (hheld node hnode) (hunlinked node hnode) hguard

theorem Covers.read {isRead' : Slot → Prop} {collected' : List (Option Node)} (hvalid : hazards.Valid guard)
    (hread : ∀ other, isRead' other → isRead other ∨ other = slot) (hsubset : collected ⊆ collected')
    (hcollected : ∀ node, hazards.pointer slot = some node → some node ∈ collected') :
    Covers guard isRead' nodes collected' := by
  intro other hother node hnode hguard
  rcases hread other hother with hold | rfl
  · exact hsubset (hcovers other hold node hnode hguard)
  · exact hcollected node (hvalid.announced other node hguard)

theorem Covers.unguarded (hread : ∀ slot node, guard slot = some node → isRead slot) (hmem : node ∈ nodes)
    (hnotMem : some node ∉ collected) (slot : Slot) : guard slot ≠ some node :=
  fun hguard => hnotMem (hcovers slot (hread slot node hguard) node hmem hguard)

end

section Slots

variable [DecidableEq Slot]

theorem guard_of_clear {other : Slot} (hguard : update guard slot none other = some node) :
    guard other = some node := by
  by_cases heq : other = slot
  · subst heq
    simp at hguard
  · rwa [update_of_ne heq] at hguard

theorem guard_of_set {other : Slot} {found : Node} (hguard : update guard slot (some node) other = some found) :
    other = slot ∧ found = node ∨ guard other = some found := by
  by_cases heq : other = slot
  · subst heq
    simp only [update_self, Option.some.injEq] at hguard
    exact .inl ⟨rfl, hguard.symm⟩
  · rw [update_of_ne heq] at hguard
    exact .inr hguard

theorem Valid.announce (hvalid : hazards.Valid guard) (slot : Slot) (target : Option Node) :
    (hazards.announce slot target).Valid (update guard slot none) := by
  constructor
  · intro other node hguard
    have hne : other ≠ slot := by
      rintro rfl
      simp at hguard
    simpa [Hazards.announce, hne] using hvalid.announced other node (guard_of_clear hguard)
  · intro other node hguard
    exact hvalid.inUse other node (guard_of_clear hguard)

theorem steady_announce (hown : ¬ isOwn slot) :
    Steady thread isOwn isHeld hazards guard (hazards.announce slot target) (update guard slot none) where
  pointer other hother := update_of_ne (fun heq : other = slot => hown (heq ▸ hother)) _ _
  guards other hother := update_of_ne (fun heq : other = slot => hown (heq ▸ hother)) _ _
  current _ _ hcurrent := hcurrent
  guarded _ _ _ := rfl
  custody _ _ := rfl
  held _ _ := rfl
  unlinked _ _ _ _ hguard := guard_of_clear hguard

theorem Valid.confirm (hvalid : hazards.Valid guard) (hpointer : hazards.pointer slot = some node)
    (hlinked : hazards.custody node = .linked) :
    hazards.Valid (update guard slot (some node)) := by
  constructor
  · intro other found hguard
    rcases guard_of_set hguard with ⟨rfl, rfl⟩ | hold
    · exact hpointer
    · exact hvalid.announced other found hold
  · intro other found hguard
    rcases guard_of_set hguard with ⟨rfl, rfl⟩ | hold
    · rw [hlinked]
      trivial
    · exact hvalid.inUse other found hold

theorem steady_confirm (hown : ¬ isOwn slot) (hlinked : hazards.custody node = .linked) :
    Steady thread isOwn isHeld hazards guard hazards (update guard slot (some node)) where
  pointer _ _ := rfl
  guards other hother := update_of_ne (fun heq : other = slot => hown (heq ▸ hother)) _ _
  current _ _ hcurrent := hcurrent
  guarded _ _ _ := rfl
  custody _ _ := rfl
  held _ _ := rfl
  unlinked other found _ hunlinked hguard := by
    rcases guard_of_set hguard with ⟨rfl, rfl⟩ | hold
    · simp [hlinked] at hunlinked
    · exact hold

end Slots

section Nodes

variable [DecidableEq Node]

attribute [local simp] Hazards.assign

theorem Valid.assign {custody : Custody Tid} (hvalid : hazards.Valid guard)
    (hinUse : (hazards.custody node).InUse → custody.InUse) :
    (hazards.assign node custody).Valid guard := by
  refine ⟨hvalid.announced, ?_⟩
  intro slot found hguard
  have hfound := hvalid.inUse slot found hguard
  by_cases heq : found = node
  · subst heq
    simpa using hinUse hfound
  · simpa [heq] using hfound

theorem steady_assign {custody : Custody Tid} (hheld : ¬ isHeld node) :
    Steady thread isOwn isHeld hazards guard (hazards.assign node custody) guard where
  pointer _ _ := rfl
  guards _ _ := rfl
  current _ _ hcurrent := hcurrent
  guarded _ _ _ := rfl
  custody found hfound := update_of_ne (fun heq : found = node => hheld (heq ▸ hfound)) _ _
  held _ _ := rfl
  unlinked _ _ _ _ hguard := hguard

theorem Valid.free (hvalid : hazards.Valid guard) (hclear : ∀ slot, guard slot ≠ some node) :
    (hazards.free node).Valid guard := by
  refine ⟨hvalid.announced, ?_⟩
  intro slot found hguard
  have hne : found ≠ node := fun heq => hclear slot (heq ▸ hguard)
  simpa [Hazards.free, hne] using hvalid.inUse slot found hguard

theorem steady_free (hclear : ∀ slot, guard slot ≠ some node) (hheld : ¬ isHeld node) :
    Steady thread isOwn isHeld hazards guard (hazards.free node) guard where
  pointer _ _ := rfl
  guards _ _ := rfl
  current _ hfrees hcurrent := hcurrent.trans hfrees.symm
  guarded slot found hguard :=
    update_of_ne (fun heq : found = node => hclear slot (heq ▸ hguard)) _ _
  custody found hfound := update_of_ne (fun heq : found = node => hheld (heq ▸ hfound)) _ _
  held found hfound := update_of_ne (fun heq : found = node => hheld (heq ▸ hfound)) _ _
  unlinked _ _ _ _ hguard := hguard

theorem Holds.unlink (hholds : hazards.Holds thread nodes) (hlinked : hazards.custody node = .linked)
    (hcurrent : hazards.Current thread node) :
    (hazards.assign node (.unlinked thread)).Holds thread (node :: nodes) := by
  have hnotMem : node ∉ nodes := by
    intro hmem
    simpa [hlinked] using hholds.unlinked node hmem
  refine ⟨List.nodup_cons.mpr ⟨hnotMem, hholds.nodup⟩, ?_, ?_⟩
  · intro found hmem
    rcases List.mem_cons.mp hmem with rfl | hrest
    · simp
    · have hne : found ≠ node := fun heq => hnotMem (heq ▸ hrest)
      simpa [hne] using hholds.unlinked found hrest
  · intro found hmem
    rcases List.mem_cons.mp hmem with rfl | hrest
    · exact hcurrent
    · exact hholds.current found hrest

theorem Holds.free (hholds : hazards.Holds thread (node :: nodes)) : (hazards.free node).Holds thread nodes := by
  obtain ⟨hnotMem, hnodup⟩ := List.nodup_cons.mp hholds.nodup
  have hne : ∀ found ∈ nodes, found ≠ node := fun found hmem heq => hnotMem (heq ▸ hmem)
  refine ⟨hnodup, fun found hmem => ?_, fun found hmem => ?_⟩
  · simpa [Hazards.free, hne found hmem] using hholds.unlinked found (List.mem_cons_of_mem _ hmem)
  · simpa [Current, Hazards.free, hne found hmem] using hholds.current found (List.mem_cons_of_mem _ hmem)

variable [DecidableEq Tid]

theorem current_see_self : (hazards.see thread (some node)).Current thread node := by
  simp [Current, see, stamp]

theorem Current.see (hcurrent : hazards.Current thread node) (other : Tid) (target : Option Node) :
    (hazards.see other target).Current thread node := by
  cases target with
  | none => exact hcurrent
  | some seen =>
    by_cases hnode : node = seen
    · subst hnode
      by_cases hthread : thread = other
      · subst hthread
        exact current_see_self
      · simpa [Current, Hazards.see, stamp, hthread] using hcurrent
    · by_cases hthread : thread = other
      · simpa [Current, Hazards.see, stamp, hthread, hnode] using hcurrent
      · simpa [Current, Hazards.see, stamp, hthread] using hcurrent

theorem Steady.see (hsteady : Steady thread isOwn isHeld hazards guard hazards' guard') :
    Steady thread isOwn isHeld hazards guard (hazards'.see other target) guard' where
  pointer := hsteady.pointer
  guards := hsteady.guards
  current node hfrees hcurrent := (hsteady.current node hfrees hcurrent).see other target
  guarded := hsteady.guarded
  custody := hsteady.custody
  held := hsteady.held
  unlinked := hsteady.unlinked

theorem Steady.load (hsteady : Steady thread isOwn isHeld hazards guard hazards' guard') :
    Steady thread isOwn isHeld hazards guard (hazards'.load other target) guard' where
  pointer := hsteady.pointer
  guards := hsteady.guards
  current node hfrees hcurrent := (hsteady.current node hfrees hcurrent).see other target
  guarded := hsteady.guarded
  custody := hsteady.custody
  held := hsteady.held
  unlinked := hsteady.unlinked

theorem Valid.see (hvalid : hazards.Valid guard) : (hazards.see thread target).Valid guard :=
  ⟨hvalid.announced, hvalid.inUse⟩

theorem Valid.load (hvalid : hazards.Valid guard) : (hazards.load thread target).Valid guard :=
  ⟨hvalid.announced, hvalid.inUse⟩

end Nodes

end Hazards

end Lfmr.Concurrency
