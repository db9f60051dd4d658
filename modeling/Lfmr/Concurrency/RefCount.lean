import Mathlib.Algebra.BigOperators.Group.Finset.Basic
import Mathlib.Algebra.GroupWithZero.Nat
import Mathlib.Algebra.Order.BigOperators.Group.Finset
import Mathlib.Algebra.Order.Group.Nat
import Mathlib.Data.Fintype.Defs
import Mathlib.Logic.Function.Basic
import Mathlib.Tactic.Common

/-!
# Reference counting

A reference to an object is in a place of the memory or in the hands of a thread. An object that has been
published is counted: the thread that gives up the last reference to it claims it, takes over the references that
were in it, and frees it.

A thread may take a reference to an object that is free by now. Such a reference is counted like any other, but
protects the object only if it has been published since. And a thread may use objects to which it holds no
reference: those are *pinned*, and nothing but the good will of the others keeps them.
-/

namespace Lfmr.Concurrency.RefCount

open Function Finset

/-- What becomes of an object. It is `fresh` while it is being taken from the allocator and `loose` if it
was given up without having been published. -/
inductive Stage (Tid : Type)
  | free
  | fresh (thread : Tid)
  | owned (thread : Tid)
  | shared
  | loose
  | claimed (thread : Tid)
  deriving DecidableEq

namespace Stage

variable {Tid : Type}

def isCounted : Stage Tid → Bool
  | .shared => true
  | .loose => true
  | _ => false

def isLive : Stage Tid → Bool
  | .free => false
  | .claimed _ => false
  | _ => true

def keeper : Stage Tid → Option Tid
  | .fresh thread => some thread
  | .owned thread => some thread
  | _ => none

def owner : Stage Tid → Option Tid
  | .claimed thread => some thread
  | stage => stage.keeper

theorem isLive_of_isCounted {stage : Stage Tid} (hcounted : stage.isCounted = true) : stage.isLive = true := by
  cases stage <;> simp_all [isCounted, isLive]

theorem owner_of_isCounted {stage : Stage Tid} (hcounted : stage.isCounted = true) : stage.owner = none := by
  cases stage <;> simp_all [isCounted, owner, keeper]

end Stage

def one {Obj : Type} [DecidableEq Obj] (obj : Obj) : Obj → Nat := fun other =>
  if other = obj then 1 else 0

/-- How many references to each object are in the memory and with each thread, and what each thread
uses without one. -/
structure Book (Tid Obj : Type) where
  stage : Obj → Stage Tid
  placed : Obj → Nat
  held : Tid → Obj → Nat
  pinned : Tid → Obj → Prop

section Sums

variable {Index α : Type} [DecidableEq Index] {s : Finset Index} {index : Index}

theorem sum_add_of_eq_of_ne {f g : Index → Nat} (hmem : index ∈ s)
    (hsame : ∀ other, other ≠ index → g other = f other) :
    ∑ i ∈ s, g i + f index = ∑ i ∈ s, f i + g index := by
  have hrest : ∑ i ∈ s.erase index, g i = ∑ i ∈ s.erase index, f i :=
    sum_congr rfl fun other hother => hsame other (ne_of_mem_erase hother)
  rw [← sum_erase_add _ _ hmem, ← sum_erase_add _ f hmem, hrest]
  exact Nat.add_right_comm _ _ _

theorem sum_update_add (hmem : index ∈ s) (f : α → Nat) (g : Index → α) (value : α) :
    ∑ i ∈ s, f (update g index value i) + f (g index) = ∑ i ∈ s, f (g i) + f value := by
  have hsum := sum_add_of_eq_of_ne (f := fun i => f (g i)) (g := fun i => f (update g index value i)) hmem
    fun other hne => by rw [update_of_ne hne]
  rwa [update_self] at hsum

end Sums

namespace Book

variable {Tid Obj : Type}

section Operations

def assign [DecidableEq Obj] (book : Book Tid Obj) (obj : Obj) (stage : Stage Tid) : Book Tid Obj :=
  { book with stage := Function.update book.stage obj stage }

variable [DecidableEq Tid]

def move (book : Book Tid Obj) (thread : Tid) (refs placed : Obj → Nat) : Book Tid Obj :=
  { book with placed := placed, held := Function.update book.held thread refs }

variable [DecidableEq Obj]

def take (book : Book Tid Obj) (thread : Tid) (obj : Obj) : Book Tid Obj :=
  book.move thread (fun other => book.held thread other + one obj other) book.placed

def drop (book : Book Tid Obj) (thread : Tid) (obj : Obj) : Book Tid Obj :=
  book.move thread (fun other => book.held thread other - one obj other) book.placed

def publish (book : Book Tid Obj) (thread : Tid) (obj : Obj) (stage : Stage Tid) (refs placed : Obj → Nat) :
    Book Tid Obj :=
  (book.move thread refs placed).assign obj stage

/-- The thread has given up the last reference, and what was in the object is now with the thread. -/
def claim (book : Book Tid Obj) (thread : Tid) (obj : Obj) (content : Obj → Nat) : Book Tid Obj :=
  (book.move thread (fun other => book.held thread other - one obj other + content other)
    (fun other => book.placed other - content other)).assign obj (.claimed thread)

end Operations

variable {book book' : Book Tid Obj} {thread other : Tid} {obj : Obj} {refs placed content : Obj → Nat}
  {stage : Stage Tid} {objs : Obj → Prop}

/-! ### What a thread can rely on -/

structure Steady (thread : Tid) (refs : Obj → Nat) (book book' : Book Tid Obj) : Prop where
  shared : ∀ obj, book.stage obj = .shared → 0 < refs obj ∨ book.pinned thread obj →
    book'.stage obj = .shared
  owned : ∀ obj, book.stage obj = .owned thread → book'.stage obj = .owned thread
  live : ∀ obj, 0 < refs obj → (book.stage obj).isLive = true → (book'.stage obj).isLive = true
  free : ∀ obj, 0 < refs obj → book.stage obj = .free →
    book'.stage obj = .free ∨ (book'.stage obj).isLive = true
  pinned : book'.pinned thread = book.pinned thread

structure Apart (thread : Tid) (book book' : Book Tid Obj) : Prop
    extends Steady thread (book.held thread) book book' where
  held : book'.held thread = book.held thread
  mine : ∀ obj, (book.stage obj).owner = some thread ∨ (book'.stage obj).owner = some thread →
    book'.stage obj = book.stage obj

theorem Steady.of_stage_eq (hstage : book'.stage = book.stage)
    (hpinned : book'.pinned thread = book.pinned thread) : Steady thread refs book book' where
  shared obj hobj _ := by rw [hstage, hobj]
  owned obj hobj := by rw [hstage, hobj]
  live obj _ hobj := by rw [hstage, hobj]
  free obj _ hobj := by rw [hstage]; exact .inl hobj
  pinned := hpinned

theorem Apart.of_stage_eq (hstage : book'.stage = book.stage) (hpinned : book'.pinned thread = book.pinned thread)
    (hheld : book'.held thread = book.held thread) : Apart thread book book' where
  toSteady := .of_stage_eq hstage hpinned
  held := hheld
  mine obj _ := by rw [hstage]

section Assign

variable [DecidableEq Obj]

theorem Steady.assign (hsteady : Steady thread refs book book')
    (hshared : book'.stage obj = .shared → 0 < refs obj ∨ book.pinned thread obj → stage = .shared)
    (howned : book'.stage obj ≠ .owned thread)
    (hlive : 0 < refs obj → (book'.stage obj).isLive = true → stage.isLive = true)
    (hfree : 0 < refs obj → book'.stage obj = .free → stage = .free ∨ stage.isLive = true) :
    Steady thread refs book (book'.assign obj stage) := by
  have hself : (book'.assign obj stage).stage obj = stage := update_self _ _ _
  have hother : ∀ other, other ≠ obj → (book'.assign obj stage).stage other = book'.stage other :=
    fun other hne => update_of_ne hne _ _
  refine ⟨fun found hfound huse => ?_, fun found hfound => ?_, fun found hrefs hfound => ?_,
    fun found hrefs hfound => ?_, hsteady.pinned⟩
  · have hstill := hsteady.shared found hfound huse
    by_cases heq : found = obj
    · subst heq
      exact hself.trans (hshared hstill huse)
    · exact (hother found heq).trans hstill
  · have hstill := hsteady.owned found hfound
    have hne : found ≠ obj := by
      rintro rfl
      exact howned hstill
    exact (hother found hne).trans hstill
  · have hstill := hsteady.live found hrefs hfound
    by_cases heq : found = obj
    · subst heq
      rw [hself]
      exact hlive hrefs hstill
    · rwa [hother found heq]
  · have hstill := hsteady.free found hrefs hfound
    by_cases heq : found = obj
    · subst heq
      rw [hself]
      exact hstill.elim (hfree hrefs) fun hnow => .inr (hlive hrefs hnow)
    · rwa [hother found heq]

theorem Apart.assign (hapart : Apart thread book book')
    (hshared : book'.stage obj = .shared → 0 < book.held thread obj ∨ book.pinned thread obj → stage = .shared)
    (howner : (book'.stage obj).owner ≠ some thread) (howner' : stage.owner ≠ some thread)
    (hlive : 0 < book.held thread obj → (book'.stage obj).isLive = true → stage.isLive = true)
    (hfree : 0 < book.held thread obj → book'.stage obj = .free → stage = .free ∨ stage.isLive = true) :
    Apart thread book (book'.assign obj stage) where
  toSteady := hapart.toSteady.assign hshared (fun howned => howner (by rw [howned]; rfl)) hlive hfree
  held := hapart.held
  mine found hfound := by
    by_cases heq : found = obj
    · subst heq
      simp only [Book.assign, update_self] at hfound
      rcases hfound with hfound | hfound
      · have hmine := hapart.mine found (.inl hfound)
        exact absurd (hmine ▸ hfound) howner
      · exact absurd hfound howner'
    · simp only [Book.assign, update_of_ne heq] at hfound ⊢
      exact hapart.mine found hfound

end Assign

/-! ### Counting -/

section Counting

variable [Fintype Tid]

def total (book : Book Tid Obj) (obj : Obj) : Nat :=
  book.placed obj + ∑ thread, book.held thread obj

structure Valid (book : Book Tid Obj) : Prop where
  placed : ∀ obj, 0 < book.placed obj → book.stage obj = .shared
  alive : ∀ obj, (book.stage obj).isCounted = true → 0 < book.total obj
  kept : ∀ obj thread, (book.stage obj).keeper = some thread → 0 < book.held thread obj

theorem held_le_total (book : Book Tid Obj) (thread : Tid) (obj : Obj) :
    book.placed obj + book.held thread obj ≤ book.total obj := by
  have hle := single_le_sum (f := fun t => book.held t obj) (fun t _ => Nat.zero_le _) (mem_univ thread)
  simp only [total]
  omega

theorem Valid.assign [DecidableEq Obj] (hvalid : book.Valid) (hplaced : 0 < book.placed obj → stage = .shared)
    (halive : stage.isCounted = true → 0 < book.total obj)
    (hkept : ∀ keeper, stage.keeper = some keeper → 0 < book.held keeper obj) :
    (book.assign obj stage).Valid := by
  have hself : (book.assign obj stage).stage obj = stage := update_self _ _ _
  have hother : ∀ other, other ≠ obj → (book.assign obj stage).stage other = book.stage other :=
    fun other hne => update_of_ne hne _ _
  refine ⟨fun found hfound => ?_, fun found hfound => ?_, fun found keeper hkeeper => ?_⟩
  · by_cases heq : found = obj
    · subst heq
      exact hself.trans (hplaced hfound)
    · exact (hother found heq).trans (hvalid.placed found hfound)
  · by_cases heq : found = obj
    · subst heq
      exact halive (hself ▸ hfound)
    · exact hvalid.alive found (hother found heq ▸ hfound)
  · by_cases heq : found = obj
    · subst heq
      exact hkept keeper (hself ▸ hkeeper)
    · exact hvalid.kept found keeper (hother found heq ▸ hkeeper)

variable [DecidableEq Tid]

theorem total_move (book : Book Tid Obj) (thread : Tid) (refs placed : Obj → Nat) (obj : Obj) :
    (book.move thread refs placed).total obj + (book.placed obj + book.held thread obj) =
      book.total obj + (placed obj + refs obj) := by
  have hsum := sum_update_add (mem_univ thread) (· obj) book.held refs
  simp only [total, move]
  omega

theorem held_eq_zero (hne : other ≠ thread) (htotal : book.total obj = 1)
    (hheld : 0 < book.held thread obj) : book.held other obj = 0 := by
  have hsum := sum_update_add (mem_univ thread) (· obj) book.held fun _ => 0
  have hle := single_le_sum (f := fun t => update book.held thread (fun _ => 0) t obj)
    (fun t _ => Nat.zero_le _) (mem_univ other)
  rw [update_of_ne hne] at hle
  simp only [total] at htotal hsum
  omega

theorem Valid.move (hvalid : book.Valid) (hplaced : ∀ obj, 0 < placed obj → book.stage obj = .shared)
    (halive : ∀ obj, (book.stage obj).isCounted = true → 0 < (book.move thread refs placed).total obj)
    (hkept : ∀ obj, (book.stage obj).keeper = some thread → 0 < refs obj) :
    (book.move thread refs placed).Valid where
  placed := hplaced
  alive := halive
  kept obj keeper hkeeper := by
    by_cases heq : keeper = thread
    · subst heq
      simpa [Book.move] using hkept obj hkeeper
    · simpa [Book.move, update_of_ne heq] using hvalid.kept obj keeper hkeeper

end Counting

/-! ### One reference more or less -/

section One

variable [DecidableEq Obj]

@[simp]
theorem one_self : one obj obj = 1 := by
  simp [one]

theorem one_of_ne {other : Obj} (hne : other ≠ obj) : one obj other = 0 := by
  simp [one, hne]

theorem one_le (hheld : 0 < book.held thread obj) (other : Obj) : one obj other ≤ book.held thread other := by
  by_cases heq : other = obj
  · subst heq
    rw [one_self]
    exact hheld
  · rw [one_of_ne heq]
    exact Nat.zero_le _

variable [Fintype Tid] [DecidableEq Tid]

theorem total_take (book : Book Tid Obj) (thread : Tid) (obj other : Obj) :
    (book.take thread obj).total other = book.total other + one obj other := by
  have hmove := book.total_move thread (fun other => book.held thread other + one obj other) book.placed other
  simp only [take]
  omega

theorem total_drop (hheld : 0 < book.held thread obj) (other : Obj) :
    (book.drop thread obj).total other + one obj other = book.total other := by
  have hmove := book.total_move thread (fun other => book.held thread other - one obj other) book.placed other
  have hle := one_le hheld other
  simp only [drop]
  omega

theorem total_claim (hheld : 0 < book.held thread obj)
    (hcontent : ∀ other, content other ≤ book.placed other) (other : Obj) :
    (book.claim thread obj content).total other + one obj other = book.total other := by
  have hmove := book.total_move thread (fun other => book.held thread other - one obj other + content other)
    (fun other => book.placed other - content other) other
  have hle := one_le hheld other
  have hle' := hcontent other
  have hassign : (book.claim thread obj content).total other = (book.move thread
      (fun other => book.held thread other - one obj other + content other)
      (fun other => book.placed other - content other)).total other := rfl
  omega

theorem Valid.take (hvalid : book.Valid) : (book.take thread obj).Valid := by
  refine hvalid.move hvalid.placed (fun other hcounted => ?_) (fun other hkeeper => ?_)
  · have htotal := book.total_take thread obj other
    have halive := hvalid.alive other hcounted
    rw [Book.take] at htotal
    omega
  · have hkept := hvalid.kept other thread hkeeper
    omega

theorem Valid.drop (hvalid : book.Valid) (hheld : 0 < book.held thread obj)
    (htotal : (book.stage obj).isCounted = true → 1 < book.total obj)
    (hkeeper : (book.stage obj).keeper = some thread → 1 < book.held thread obj) :
    (book.drop thread obj).Valid := by
  refine hvalid.move hvalid.placed (fun other hcounted => ?_) (fun other hother => ?_)
  · have hdrop := total_drop hheld other
    have halive := hvalid.alive other hcounted
    rw [Book.drop] at hdrop
    by_cases heq : other = obj
    · subst heq
      have hmore := htotal hcounted
      rw [one_self] at hdrop
      omega
    · rw [one_of_ne heq] at hdrop
      omega
  · have hkept := hvalid.kept other thread hother
    by_cases heq : other = obj
    · subst heq
      have hmore := hkeeper hother
      rw [one_self]
      omega
    · rw [one_of_ne heq]
      omega

theorem Valid.claim (hvalid : book.Valid) (hheld : 0 < book.held thread obj)
    (htotal : book.total obj = 1) (hcontent : ∀ other, content other ≤ book.placed other) :
    (book.claim thread obj content).Valid := by
  have hempty : book.placed obj = 0 := by
    have hle := book.held_le_total thread obj
    omega
  refine ⟨fun other hother => ?_, fun other hother => ?_, fun other keeper hother => ?_⟩
  · have hplaced : 0 < book.placed other - content other := hother
    have hne : other ≠ obj := by
      rintro rfl
      omega
    exact (update_of_ne hne _ _).trans (hvalid.placed other (by omega))
  · have hclaim := total_claim hheld hcontent other
    by_cases heq : other = obj
    · subst heq
      simp [Book.claim, Book.assign, Stage.isCounted] at hother
    · simp only [Book.claim, Book.assign, update_of_ne heq] at hother
      have halive := hvalid.alive other hother
      rw [one_of_ne heq] at hclaim
      omega
  · by_cases heq : other = obj
    · subst heq
      simp [Book.claim, Book.assign, Stage.keeper] at hother
    · simp only [Book.claim, Book.assign, update_of_ne heq] at hother
      have hkept := hvalid.kept other keeper hother
      by_cases hthread : keeper = thread
      · subst hthread
        simp only [Book.claim, Book.assign, Book.move, update_self, one_of_ne heq]
        omega
      · simpa [Book.claim, Book.assign, Book.move, update_of_ne hthread] using hkept

end One

/-! ### Publishing -/

section Publish

variable [DecidableEq Tid] [DecidableEq Obj]

@[simp]
theorem stage_publish_self : (book.publish thread obj stage refs placed).stage obj = stage :=
  update_self _ _ _

theorem stage_publish_of_ne {found : Obj} (hne : found ≠ obj) :
    (book.publish thread obj stage refs placed).stage found = book.stage found :=
  update_of_ne hne _ _

variable (howned : book.stage obj = .owned thread) (hcounted : stage.isCounted = true)

include howned hcounted

theorem stage_publish_iff {uncounted : Stage Tid} (huncounted : uncounted.isCounted = false)
    (hne : uncounted ≠ .owned thread) (found : Obj) :
    (book.publish thread obj stage refs placed).stage found = uncounted ↔ book.stage found = uncounted := by
  by_cases heq : found = obj
  · subst heq
    rw [stage_publish_self, howned]
    constructor
    · rintro rfl
      simp [hcounted] at huncounted
    · exact fun heq => absurd heq.symm hne
  · rw [stage_publish_of_ne heq]

theorem apart_publish (hne : other ≠ thread) : Apart other book (book.publish thread obj stage refs placed) := by
  have hlive := Stage.isLive_of_isCounted hcounted
  have hmove : Apart other book (book.move thread refs placed) :=
    .of_stage_eq rfl rfl (by simp [move, update_of_ne hne])
  have hstage : (book.move thread refs placed).stage obj = .owned thread := howned
  refine hmove.assign ?_ ?_ ?_ (fun _ _ => hlive) fun _ _ => .inr hlive
  · simp [hstage]
  · simpa [hstage, Stage.owner, Stage.keeper] using hne.symm
  · simp [Stage.owner_of_isCounted hcounted]

end Publish

/-! ### What the operations are to the other threads -/

section Others

variable [DecidableEq Tid]

theorem apart_move (hne : other ≠ thread) : Apart other book (book.move thread refs placed) :=
  .of_stage_eq rfl rfl (by simp [move, update_of_ne hne])

variable [DecidableEq Obj] [Fintype Tid]

theorem apart_claim (hne : other ≠ thread) (hheld : 0 < book.held thread obj)
    (hcounted : (book.stage obj).isCounted = true) (htotal : book.total obj = 1)
    (hunpinned : ¬ book.pinned other obj) : Apart other book (book.claim thread obj content) := by
  have hzero := held_eq_zero hne htotal hheld
  refine (apart_move hne).assign ?_ ?_ ?_ ?_ ?_
  · exact fun _ huse => huse.elim (fun hpos => absurd hpos (by omega)) fun hpin => absurd hpin hunpinned
  · exact fun howner => by simp [move, Stage.owner_of_isCounted hcounted] at howner
  · simpa [Stage.owner] using hne.symm
  · exact fun hpos => absurd hpos (by omega)
  · exact fun hpos => absurd hpos (by omega)

theorem steady_claim (hheld : 0 < book.held thread obj) (hcounted : (book.stage obj).isCounted = true)
    (htotal : book.total obj = 1) (hcontent : ∀ other, content other ≤ book.placed other)
    (hunpinned : ¬ book.pinned thread obj)
    (hrefs : refs obj ≤ (book.claim thread obj content).held thread obj) :
    Steady thread refs book (book.claim thread obj content) := by
  have hnone : refs obj = 0 := by
    have hle := book.held_le_total thread obj
    have hempty := hcontent obj
    simp only [claim, assign, move, update_self, one_self] at hrefs
    omega
  have hsame : Steady thread refs book (book.move thread
      (fun other => book.held thread other - one obj other + content other)
      (fun other => book.placed other - content other)) := .of_stage_eq rfl rfl
  refine hsame.assign ?_ ?_ ?_ ?_
  · exact fun _ huse => huse.elim (fun hpos => absurd hpos (by omega)) fun hpin => absurd hpin hunpinned
  · intro howned
    replace howned : book.stage obj = .owned thread := howned
    simp [howned, Stage.isCounted] at hcounted
  · exact fun hpos => absurd hpos (by omega)
  · exact fun hpos => absurd hpos (by omega)

end Others

end Book

end Lfmr.Concurrency.RefCount
