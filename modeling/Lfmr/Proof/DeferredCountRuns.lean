import Lfmr.DeferredCounts

/-!
# The deferred counts are exact

Apart from the allocation of an object and the cleaning of a list, every call adds one reference at most,
to an object that has not been freed, and one to its count. Cleaning takes a decrement from the list and one
from the count.
-/

namespace Lfmr.DeferredCounts

open Function Lfmr.Concurrency Finset

variable {Root Tid : Type} {state state' : State Root Tid} {thread : Tid} {epoch : Epoch} {loc : Loc Root}
  {object other y z : Addr} {p : Ptr} {index : Tid × Epoch} {rest : List Ptr}

/-! ### References -/

namespace Ptr

theorem refs_of (y object : Addr) : (of y).refs object = if y = object then 1 else 0 := rfl

@[simp]
theorem refs_freeze (p : Ptr) : p.freeze.refs = p.refs := rfl

theorem refs_null (hobject : object ≠ 0) : null.refs object = 0 := if_neg hobject.symm

end Ptr

theorem count_cons_of (y object : Addr) (rest : List Ptr) :
    (Ptr.of y :: rest).count (.of object) = rest.count (.of object) + (Ptr.of y).refs object := by
  rw [List.count_cons, Ptr.refs_of]
  simp only [Ptr.of, beq_iff_eq, Ptr.mk.injEq, and_true]

/-! ### What changes a count -/

theorem State.rc_setRc (state : State Root Tid) (object : Addr) (rc : UInt32) :
    (state.setRc object rc).rc = update state.rc object rc := rfl

theorem toNat_succ {rc : UInt32} (hrc : rc ≠ 4294967295) : (rc + 1).toNat = rc.toNat + 1 := by
  have hlt := rc.toNat_lt
  have hne : rc.toNat ≠ 4294967295 := fun h => hrc (UInt32.toNat_inj.mp h)
  rw [UInt32.toNat_add, UInt32.toNat_one]
  exact Nat.mod_eq_of_lt (by omega)

theorem toNat_pred {rc : UInt32} (hrc : rc ≠ 0) : (rc - 1).toNat + 1 = rc.toNat := by
  have hpos : 1 ≤ rc.toNat := Nat.one_le_iff_ne_zero.mpr fun hzero => hrc (UInt32.toNat_inj.mp hzero)
  have hle : (1 : UInt32) ≤ rc := UInt32.le_iff_toNat_le.mpr hpos
  rw [UInt32.toNat_sub_of_le _ _ hle]
  exact Nat.sub_add_cancel hpos

theorem rc_incRc (hrc : z ≠ 0 → state.rc z ≠ 4294967295) (hobject : object ≠ 0) :
    ((incRc z state).rc object).toNat = (state.rc object).toNat + (Ptr.of z).refs object := by
  rw [incRc, Ptr.refs_of]
  by_cases hz : z = 0
  · have hother : z ≠ object := fun h => hobject (h.symm.trans hz)
    rw [if_pos hz, if_neg hother]
    rfl
  · rw [if_neg hz, State.rc_setRc]
    by_cases heq : z = object
    · subst heq
      rw [if_pos rfl, update_self, toNat_succ (hrc hz)]
    · rw [if_neg heq, update_of_ne fun h => heq h.symm]
      rfl

theorem rc_decrement (hrc : state.rc y ≠ 0) (object : Addr) :
    ((state.setRc y (state.rc y - 1)).rc object).toNat + (Ptr.of y).refs object = (state.rc object).toNat := by
  rw [State.rc_setRc, Ptr.refs_of]
  by_cases heq : y = object
  · subst heq
    rw [update_self, if_pos rfl, toNat_pred hrc]
  · rw [update_of_ne (Ne.symm heq), if_neg heq]
    rfl

/-! ### What the parts of a call leave alone -/

theorem incRc_eq (z : Addr) (state : State Root Tid) : incRc z state = { state with rc := (incRc z state).rc } := by
  unfold incRc
  split <;> rfl

theorem prePublish_eq (hz : z ≠ 0) (state : State Root Tid) : prePublish z state =
      { state with rc := (incRc z state).rc, published := update state.published z true } := by
  rw [prePublish, if_neg hz, incRc, if_neg hz, incRc, if_neg hz]
  rfl

theorem unprePublish_prePublish (hz : state.hasUnpublished z = true) : unprePublish z (prePublish z state) = state := by
  by_cases hzero : z = 0
  · rw [unprePublish, if_pos hzero, prePublish, if_pos hzero]
  · have hunpublished : z ∈ state.live ∧ state.published z = false := (of_decide_eq_true hz).resolve_left hzero
    rw [unprePublish, if_neg hzero, prePublish, if_neg hzero, incRc, if_neg hzero]
    simp only [State.setPublished, State.setRc, update_self, UInt32.add_sub_cancel, update_idem, update_eq_self]
    rw [← hunpublished.2, update_eq_self]

def counted (z : Addr) (published : Addr → Bool) (state : State Root Tid) : State Root Tid :=
  { state with rc := (incRc z state).rc, published := published }

theorem incRc_eq_counted (z : Addr) (state : State Root Tid) : incRc z state = counted z state.published state :=
  incRc_eq z state

theorem prePublish_eq_counted (z : Addr) (state : State Root Tid) :
    ∃ published, prePublish z state = counted z published state ∧
      ∀ object, published object = true → state.published object = true ∨ object = z := by
  by_cases hz : z = 0
  · refine ⟨state.published, ?_, fun _ => Or.inl⟩
    rw [← incRc_eq_counted, prePublish, if_pos hz, incRc, if_pos hz]
  · refine ⟨_, prePublish_eq hz state, fun object hpublished => ?_⟩
    by_cases heq : object = z
    · exact Or.inr heq
    · rw [update_of_ne heq] at hpublished
      exact Or.inl hpublished

theorem read_counted (z : Addr) (published : Addr → Bool) (state : State Root Tid) (loc : Loc Root) :
    (counted z published state).read loc = state.read loc := by
  cases loc <;> rfl

theorem rc_ne_max (hsmall : ∀ object ∈ state.live, state.rc object ≠ 4294967295) (hz : state.hasObject z = true) :
    z ≠ 0 → state.rc z ≠ 4294967295 :=
  fun hne => hsmall z ((of_decide_eq_true hz).resolve_left hne)

theorem hasObject_of_hasUnpublished (hz : state.hasUnpublished z = true) : state.hasObject z = true :=
  decide_eq_true ((of_decide_eq_true hz).imp_right And.left)

theorem hasObject_zero (state : State Root Tid) : state.hasObject 0 = true := decide_eq_true (Or.inl rfl)

/-! ### The invariant -/

section

variable [Fintype Root] [Fintype Tid]

structure Inv (state : State Root Tid) : Prop where
  rc : ∀ object ∈ state.live, (state.rc object).toNat = state.number object
  kept : ∀ object ∈ state.live, state.published object = true → state.number object ≠ 0
  freed : ∀ object, object ≠ 0 → object ∉ state.live → state.number object = 0
  entries : ∀ index, ∀ p ∈ state.limboList index, p.frozen = false ∧ p.value ≠ 0
  zero : 0 ∉ state.live

structure Gains (state state' : State Root Tid) (z : Addr) : Prop where
  live : state'.live = state.live
  rc : ∀ object ≠ 0, (state'.rc object).toNat = (state.rc object).toNat + (Ptr.of z).refs object
  number : ∀ object ≠ 0, state'.number object = state.number object + (Ptr.of z).refs object
  published : ∀ object, state'.published object = true → state.published object = true ∨ object = z
  entries : ∀ index, ∀ p ∈ state'.limboList index, p ∈ state.limboList index ∨ p.frozen = false ∧ p.value ≠ 0

def GainsObject (state state' : State Root Tid) : Prop := ∃ z, Gains state state' z ∧ state.hasObject z = true

theorem Inv.gains (h : Inv state) (hgains : GainsObject state state') : Inv state' := by
  obtain ⟨z, hgains, hz⟩ := hgains
  have hobject : z = 0 ∨ z ∈ state.live := of_decide_eq_true hz
  have hne : ∀ object ∈ state.live, object ≠ 0 := fun object hlive hzero => h.zero (hzero ▸ hlive)
  refine ⟨fun object hlive => ?_, fun object hlive hpublished => ?_, fun object hnonzero hfreed => ?_,
    fun index p hp => ?_, hgains.live ▸ h.zero⟩
  · rw [hgains.live] at hlive
    rw [hgains.rc object (hne object hlive), hgains.number object (hne object hlive), h.rc object hlive]
  · rw [hgains.live] at hlive
    rw [hgains.number object (hne object hlive)]
    rcases hgains.published object hpublished with hbefore | rfl
    · have hkept := h.kept object hlive hbefore
      omega
    · rw [Ptr.refs_of, if_pos rfl]
      omega
  · rw [hgains.live] at hfreed
    have hother : z ≠ object := by
      rintro rfl
      exact hobject.elim hnonzero hfreed
    rw [hgains.number object hnonzero, h.freed object hnonzero hfreed, Ptr.refs_of, if_neg hother]
  · rcases hgains.entries index p hp with hbefore | hentry
    · exact h.entries index p hbefore
    · exact hentry

theorem Gains.refl (state : State Root Tid) : Gains state state 0 := by
  have hnone : ∀ object ≠ 0, (Ptr.of 0).refs object = 0 := fun object hobject => Ptr.refs_null hobject
  refine ⟨rfl, fun object hobject => ?_, fun object hobject => ?_, fun _ => Or.inl, fun _ _ => Or.inl⟩
  · rw [hnone object hobject]
    rfl
  · rw [hnone object hobject]
    rfl

theorem number_allocate (hnew : other ∉ state.live) (hobject : object ≠ 0) :
    (state.allocate other).number object = state.number object := by
  have hsum : ∑ x ∈ insert other state.live, (update state.next other .null x).refs object =
      ∑ x ∈ state.live, (state.next x).refs object := by
    rw [sum_insert hnew, update_self, Ptr.refs_null hobject, Nat.zero_add]
    refine sum_congr rfl fun x hx => ?_
    have hne : x ≠ other := fun h => hnew (h ▸ hx)
    rw [update_of_ne hne]
  simp only [State.number, State.fields, State.pending, State.allocate, hsum]

theorem Inv.allocate (h : Inv state) (hnew : other ∉ state.live) (hother : other ≠ 0) : Inv (state.allocate other) := by
  have hzero : 0 ∉ insert other state.live := by
    rw [mem_insert]
    exact fun hmem => hmem.elim (fun h => hother h.symm) h.zero
  refine ⟨fun object hlive => ?_, fun object hlive hpublished => ?_, fun object hobject hfreed => ?_, h.entries, hzero⟩
  · have hobject : object ≠ 0 := fun heq => hzero (heq ▸ hlive)
    rw [number_allocate hnew hobject]
    rcases mem_insert.mp hlive with rfl | hlive
    · rw [h.freed object hobject hnew]
      simp [State.allocate]
    · have hne : object ≠ other := fun heq => hnew (heq ▸ hlive)
      simp only [State.allocate, update_of_ne hne]
      exact h.rc object hlive
  · have hobject : object ≠ 0 := fun heq => hzero (heq ▸ hlive)
    rw [number_allocate hnew hobject]
    rcases mem_insert.mp hlive with rfl | hlive
    · simp [State.allocate] at hpublished
    · have hne : object ≠ other := fun heq => hnew (heq ▸ hlive)
      simp only [State.allocate, update_of_ne hne] at hpublished
      exact h.kept object hlive hpublished
  · rw [number_allocate hnew hobject]
    exact h.freed object hobject fun hlive => hfreed (mem_insert_of_mem hlive)

theorem Inv.initial : Inv (initial : State Root Tid) := by
  refine ⟨fun object hlive => absurd hlive (notMem_empty object), fun object hlive => absurd hlive (notMem_empty object),
    fun object hobject _ => ?_, fun index p hp => absurd hp List.not_mem_nil, notMem_empty 0⟩
  simp [State.number, State.fields, State.pending, DeferredCounts.initial, Ptr.refs_null hobject]

theorem Inv.exact (h : Inv state) : Exact state :=
  ⟨fun object hlive _ => h.rc object hlive, h.kept, h.freed⟩

theorem number_free (state : State Root Tid) (hlive : other ∈ state.live) (object : Addr) :
    ({ state with live := state.live.erase other } : State Root Tid).number object + (state.next other).refs object =
      state.number object := by
  have hsum := sum_erase_add state.live (fun x => (state.next x).refs object) hlive
  simp only [State.number, State.fields, State.pending]
  omega

end

/-! ### Cleaning a list -/

section

def Unfrozen (list : List Ptr) (state : State Root Tid) : Prop :=
  ∀ object ∈ state.live, (state.rc object).toNat = list.count (.of object) → .of object ∈ list →
    (state.next object).frozen = false

theorem Unfrozen.decrement (h : Unfrozen (.of y :: rest) state) (hrc : state.rc y ≠ 0) :
    Unfrozen rest (state.setRc y (state.rc y - 1)) := by
  intro object hlive hcount hmem
  refine h object hlive ?_ (List.mem_cons_of_mem _ hmem)
  rw [count_cons_of, ← hcount, rc_decrement hrc object]

structure Progress (state state' : State Root Tid) (thread : Tid) (freed : List Addr) : Prop where
  mem_freed : ∀ object, object ∈ freed ↔ object ∈ state.live ∧ object ∉ state'.live
  nodup : freed.Nodup
  live : state'.live ⊆ state.live
  next : state'.next = state.next
  localEpoch : state'.localEpoch = state.localEpoch
  queued : state'.limboList (thread, state.localEpoch thread) =
    ((freed.map fun object => Ptr.of (state.next object).value).filter (· ≠ .null)).reverse ++
      state.limboList (thread, state.localEpoch thread)
  others : ∀ index, index ≠ (thread, state.localEpoch thread) → state'.limboList index = state.limboList index

theorem Progress.refl (state : State Root Tid) (thread : Tid) : Progress state state thread [] := by
  refine ⟨fun object => ?_, List.nodup_nil, subset_refl _, rfl, rfl, rfl, fun _ _ => rfl⟩
  simp

variable [DecidableEq Tid]

theorem delayDec_eq (thread : Tid) (p : Ptr) (state : State Root Tid) :
    delayDec thread p state = { state with limboList := (delayDec thread p state).limboList } := by
  unfold delayDec
  split <;> rfl

theorem mem_delayDec {index : Tid × Epoch} (hp : p ∈ (delayDec thread (.of y) state).limboList index) :
    p ∈ state.limboList index ∨ p.frozen = false ∧ p.value ≠ 0 := by
  unfold delayDec at hp
  split at hp
  · exact Or.inl hp
  · rename_i hnull
    have hy : y ≠ 0 := fun h => hnull (congrArg Ptr.of h)
    by_cases hindex : index = (thread, state.localEpoch thread)
    · subst hindex
      simp only [State.setList, update_self] at hp
      rcases List.mem_cons.mp hp with rfl | hp
      · exact Or.inr ⟨rfl, hy⟩
      · exact Or.inl hp
    · simp only [State.setList, update_of_ne hindex] at hp
      exact Or.inl hp

theorem mem_setList_of_mem {at' : Tid × Epoch} (hp : p ∈ (state.setList index rest).limboList at') (q : Ptr) :
    p ∈ (state.setList index (q :: rest)).limboList at' := by
  by_cases heq : at' = index
  · subst heq
    simp only [State.setList, update_self] at hp ⊢
    exact List.mem_cons_of_mem _ hp
  · simp only [State.setList, update_of_ne heq] at hp ⊢
    exact hp

theorem delayDec_setList (hindex : index ≠ (thread, state.localEpoch thread)) (p : Ptr) (rest : List Ptr) :
    (delayDec thread p state).setList index rest = delayDec thread p (state.setList index rest) := by
  unfold delayDec
  split
  · rfl
  · have hlist : (state.setList index rest).limboList (thread, state.localEpoch thread) =
        state.limboList (thread, state.localEpoch thread) := update_of_ne (Ne.symm hindex) _ _
    dsimp only
    rw [show (state.setList index rest).localEpoch = state.localEpoch from rfl, hlist]
    simp only [State.setList, update_comm hindex]

def afterFree (thread : Tid) (y : Addr) (state : State Root Tid) : State Root Tid :=
  let queued := delayDec thread (state.next y) (state.setRc y (state.rc y - 1))
  { queued with live := queued.live.erase y }

theorem afterFree_eq (thread : Tid) (y : Addr) (state : State Root Tid) : afterFree thread y state = { state with
        rc := update state.rc y (state.rc y - 1)
        live := state.live.erase y
        limboList := (delayDec thread (state.next y) state).limboList } := by
  unfold afterFree delayDec
  dsimp only
  split <;> rfl

theorem afterFree_setList (hindex : index ≠ (thread, state.localEpoch thread)) (y : Addr) (rest : List Ptr) :
    (afterFree thread y state).setList index rest = afterFree thread y (state.setList index rest) := by
  have hdelay := congrArg State.limboList (delayDec_setList hindex (state.next y) rest)
  rw [afterFree_eq, afterFree_eq]
  exact congrArg (fun lists => { state with
    rc := update state.rc y (state.rc y - 1), live := state.live.erase y, limboList := lists }) hdelay

theorem cleanOne_eq_decrement (hy : y ∈ state.live) (hrc : state.rc y ≠ 0) (hlast : state.rc y ≠ 1) :
    cleanOne thread state (.of y) = some (state.setRc y (state.rc y - 1)) := by
  rw [cleanOne, if_pos ⟨rfl, hy, hrc⟩]
  exact if_neg hlast

theorem cleanOne_eq_free (hy : y ∈ state.live) (hlast : state.rc y = 1) :
    cleanOne thread state (.of y) = some (afterFree thread y state) := by
  have hrc : state.rc y ≠ 0 := by
    rw [hlast]
    decide
  rw [cleanOne, if_pos ⟨rfl, hy, hrc⟩]
  exact if_pos hlast

theorem Unfrozen.free (h : Unfrozen (.of y :: rest) state) : Unfrozen rest (afterFree thread y state) := by
  rw [afterFree_eq]
  intro object hlive hcount hmem
  obtain ⟨hne, hlive⟩ := mem_erase.mp hlive
  refine h object hlive ?_ (List.mem_cons_of_mem _ hmem)
  rw [count_cons_of, Ptr.refs_of, if_neg (Ne.symm hne), Nat.add_zero, ← hcount]
  exact congrArg UInt32.toNat (update_of_ne hne _ _).symm

theorem limboList_afterFree (thread : Tid) (y : Addr) (state : State Root Tid) :
    (afterFree thread y state).limboList (thread, state.localEpoch thread) =
      ([state.next y].filter (· ≠ .null)) ++ state.limboList (thread, state.localEpoch thread) := by
  rw [afterFree_eq]
  unfold delayDec
  split
  · next hnull => simp [hnull]
  · next hnull => simp [hnull, State.setList]

theorem Progress.free {freed : List Addr} (hy : y ∈ state.live) (hfrozen : (state.next y).frozen = false)
    (h : Progress (afterFree thread y state) state' thread freed) : Progress state state' thread (y :: freed) := by
  have hstate := afterFree_eq thread y state
  have hlive : state'.live ⊆ state.live.erase y := by
    have hsubset := h.live
    rwa [hstate] at hsubset
  have hmem : ∀ object, object ∈ freed ↔ object ∈ state.live.erase y ∧ object ∉ state'.live := by
    have hfreed := h.mem_freed
    rwa [hstate] at hfreed
  have hnext : state.next y = .of (state.next y).value := by rw [Ptr.of, ← hfrozen]
  have hgone : y ∉ state'.live := fun hmem => (mem_erase.mp (hlive hmem)).1 rfl
  refine ⟨fun object => ?_, List.nodup_cons.mpr ⟨fun hin => ?_, h.nodup⟩, fun object hobject => ?_, ?_, ?_, ?_,
    fun index hindex => ?_⟩
  · rw [List.mem_cons, hmem]
    constructor
    · rintro (rfl | ⟨hobject, hnot⟩)
      · exact ⟨hy, hgone⟩
      · exact ⟨mem_of_mem_erase hobject, hnot⟩
    · rintro ⟨hobject, hnot⟩
      by_cases heq : object = y
      · exact Or.inl heq
      · exact Or.inr ⟨mem_erase.mpr ⟨heq, hobject⟩, hnot⟩
  · exact (mem_erase.mp ((hmem y).mp hin).1).1 rfl
  · exact mem_of_mem_erase (hlive hobject)
  · rw [h.next, hstate]
  · rw [h.localEpoch, hstate]
  · have hqueued := h.queued
    have hlocal : (afterFree thread y state).localEpoch = state.localEpoch := by rw [hstate]
    have hnextState : (afterFree thread y state).next = state.next := by rw [hstate]
    rw [hlocal, hnextState, limboList_afterFree, hnext] at hqueued
    rw [hqueued, List.map_cons]
    by_cases hnull : Ptr.of (state.next y).value = .null
    · simp [hnull]
    · simp [hnull]
  · have hothers := h.others index
    rw [hstate] at hothers
    refine (hothers hindex).trans ?_
    unfold delayDec
    split
    · rfl
    · exact update_of_ne hindex _ _

variable [Fintype Root] [Fintype Tid]

theorem State.number_setList (state : State Root Tid) (index : Tid × Epoch) (list : List Ptr) (object : Addr) :
    (state.setList index list).number object + (state.limboList index).count (.of object) =
      state.number object + list.count (.of object) := by
  have hsum := RefCount.sum_update_add (mem_univ index) (·.count (.of object)) state.limboList list
  simp only [number, fields, pending, setList]
  omega

theorem State.number_delayDec (state : State Root Tid) (thread : Tid) (y : Addr) (hobject : object ≠ 0) :
    (delayDec thread (.of y) state).number object = state.number object + (Ptr.of y).refs object := by
  unfold delayDec
  split
  · rename_i hnull
    rw [hnull, Ptr.refs_null hobject]
    rfl
  · have hset := number_setList state (thread, state.localEpoch thread)
      (.of y :: state.limboList (thread, state.localEpoch thread)) object
    rw [List.count_cons] at hset
    have hcount : (if (Ptr.of y == Ptr.of object) = true then 1 else 0) = (Ptr.of y).refs object := by
      rw [Ptr.refs_of]
      simp only [Ptr.of, beq_iff_eq, Ptr.mk.injEq, and_true]
    rw [hcount] at hset
    dsimp only
    omega

theorem gains_vain (thread : Tid) (hrc : z ≠ 0 → state.rc z ≠ 4294967295) :
    Gains state (delayDec thread (.of z) (incRc z state)) z := by
  rw [incRc_eq_counted]
  refine ⟨?_, fun object hobject => ?_, fun object hobject => ?_, fun object hobject => ?_, fun index p hp => ?_⟩
  · rw [delayDec_eq]
    rfl
  · rw [← rc_incRc hrc hobject, delayDec_eq]
    rfl
  · exact State.number_delayDec _ _ _ hobject
  · rw [delayDec_eq] at hobject
    exact Or.inl hobject
  · have hmem := mem_delayDec hp
    exact hmem

theorem number_setList_cons (state : State Root Tid) (index : Tid × Epoch) (rest : List Ptr) (y object : Addr) :
    (state.setList index (.of y :: rest)).number object =
      (state.setList index rest).number object + (Ptr.of y).refs object := by
  have hwith := State.number_setList state index (.of y :: rest) object
  have hwithout := State.number_setList state index rest object
  rw [count_cons_of] at hwith
  omega

theorem count_le_number (state : State Root Tid) (index : Tid × Epoch) (object : Addr) :
    (state.limboList index).count (.of object) ≤ state.number object := by
  have hset := State.number_setList state index [] object
  rw [List.count_nil] at hset
  omega

theorem Inv.head_eq (h : Inv (state.setList index (p :: rest))) : p = .of p.value := by
  have hentry := h.entries index p (by simp [State.setList])
  rw [Ptr.of, ← hentry.1]

theorem Inv.head_live (h : Inv (state.setList index (.of y :: rest))) : y ∈ state.live ∧ state.rc y ≠ 0 := by
  have hentry := h.entries index (.of y) (by simp [State.setList])
  have hnumber : (state.setList index (.of y :: rest)).number y ≠ 0 := by
    rw [number_setList_cons, Ptr.refs_of, if_pos rfl]
    exact Nat.succ_ne_zero _
  have hlive : y ∈ state.live := Classical.byContradiction fun hnot => hnumber (h.freed y hentry.2 hnot)
  refine ⟨hlive, fun hzero => hnumber ?_⟩
  exact (h.rc y hlive).symm.trans (congrArg UInt32.toNat hzero)

theorem Inv.decrement (h : Inv (state.setList index (.of y :: rest))) (hlast : state.rc y ≠ 1) :
    Inv ((state.setRc y (state.rc y - 1)).setList index rest) := by
  obtain ⟨-, hrc⟩ := h.head_live
  have hnumber := number_setList_cons state index rest y
  have hcount := rc_decrement hrc
  refine ⟨fun object hlive => ?_, fun object hlive hpublished => ?_, fun object hnonzero hfreed => ?_,
    fun at' p hp => h.entries at' p (mem_setList_of_mem hp _), h.zero⟩
  · have hbefore := h.rc object hlive
    rw [hnumber object] at hbefore
    exact Nat.add_right_cancel ((hcount object).trans hbefore)
  · have hbefore := h.kept object hlive hpublished
    intro hzero
    have hone : (Ptr.of y).refs object = 1 := by
      have hle : (Ptr.of y).refs object ≤ 1 := by
        unfold Ptr.refs
        split <;> decide
      have hsum : (state.setList index (.of y :: rest)).number object = 0 + (Ptr.of y).refs object :=
        (hnumber object).trans (congrArg (· + _) hzero)
      omega
    have heq : y = object := Classical.byContradiction fun hne => by simp [Ptr.refs_of, hne] at hone
    subst heq
    have hrcNumber := h.rc y hlive
    have hrcOne : (state.rc y).toNat = 1 := hrcNumber.trans ((hnumber y).trans (by rw [hone]; exact congrArg (· + 1) hzero))
    exact hlast (UInt32.toNat_inj.mp hrcOne)
  · have hbefore := h.freed object hnonzero hfreed
    rw [hnumber object] at hbefore
    exact Nat.eq_zero_of_add_eq_zero_right hbefore

theorem number_afterFree (hy : y ∈ state.live) (hfrozen : (state.next y).frozen = false) (hobject : object ≠ 0) :
    (afterFree thread y state).number object = state.number object := by
  have hnext : state.next y = .of (state.next y).value := by rw [Ptr.of, ← hfrozen]
  have hdelay := State.number_delayDec state thread (state.next y).value hobject
  rw [← hnext, delayDec_eq] at hdelay
  have hfree := number_free { state with limboList := (delayDec thread (state.next y) state).limboList } hy object
  rw [afterFree_eq]
  exact Nat.add_right_cancel (hfree.trans hdelay)

theorem Inv.free (h : Inv (state.setList index (.of y :: rest))) (hlast : state.rc y = 1)
    (hindex : index ≠ (thread, state.localEpoch thread)) (hfrozen : (state.next y).frozen = false) :
    Inv ((afterFree thread y state).setList index rest) := by
  obtain ⟨hy, hrc⟩ := h.head_live
  have hnumber : ∀ object ≠ 0, ((afterFree thread y state).setList index rest).number object +
      (Ptr.of y).refs object = (state.setList index (.of y :: rest)).number object := by
    intro object hobject
    rw [number_setList_cons, afterFree_setList hindex]
    exact congrArg (· + _) (number_afterFree hy hfrozen hobject)
  have hother : ∀ object, object ≠ y → (Ptr.of y).refs object = 0 := fun object hne => if_neg (Ne.symm hne)
  have hstate := (afterFree_setList hindex y rest).trans (afterFree_eq _ _ _)
  refine ⟨fun object hlive => ?_, fun object hlive hpublished => ?_, fun object hnonzero hfreed => ?_,
    fun at' p hp => ?_, ?_⟩
  · rw [hstate] at hlive
    obtain ⟨hne, hmem⟩ := mem_erase.mp hlive
    have hobject : object ≠ 0 := fun hzero => h.zero (hzero ▸ hmem)
    have hbefore := h.rc object hmem
    have hnumberObject := hnumber object hobject
    rw [hother object hne] at hnumberObject
    have hrcObject : (((afterFree thread y state).setList index rest).rc object) = state.rc object := by
      rw [hstate]
      exact update_of_ne hne _ _
    rw [hrcObject]
    exact hbefore.trans hnumberObject.symm
  · rw [hstate] at hlive
    obtain ⟨hne, hmem⟩ := mem_erase.mp hlive
    have hobject : object ≠ 0 := fun hzero => h.zero (hzero ▸ hmem)
    have hnumberObject := hnumber object hobject
    rw [hother object hne] at hnumberObject
    rw [hstate] at hpublished
    have hbefore := h.kept object hmem hpublished
    exact fun hzero => hbefore (hnumberObject.symm.trans hzero)
  · have hnumberObject := hnumber object hnonzero
    by_cases heq : object = y
    · subst heq
      have hbefore := h.rc object hy
      have hone : ((state.setList index (.of object :: rest)).rc object).toNat = 1 := congrArg UInt32.toNat hlast
      rw [Ptr.refs_of, if_pos rfl] at hnumberObject
      omega
    · rw [hstate] at hfreed
      have hbefore := h.freed object hnonzero fun hlive => hfreed (mem_erase.mpr ⟨heq, hlive⟩)
      rw [hbefore] at hnumberObject
      exact Nat.eq_zero_of_add_eq_zero_right hnumberObject
  · have hnext : (state.setList index rest).next y = .of (state.next y).value := by
      rw [Ptr.of, ← hfrozen]
      rfl
    rw [hstate, hnext] at hp
    rcases mem_delayDec hp with hbefore | hentry
    · exact h.entries at' p (mem_setList_of_mem hbefore _)
    · exact hentry
  · rw [hstate]
    exact fun hzero => h.zero (mem_of_mem_erase hzero)

theorem Unfrozen.head (h : Unfrozen (.of y :: rest) state) (hinv : Inv (state.setList index (.of y :: rest)))
    (hlast : state.rc y = 1) : (state.next y).frozen = false := by
  obtain ⟨hy, -⟩ := hinv.head_live
  have hrc : (state.rc y).toNat = (state.setList index (.of y :: rest)).number y := hinv.rc y hy
  have hone : (state.rc y).toNat = 1 := congrArg UInt32.toNat hlast
  have hle := count_le_number (state.setList index (.of y :: rest)) index y
  simp only [State.setList, update_self] at hle
  have hpos : 0 < (Ptr.of y :: rest).count (.of y) := List.count_pos_iff.mpr List.mem_cons_self
  refine h y hy ?_ List.mem_cons_self
  rw [hone] at hrc ⊢
  exact Nat.le_antisymm hpos (Nat.le_trans hle (Nat.le_of_eq hrc.symm))

/-- By induction on what is left of the list, which stands for the list itself in the invariant. -/
theorem cleanLoop (hindex : index ≠ (thread, state.localEpoch thread)) (list : List Ptr)
    (hinv : Inv (state.setList index list)) (hunfrozen : Unfrozen list state) :
    ∃ state' freed, list.foldlM (cleanOne thread) state = some state' ∧ Inv (state'.setList index []) ∧
      Progress state state' thread freed := by
  induction list generalizing state with
  | nil => exact ⟨state, [], rfl, hinv, Progress.refl state thread⟩
  | cons p rest ih =>
    obtain hp := hinv.head_eq
    generalize p.value = y at hp
    subst hp
    obtain ⟨hy, hrc⟩ := hinv.head_live
    by_cases hlast : state.rc y = 1
    · have hfrozen := hunfrozen.head hinv hlast
      have hindex' : index ≠ (thread, (afterFree thread y state).localEpoch thread) := by rwa [afterFree_eq]
      obtain ⟨state', freed, hfold, hinv', hprogress⟩ := ih hindex' (hinv.free hlast hindex hfrozen) hunfrozen.free
      refine ⟨state', y :: freed, ?_, hinv', hprogress.free hy hfrozen⟩
      rw [List.foldlM_cons, cleanOne_eq_free hy hlast]
      exact hfold
    · obtain ⟨state', freed, hfold, hinv', hprogress⟩ :=
        ih (show index ≠ (thread, (state.setRc y (state.rc y - 1)).localEpoch thread) from hindex)
          (hinv.decrement hlast) (hunfrozen.decrement hrc)
      refine ⟨state', freed, ?_, hinv', { hprogress with }⟩
      rw [List.foldlM_cons, cleanOne_eq_decrement hy hrc hlast]
      exact hfold

end

/-! ### Every call but two gains a reference at most -/

variable [DecidableEq Root]

section

variable [DecidableEq Tid]

theorem delayDec_write (thread : Tid) (p q : Ptr) (loc : Loc Root) (state : State Root Tid) :
    (delayDec thread p state).write loc q = delayDec thread p (state.write loc q) := by
  unfold delayDec
  cases loc <;> split <;> rfl

theorem exists_of_run {calls : List (Call Root Tid)} {check : State Root Tid → Bool}
    (hrun : (run calls state).any check = true) : ∃ state', run calls state = some state' ∧ check state' = true := by
  rw [Option.any_eq_true_iff_get] at hrun
  obtain ⟨hsome, hcheck⟩ := hrun
  exact ⟨_, (Option.some_get hsome).symm, hcheck⟩

end

variable [Fintype Root] [Fintype Tid]

theorem State.number_write (hloc : state.hasLoc loc = true) (p : Ptr) (object : Addr) :
    (state.write loc p).number object + (state.read loc).refs object = state.number object + p.refs object := by
  cases loc with
  | root root =>
    have hsum := RefCount.sum_update_add (mem_univ root) (Ptr.refs · object) state.root p
    simp only [number, fields, pending, write, read]
    omega
  | next other =>
    have hlive : other ∈ state.live := of_decide_eq_true hloc
    have hsum := RefCount.sum_update_add hlive (Ptr.refs · object) state.next p
    simp only [number, fields, pending, write, read]
    omega

theorem State.refs_read_le_number (hloc : state.hasLoc loc = true) (object : Addr) :
    (state.read loc).refs object ≤ state.number object := by
  have hwrite := number_write hloc ⟨object + 1, false⟩ object
  have hzero : (⟨object + 1, false⟩ : Ptr).refs object = 0 := if_neg (Nat.succ_ne_self object)
  omega

theorem Inv.publish (h : Inv state) (root : Root) : Inv (state.setPublished (state.root root).value true) := by
  refine { h with kept := fun object hlive hpublished => ?_ }
  by_cases heq : object = (state.root root).value
  · have hle : ((state.read (.root root)).refs object) ≤ state.number object := State.refs_read_le_number rfl object
    have hone : ((state.read (.root root)).refs object) = 1 := if_pos heq.symm
    exact Nat.ne_of_gt (Nat.lt_of_lt_of_le Nat.zero_lt_one (hone ▸ hle))
  · simp only [State.setPublished, update_of_ne heq] at hpublished
    exact h.kept object hlive hpublished

theorem gains_fix (hloc : state.hasLoc loc = true) : Gains state (state.write loc (state.read loc).freeze) 0 := by
  have hnone : ∀ object ≠ 0, (Ptr.of 0).refs object = 0 := fun object hobject => Ptr.refs_null hobject
  refine ⟨?_, fun object hobject => ?_, fun object hobject => ?_, fun object hobject => ?_, fun index p hp => ?_⟩
  · cases loc <;> rfl
  · rw [hnone object hobject]
    cases loc <;> rfl
  · have hwrite := State.number_write hloc (state.read loc).freeze object
    rw [Ptr.refs_freeze] at hwrite
    rw [hnone object hobject]
    omega
  · cases loc <;> exact Or.inl hobject
  · cases loc <;> exact Or.inl hp

section

variable {published : Addr → Bool} (hloc : state.hasLoc loc = true) (hrc : z ≠ 0 → state.rc z ≠ 4294967295)
  (hpublished : ∀ object, published object = true → state.published object = true ∨ object = z)

include hloc hrc hpublished

theorem gains_fill (hread : state.read loc = .null) :
    Gains state ((counted z published state).write loc (Ptr.of z).freeze) z := by
  have hlocCounted : (counted z published state).hasLoc loc = true := by
    cases loc <;> exact hloc
  refine ⟨?_, fun object hobject => ?_, fun object hobject => ?_, fun object hobject => ?_, fun index p hp => ?_⟩
  · cases loc <;> rfl
  · rw [← rc_incRc hrc hobject]
    cases loc <;> rfl
  · have hwrite := State.number_write hlocCounted (Ptr.of z).freeze object
    rw [read_counted, hread, Ptr.refs_null hobject] at hwrite
    exact hwrite
  · apply hpublished
    cases loc <;> exact hobject
  · cases loc <;> exact Or.inl hp

variable [DecidableEq Tid]

theorem gains_replace (thread : Tid) (hread : state.read loc = .of y) :
    Gains state (delayDec thread (.of y) ((counted z published state).write loc (.of z))) z := by
  have hlocCounted : (counted z published state).hasLoc loc = true := by
    cases loc <;> exact hloc
  refine ⟨?_, fun object hobject => ?_, fun object hobject => ?_, fun object hobject => ?_, fun index p hp => ?_⟩
  · rw [delayDec_eq]
    cases loc <;> rfl
  · rw [← rc_incRc hrc hobject, delayDec_eq]
    cases loc <;> rfl
  · have hwrite := State.number_write hlocCounted (.of z) object
    rw [read_counted, hread] at hwrite
    rw [State.number_delayDec _ _ _ hobject, hwrite]
    rfl
  · apply hpublished
    rw [delayDec_eq] at hobject
    cases loc <;> exact hobject
  · have hmem := mem_delayDec hp
    cases loc <;> exact hmem

end

section

variable (hsmall : ∀ object ∈ state.live, state.rc object ≠ 4294967295)

include hsmall

theorem gains_casTry (hcas : casTry loc y z state = some state') : GainsObject state state' := by
  unfold casTry at hcas
  dsimp only at hcas
  split at hcas
  · rename_i hvalid
    obtain ⟨hloc, hz⟩ := hvalid
    have hobject := hasObject_of_hasUnpublished hz
    obtain ⟨published, hpre, hpublished⟩ := prePublish_eq_counted z state
    split at hcas
    · rename_i hread
      split at hcas
      · rename_i hy
        cases hcas
        rw [hpre, read_counted, hy] at hread
        rw [hpre]
        exact ⟨z, gains_fill hloc (rc_ne_max hsmall hobject) hpublished hread, hobject⟩
      · cases hcas
    · cases hcas
      rw [unprePublish_prePublish hz]
      exact ⟨0, Gains.refl state, hasObject_zero state⟩
  · cases hcas

end

variable [DecidableEq Tid]

section

variable (hsmall : ∀ object ∈ state.live, state.rc object ≠ 4294967295)

include hsmall

theorem gains_assign (hassign : assign thread loc z state = some state')
    (hlhs : (state.read loc).value = 0 ∨ state.published (state.read loc).value = true) :
    GainsObject state state' := by
  unfold assign at hassign
  dsimp only at hassign
  split at hassign
  · rename_i hvalid
    obtain ⟨hloc, hobject, hfrozen⟩ := hvalid
    have hread : state.read loc = .of (state.read loc).value := by
      rw [Ptr.of, ← hfrozen]
    have hmiddle : (if (state.read loc).value ≠ 0 ∧ (incRc z state).published (state.read loc).value = true then
        delayDec thread (state.read loc) (incRc z state) else incRc z state) =
        delayDec thread (.of (state.read loc).value) (incRc z state) := by
      split
      · rw [← hread]
      · rename_i hnot
        have hzero : (state.read loc).value = 0 := by
          refine Classical.byContradiction fun hne => hnot ⟨hne, ?_⟩
          rw [incRc_eq]
          exact hlhs.resolve_left hne
        rw [hzero]
        exact (if_pos rfl).symm
    rw [hmiddle, incRc_eq_counted, delayDec_write] at hassign
    cases hassign
    exact ⟨z, gains_replace hloc (rc_ne_max hsmall hobject) (fun _ => Or.inl) thread hread, hobject⟩
  · cases hassign

theorem gains_casPublish (hcas : casPublish thread loc y z state = some state') : GainsObject state state' := by
  unfold casPublish at hcas
  dsimp only at hcas
  split at hcas
  · rename_i hvalid
    obtain ⟨hloc, hz⟩ := hvalid
    have hobject := hasObject_of_hasUnpublished hz
    obtain ⟨published, hpre, hpublished⟩ := prePublish_eq_counted z state
    split at hcas
    · rename_i hread
      cases hcas
      rw [hpre, read_counted] at hread
      rw [hpre]
      exact ⟨z, gains_replace hloc (rc_ne_max hsmall hobject) hpublished thread hread, hobject⟩
    · cases hcas
      rw [unprePublish_prePublish hz]
      exact ⟨0, Gains.refl state, hasObject_zero state⟩
  · cases hcas

theorem gains_casUnlink (hcas : casUnlink thread loc y z state = some state') : GainsObject state state' := by
  unfold casUnlink at hcas
  dsimp only at hcas
  split at hcas
  · rename_i hvalid
    obtain ⟨hloc, hz⟩ := hvalid
    refine ⟨z, ?_, hz⟩
    split at hcas
    · rename_i hread
      cases hcas
      rw [incRc_eq_counted, read_counted] at hread
      rw [incRc_eq_counted]
      exact gains_replace hloc (rc_ne_max hsmall hz) (fun _ => Or.inl) thread hread
    · cases hcas
      exact gains_vain thread (rc_ne_max hsmall hz)
  · cases hcas

end

/-! ### Sequences of calls -/

theorem Inv.clean (h : Inv state) (hepoch : epoch ≠ state.localEpoch thread)
    (hunfrozen : Unfrozen (state.limboList (thread, epoch)) state) :
    ∃ state' freed, step state (.clean thread epoch) = some state' ∧ Inv state' ∧
      Cleaned state state' thread epoch freed := by
  have hindex : (thread, epoch) ≠ (thread, state.localEpoch thread) := fun heq => hepoch (congrArg Prod.snd heq)
  have hinv : Inv (state.setList (thread, epoch) (state.limboList (thread, epoch))) := by
    rwa [State.setList, update_eq_self]
  obtain ⟨state', freed, hfold, hinv', hprogress⟩ := cleanLoop hindex _ hinv hunfrozen
  refine ⟨{ state'.setList (thread, epoch) [] with localEpoch := update state'.localEpoch thread epoch }, freed,
    ?_, { hinv' with }, hprogress.mem_freed, hprogress.nodup, ?_, ?_, fun index hother hlocal => ?_⟩
  · rw [step, if_neg hepoch, cleanList, hfold]
    rfl
  · exact (update_of_ne (Ne.symm hindex) _ _).trans hprogress.queued
  · exact update_self ..
  · exact (update_of_ne hother _ _).trans (hprogress.others index hlocal)

theorem Inv.step (h : Inv state) {call : Call Root Tid} (hregular : Regular state call)
    (hstep : step state call = some state') : Inv state' := by
  obtain ⟨hsmall, hcall⟩ := hregular
  cases call with
  | new object =>
    rw [DeferredCounts.step] at hstep
    split at hstep
    · rename_i hnew
      cases hstep
      exact h.allocate hnew.2 hnew.1
    · cases hstep
  | publish root =>
    rw [DeferredCounts.step] at hstep
    split at hstep
    · exact Option.some.inj hstep ▸ h
    · exact Option.some.inj hstep ▸ h.publish root
  | assignSpec thread loc rhs | assignSubord thread loc rhs => exact h.gains (gains_assign hsmall hstep hcall)
  | casTry loc y z => exact h.gains (gains_casTry hsmall hstep)
  | casLink thread loc y z | casSwap thread loc y z => exact h.gains (gains_casPublish hsmall hstep)
  | casUnlink thread loc y z => exact h.gains (gains_casUnlink hsmall hstep)
  | fix loc =>
    rw [DeferredCounts.step] at hstep
    split at hstep
    · rename_i hloc
      cases hstep
      exact h.gains ⟨0, gains_fix hloc, hasObject_zero state⟩
    · cases hstep
  | clean thread epoch =>
    have hepoch : epoch ≠ state.localEpoch thread := by
      rintro rfl
      rw [DeferredCounts.step, if_pos rfl] at hstep
      cases hstep
    obtain ⟨final, -, hclean, hinv, -⟩ := h.clean hepoch hcall
    obtain rfl := Option.some.inj (hclean.symm.trans hstep)
    exact hinv

theorem Inv.run {calls : List (Call Root Tid)} (h : Inv state) (hregular : RegularRun calls state)
    (hrun : run calls state = some state') : Inv state' := by
  induction calls generalizing state with
  | nil => exact Option.some.inj hrun ▸ h
  | cons call calls ih =>
    obtain ⟨next, hstep, hrest⟩ := Option.bind_eq_some_iff.mp hrun
    have hregularRest := hregular.2
    rw [hstep] at hregularRest
    exact ih (h.step hregular.1 hstep) hregularRest hrest

/-- After any sequence of regular calls, the counts are exact; and a regular cleaning that follows returns,
frees the objects of which no reference is left, and puts one decrement aside for the successor of each. -/
theorem deferredCounts_exact {calls : List (Call Root Tid)} {state : State Root Tid}
    (hrun : run calls initial = some state) (hregular : RegularRun calls initial) :
    Exact state ∧ ∀ thread epoch, epoch ≠ state.localEpoch thread → Regular state (.clean thread epoch) →
      ∃ state' freed, DeferredCounts.step state (.clean thread epoch) = some state' ∧ Exact state' ∧
        Cleaned state state' thread epoch freed := by
  have hinv := Inv.initial.run hregular hrun
  refine ⟨hinv.exact, fun thread epoch hepoch hclean => ?_⟩
  obtain ⟨state', freed, hstep, hinv', hcleaned⟩ := hinv.clean hepoch hclean.2
  exact ⟨state', freed, hstep, hinv'.exact, hcleaned⟩

/-- The `init` of a list with a head at 2 and a tail at 4, the fields `false` and `true`, and the insertion
of a node at 6 between them. -/
def insertion : List (Call Bool Unit) :=
  [.new 2, .new 4, .assignSpec () (.next 2) 4, .assignSubord () (.root true) 4, .assignSubord () (.root false) 2,
    .publish true, .publish false, .new 6, .assignSpec () (.next 6) 4, .casSwap () (.next 2) 4 6]

def epochs : List (Call Bool Unit) := [.clean () 1, .clean () 2, .clean () 0]

theorem deferredCounts_exact_insertion :
    ∃ state, run (insertion ++ epochs) initial = some state ∧ state.number 4 = 2 ∧ Exact state := by
  have hrun : ((run (insertion ++ epochs) initial).any fun state => state.number 4 = 2) = true := by decide +kernel
  have hregular : RegularRun (insertion ++ epochs) initial := by decide +kernel
  obtain ⟨state, hstate, hnumber⟩ := exists_of_run hrun
  exact ⟨state, hstate, of_decide_eq_true hnumber, (deferredCounts_exact hstate hregular).1⟩

/-- The node is deleted: its `next` is frozen, then it is unlinked. What is put aside when it is freed is the
tail with the freeze bit, and the count of the tail remains one too high. -/
theorem deferredCounts_frozen :
    ∃ state, run (insertion ++ [.fix (.next 6), .casUnlink () (.next 2) 6 4] ++ epochs) initial = some state ∧
      state.limboList ((), 2) = [⟨4, true⟩] ∧ (state.rc 4).toNat = 3 ∧ state.number 4 = 2 ∧ ¬ Exact state := by
  have hrun : ((run (insertion ++ [.fix (.next 6), .casUnlink () (.next 2) 6 4] ++ epochs) initial).any fun state =>
      state.limboList ((), 2) = [⟨4, true⟩] ∧ (state.rc 4).toNat = 3 ∧ state.number 4 = 2 ∧ 4 ∈ state.live ∧
        state.published 4 = true) = true := by decide +kernel
  obtain ⟨state, hstate, hcheck⟩ := exists_of_run hrun
  obtain ⟨hlist, hrc, hnumber, hlive, hpublished⟩ := of_decide_eq_true hcheck
  refine ⟨state, hstate, hlist, hrc, hnumber, fun hexact => ?_⟩
  have hequal := hexact.rc 4 hlive hpublished
  omega

end Lfmr.DeferredCounts
