import Mathlib.Order.Lattice.Nat
import Lfmr.Concurrency.RefCount
import Lfmr.LimboWrappers

/-!
# Draining keeps the books

What `clean_list` does to the wrappers: each is taken from the list, then its place is in the hands of the
function until it is put in the pool. A wrapper that is taken from the pool meanwhile is on no list.
-/

namespace Lfmr.LimboWrappers

open Function Lfmr.Concurrency Lfmr.EpochReclaim Finset

variable {allocator : PoolAllocator} {state : State} {first : Epoch → Option Addr} {lists : Epoch → List Addr}
  {hand : List Addr} {epoch : Epoch} {wrapper : Addr} {p : Nat}

namespace Books

theorem objects (hbooks : Books state first lists hand) (objects : Objects) (decremented : List Nat) :
    Books { state with objects := objects, decremented := decremented } first lists hand :=
  { hbooks with }

theorem count_le (hbooks : Books state first lists hand) (epoch : Epoch) (wrapper : Addr) :
    (lists epoch).count wrapper + state.wrapperPool.count wrapper + hand.count wrapper ≤ 1 := by
  have hplace := hbooks.place wrapper
  have hle := single_le_sum (f := fun other => (lists other).count wrapper) (fun _ _ => Nat.zero_le _) (mem_univ epoch)
  split at hplace <;> omega

theorem notMem_of_hand (hbooks : Books state first lists (wrapper :: hand)) (epoch : Epoch) :
    wrapper ∉ lists epoch := by
  intro hmem
  have hpos := List.count_pos_iff.mpr hmem
  have hle := hbooks.count_le epoch wrapper
  rw [List.count_cons_self] at hle
  omega

theorem take {rest : List Addr} (hbooks : Books state first lists hand) (hlist : lists epoch = wrapper :: rest) :
    Books state (update first epoch (state.next wrapper)) (update lists epoch rest) (wrapper :: hand) := by
  refine ⟨fun other => ?_, fun other => ?_, fun other => ?_, hbooks.pool⟩
  · have hlinked := hbooks.linked other
    by_cases heq : other = epoch
    · subst heq
      rw [hlist] at hlinked
      simpa using hlinked.2
    · rwa [update_of_ne heq, update_of_ne heq]
  · have hplace := hbooks.place other
    have hsum := RefCount.sum_update_add (mem_univ epoch) (·.count other) lists rest
    rw [hlist] at hsum
    simp only [List.count_cons] at hsum ⊢
    omega
  · intro cell hmem
    by_cases heq : other = epoch
    · subst heq
      rw [update_self] at hmem
      exact hbooks.object other cell (by rw [hlist]; exact List.mem_cons_of_mem _ hmem)
    · rw [update_of_ne heq] at hmem
      exact hbooks.object other cell hmem

theorem newWrapper (hbooks : Books state first lists hand) (allocator : PoolAllocator) :
    Books (newWrapper allocator state).2 first lists ((newWrapper allocator state).1 :: hand) := by
  have hpool := hbooks.pool
  unfold LimboWrappers.newWrapper
  split
  · rename_i new pool heq
    refine ⟨hbooks.linked, fun other => ?_, hbooks.object, ?_⟩
    · have hplace := hbooks.place other
      rw [heq] at hplace
      simp only [List.count_cons] at hplace ⊢
      omega
    · rw [heq, List.length_cons] at hpool
      exact Nat.le_of_succ_le hpool
  · rename_i heq
    refine ⟨hbooks.linked, fun other => ?_, hbooks.object, hpool⟩
    have hplace := hbooks.place other
    have hunused := allocator.unused state.calls state.allocated
    simp only [List.count_cons, mem_insert]
    by_cases hother : other = allocator.alloc state.calls state.allocated
    · rw [hother, if_neg hunused] at hplace
      simp only [hother, beq_self_eq_true, if_true, true_or]
      omega
    · have hne : allocator.alloc state.calls state.allocated ≠ other := fun h => hother h.symm
      simpa only [hother, false_or, beq_iff_eq, hne, if_false, Nat.add_zero] using hplace

/-- A wrapper in hand becomes the first of the list of the local epoch. -/
theorem push (hbooks : Books state first lists (wrapper :: hand)) (hp : p ≠ 0)
    (hfirst : first state.localEpoch = state.limboList state.localEpoch) :
    Books (push wrapper p state) (update first state.localEpoch (some wrapper))
      (update lists state.localEpoch (wrapper :: lists state.localEpoch)) hand := by
  have hne : ∀ other, ∀ cell ∈ lists other, cell ≠ wrapper := fun other cell hmem heq =>
    hbooks.notMem_of_hand other (heq ▸ hmem)
  have hnext : ∀ other, ∀ cell ∈ lists other, (LimboWrappers.push wrapper p state).next cell = state.next cell :=
    fun other cell hmem => update_of_ne (hne other cell hmem) ..
  have hobject : ∀ other, ∀ cell ∈ lists other, (LimboWrappers.push wrapper p state).p cell = state.p cell :=
    fun other cell hmem => update_of_ne (hne other cell hmem) ..
  refine ⟨fun other => ?_, fun other => ?_, fun other => ?_, hbooks.pool⟩
  · by_cases heq : other = state.localEpoch
    · subst heq
      rw [update_self, update_self]
      refine ⟨rfl, ?_⟩
      have hself : (LimboWrappers.push wrapper p state).next wrapper = first state.localEpoch := by
        rw [hfirst]
        exact update_self ..
      rw [hself]
      exact (hbooks.linked _).congr (hnext _)
    · rw [update_of_ne heq, update_of_ne heq]
      exact (hbooks.linked other).congr (hnext other)
  · refine Eq.trans ?_ (hbooks.place other)
    have hsum := RefCount.sum_update_add (mem_univ state.localEpoch) (·.count other) lists
      (wrapper :: lists state.localEpoch)
    simp only [List.count_cons, LimboWrappers.push] at hsum ⊢
    omega
  · intro cell hmem
    by_cases heq : other = state.localEpoch
    · subst heq
      rw [update_self] at hmem
      rcases List.mem_cons.mp hmem with rfl | hmem
      · exact (update_self ..).trans_ne hp
      · exact (hobject _ cell hmem).trans_ne (hbooks.object _ cell hmem)
    · rw [update_of_ne heq] at hmem
      exact (hobject _ cell hmem).trans_ne (hbooks.object other cell hmem)

theorem emptyPool (hbooks : Books state first lists hand) : Books (emptyPool state) first lists hand ∧
      (LimboWrappers.emptyPool state).wrapperPool.length < wrapperPoolSize := by
  have hpool := hbooks.pool
  unfold LimboWrappers.emptyPool
  split
  · rename_i hfull
    refine ⟨⟨hbooks.linked, fun other => ?_, hbooks.object, Nat.zero_le _⟩, Nat.succ_pos 99⟩
    have hplace := hbooks.place other
    simp only [List.count_nil, mem_sdiff, List.mem_toFinset]
    by_cases hmem : other ∈ state.wrapperPool
    · have hpos := List.count_pos_iff.mpr hmem
      simp only [hmem, not_true, and_false, if_false]
      split at hplace <;> omega
    · rw [List.count_eq_zero.mpr hmem] at hplace
      simpa [hmem] using hplace
  · next hroom => exact ⟨hbooks, Nat.lt_of_le_of_ne hpool hroom⟩

theorem freeWrapper (hbooks : Books state first lists (wrapper :: hand)) :
    Books (freeWrapper wrapper state) first lists hand := by
  obtain ⟨hempty, hlength⟩ := hbooks.emptyPool
  refine ⟨hempty.linked, fun other => ?_, hempty.object, hlength⟩
  refine Eq.trans ?_ (hempty.place other)
  simp only [List.count_cons, LimboWrappers.freeWrapper]
  omega

end Books

/-- From one state to another the counts of `done` have been decremented, the objects in `freed` have been
freed, and what they led to has been put aside in the wrappers `added`. What the wrappers on these lists are
for has not changed. -/
structure Progress (state state' : State) (lists : Epoch → List Addr) (done freed : List Nat)
    (added : List Addr) : Prop where
  localEpoch : state'.localEpoch = state.localEpoch
  kept : ∀ epoch, ∀ wrapper ∈ lists epoch, state'.p wrapper = state.p wrapper
  decremented : state'.decremented = state.decremented ++ done
  rc : ∀ object, (state'.objects.rc object).toNat + done.count object = (state.objects.rc object).toNat
  word4 : state'.objects.word4 = state.objects.word4
  freed_eq : state'.objects.freed = state.objects.freed ++ freed
  added_eq : state'.items added = ((freed.map state.objects.word4).filter (· ≠ 0)).reverse

namespace Progress

variable {state' state'' : State} {lists' : Epoch → List Addr} {done freed done' freed' : List Nat}
  {added added' : List Addr}

theorem trans (hfirst : Progress state state' lists done freed added)
    (hsecond : Progress state' state'' lists' done' freed' added')
    (hadded : ∀ wrapper ∈ added, ∃ epoch, wrapper ∈ lists' epoch) (kept : Epoch → List Addr)
    (hkept : ∀ epoch, ∀ wrapper ∈ kept epoch, wrapper ∈ lists epoch ∧ ∃ other, wrapper ∈ lists' other) :
    Progress state state'' kept (done ++ done') (freed ++ freed') (added' ++ added) := by
  refine ⟨hsecond.localEpoch.trans hfirst.localEpoch, fun epoch wrapper hmem => ?_, ?_, fun object => ?_,
    hsecond.word4.trans hfirst.word4, ?_, ?_⟩
  · obtain ⟨hmem, other, hmem'⟩ := hkept epoch wrapper hmem
    exact (hsecond.kept other wrapper hmem').trans (hfirst.kept epoch wrapper hmem)
  · rw [hsecond.decremented, hfirst.decremented, List.append_assoc]
  · rw [List.count_append, ← hfirst.rc object, ← hsecond.rc object]
    omega
  · rw [hsecond.freed_eq, hfirst.freed_eq, List.append_assoc]
  · have hitems : state''.items added = state'.items added := by
      refine List.map_congr_left fun wrapper hmem => ?_
      obtain ⟨epoch, hmem'⟩ := hadded wrapper hmem
      exact hsecond.kept epoch wrapper hmem'
    have happend : state''.items (added' ++ added) = state''.items added' ++ state''.items added := List.map_append
    rw [happend, hitems, hfirst.added_eq, hsecond.added_eq, hfirst.word4, List.map_append, List.filter_append,
      List.reverse_append]

theorem pool (pool : List Addr) (allocated : Finset Addr) (lists : Epoch → List Addr) :
    Progress state { state with wrapperPool := pool, allocated := allocated } lists [] [] [] :=
  ⟨rfl, fun _ _ _ => rfl, by simp, by simp, rfl, by simp, rfl⟩

theorem sub (hrc : state.objects.rc p ≠ 0) (lists : Epoch → List Addr) :
    Progress state (state.sub p) lists [p] [] [] := by
  refine ⟨rfl, fun _ _ _ => rfl, rfl, fun object => ?_, rfl, by simp [State.sub], rfl⟩
  by_cases heq : object = p
  · subst heq
    have hpos : 1 ≤ (state.objects.rc object).toNat :=
      Nat.one_le_iff_ne_zero.mpr fun hzero => hrc (UInt32.toNat_inj.mp hzero)
    simp only [State.sub, update_self, List.count_singleton_self]
    have hle : (1 : UInt32) ≤ state.objects.rc object := UInt32.le_iff_toNat_le.mpr hpos
    rw [UInt32.toNat_sub_of_le _ _ hle]
    exact Nat.sub_add_cancel hpos
  · have hcount : [p].count object = 0 := List.count_eq_zero.mpr (by simpa using heq)
    simp only [State.sub, update_of_ne heq, hcount, Nat.add_zero]

end Progress

theorem newWrapper_eq (allocator : PoolAllocator) (state : State) :
    ∃ pool allocated calls, (newWrapper allocator state).2 =
      { state with wrapperPool := pool, allocated := allocated, calls := calls } := by
  unfold newWrapper
  split
  · exact ⟨_, _, _, rfl⟩
  · exact ⟨_, _, _, rfl⟩

theorem freeWrapper_eq (d : Addr) (state : State) :
    ∃ pool allocated, freeWrapper d state = { state with wrapperPool := pool, allocated := allocated } := by
  unfold freeWrapper emptyPool
  split
  · exact ⟨_, _, rfl⟩
  · exact ⟨_, _, rfl⟩

theorem release_spec {cur : Option Addr} (allocator : PoolAllocator) (hne : epoch ≠ state.localEpoch)
    (hbooks : Books state (update state.limboList epoch cur) lists hand) (p : Nat) :
    ∃ added, Progress state (release allocator p state) lists [] [p] added ∧
      Books (release allocator p state) (update (release allocator p state).limboList epoch cur)
        (update lists state.localEpoch (added ++ lists state.localEpoch)) hand := by
  by_cases hp : state.objects.word4 p = 0
  · have hdelay : delayDec allocator (state.objects.word4 p) state = state := if_pos hp
    refine ⟨[], ?_, ?_⟩
    · rw [release, hdelay]
      exact ⟨rfl, fun _ _ _ => rfl, by simp, by simp, rfl, rfl, by simp [State.items, hp]⟩
    · rw [release, hdelay, List.nil_append, update_eq_self]
      exact hbooks.objects _ _
  · have hdelay : delayDec allocator (state.objects.word4 p) state =
        push (newWrapper allocator state).1 (state.objects.word4 p) (newWrapper allocator state).2 := if_neg hp
    have hnew := hbooks.newWrapper allocator
    obtain ⟨pool, allocated, calls, hstate⟩ := newWrapper_eq allocator state
    rw [release, hdelay]
    rw [hstate] at hnew ⊢
    generalize (newWrapper allocator state).1 = w at hnew ⊢
    refine ⟨[w], ⟨rfl, fun other cell hmem => ?_, by simp [push], by simp [push], rfl, rfl, ?_⟩, ?_⟩
    · exact update_of_ne (fun heq : cell = w => hnew.notMem_of_hand other (heq ▸ hmem)) ..
    · simp [State.items, push, hp]
    · have hpush := hnew.push hp (update_of_ne hne.symm ..)
      rw [update_comm hne] at hpush
      exact hpush.objects _ _

theorem freeWrapper_spec {cur : Option Addr}
    (hbooks : Books state (update state.limboList epoch cur) lists (wrapper :: hand)) :
    Progress state (freeWrapper wrapper state) lists [] [] [] ∧
      Books (freeWrapper wrapper state) (update (freeWrapper wrapper state).limboList epoch cur) lists hand := by
  have hfree := hbooks.freeWrapper
  obtain ⟨pool, allocated, hstate⟩ := freeWrapper_eq wrapper state
  rw [hstate] at hfree ⊢
  exact ⟨Progress.pool pool allocated lists, hfree⟩

variable {rest : List Addr} {localEpoch : Epoch}

theorem cleanOne_spec {pre : Addr} (allocator : PoolAllocator)
    (hne : epoch ≠ state.localEpoch) (hlist : lists epoch = pre :: rest)
    (hbooks : Books state (update state.limboList epoch (some pre)) lists [])
    (hrc : state.objects.rc (state.p pre) ≠ 0) :
    ∃ state' added, cleanOne allocator pre state = some state' ∧
      Progress state state' (update lists epoch rest) [state.p pre]
        (if state.objects.rc (state.p pre) = 1 then [state.p pre] else []) added ∧
      Books state' (update state'.limboList epoch (state.next pre))
        (update (update lists epoch rest) state.localEpoch (added ++ lists state.localEpoch)) [] := by
  have hobject : state.p pre ≠ 0 := hbooks.object epoch pre (by rw [hlist]; exact List.mem_cons_self)
  have htaken := hbooks.take hlist
  rw [update_idem] at htaken
  have hlocal : update lists epoch rest state.localEpoch = lists state.localEpoch :=
    update_of_ne hne.symm ..
  have hsub : Books (state.sub (state.p pre)) (update (state.sub (state.p pre)).limboList epoch (state.next pre))
      (update lists epoch rest) [pre] := htaken.objects _ _
  have hprogress := Progress.sub hrc (update lists epoch rest)
  rw [cleanOne, decRc, if_neg hobject, if_neg hrc, Option.map_some, ← hlocal]
  dsimp only
  by_cases hone : state.objects.rc (state.p pre) = 1
  · have hne' : epoch ≠ (state.sub (state.p pre)).localEpoch := hne
    obtain ⟨added, hreleased, hbooks'⟩ := release_spec allocator hne' hsub (state.p pre)
    obtain ⟨hfree, hbooks''⟩ := freeWrapper_spec hbooks'
    rw [if_pos hone, if_pos hone]
    refine ⟨_, added, rfl, ?_, hbooks''⟩
    have hboth := hprogress.trans hreleased (by simp) _ fun other cell hmem => ⟨hmem, other, hmem⟩
    have hall := hboth.trans hfree (fun cell hmem => ⟨state.localEpoch, ?_⟩) (update lists epoch rest)
      fun other cell hmem => ⟨hmem, ?_⟩
    · simp only [List.append_nil, List.nil_append] at hall
      exact hall
    · have hupdate : cell ∈ added ++ update lists epoch rest state.localEpoch :=
        List.mem_append_left _ (by simpa using hmem)
      exact (update_self state.localEpoch _ _).symm ▸ hupdate
    · by_cases heq : other = state.localEpoch
      · subst heq
        refine ⟨state.localEpoch, ?_⟩
        have hupdate : cell ∈ added ++ update lists epoch rest state.localEpoch :=
          List.mem_append_right _ hmem
        exact (update_self state.localEpoch _ _).symm ▸ hupdate
      · exact ⟨other, (update_of_ne heq _ _).symm ▸ hmem⟩
  · rw [if_neg hone, if_neg hone]
    obtain ⟨hfree, hbooks'⟩ := freeWrapper_spec hsub
    refine ⟨_, [], rfl, ?_, ?_⟩
    · exact hprogress.trans hfree (by simp) _ fun other cell hmem => ⟨hmem, other, hmem⟩
    · rw [List.nil_append, update_eq_self]
      exact hbooks'

def during (lists : Epoch → List Addr) (epoch localEpoch : Epoch) (rest added : List Addr) : Epoch → List Addr :=
  Function.update (Function.update lists epoch rest) localEpoch (added ++ lists localEpoch)

theorem during_during (hne : epoch ≠ localEpoch) (rest rest' added added' : List Addr) :
    during (during lists epoch localEpoch rest added) epoch localEpoch rest' added' =
      during lists epoch localEpoch rest' (added' ++ added) := by
  unfold during
  rw [update_self, update_comm hne.symm, update_idem, update_idem, List.append_assoc, update_comm hne]

theorem during_of_ne {other : Epoch} {added : List Addr} (hne : other ≠ localEpoch) :
    during lists epoch localEpoch rest added other = update lists epoch rest other :=
  update_of_ne hne ..

theorem during_self {added : List Addr} :
    during lists epoch localEpoch rest added localEpoch = added ++ lists localEpoch :=
  update_self ..

theorem mem_freed_cons {state' state'' : State} {p object : Nat} {items freed : List Nat}
    (hrc : ∀ object, (p :: items).count object ≤ (state.objects.rc object).toNat)
    (hfirst : ∀ object, (state'.objects.rc object).toNat + [p].count object = (state.objects.rc object).toNat)
    (hrest : ∀ object, (state''.objects.rc object).toNat + items.count object = (state'.objects.rc object).toNat)
    (hfreed : ∀ object, object ∈ freed ↔ object ∈ items ∧ state''.objects.rc object = 0) :
    object ∈ (if state.objects.rc p = 1 then [p] else []) ++ freed ↔
      object ∈ p :: items ∧ state''.objects.rc object = 0 := by
  have hzero : ∀ count : UInt32, count = 0 ↔ count.toNat = 0 := fun count => UInt32.toNat_inj.symm
  have hone : ∀ count : UInt32, count = 1 ↔ count.toNat = 1 := fun count => UInt32.toNat_inj.symm
  rw [List.mem_append, List.mem_cons, hfreed, hzero]
  by_cases heq : object = p
  · subst heq
    have hle := hrc object
    have hobject := hfirst object
    have hobject' := hrest object
    rw [List.count_cons_self] at hle
    rw [List.count_singleton_self] at hobject
    by_cases hlast : state.objects.rc object = 1
    · have htoNat := (hone _).mp hlast
      simp only [hlast, if_true, List.mem_singleton, true_or, true_and, true_iff]
      omega
    · have htoNat := mt (hone _).mpr hlast
      simp only [hlast, if_false, List.not_mem_nil, false_or, true_or, true_and, and_iff_right_iff_imp]
      intro hnone
      exact List.count_pos_iff.mp (by omega)
  · have hnot : object ∉ (if state.objects.rc p = 1 then [p] else []) := by
      split
      · simpa using heq
      · simp
    simp only [hnot, heq, false_or]

theorem during_nil (hlist : lists epoch = rest) : during lists epoch localEpoch rest [] = lists := by
  have hsame : update lists epoch rest = lists := update_eq_self_iff.mpr hlist.symm
  rw [during, List.nil_append, hsame, update_eq_self]

/-- After so many turns, so many wrappers of the list have been drained. -/
theorem cleanLoop_spec (allocator : PoolAllocator) (list : List Addr) {cur : Option Addr} (turns : Nat)
    (hne : epoch ≠ state.localEpoch) (hlist : lists epoch = list)
    (hbooks : Books state (update state.limboList epoch cur) lists [])
    (hrc : ∀ object, (state.items list).count object ≤ (state.objects.rc object).toNat) :
    ∃ state' freed added, cleanLoop allocator turns state cur = some (state', (list.drop turns).head?) ∧
      Progress state state' (update lists epoch (list.drop turns)) (state.items (list.take turns)) freed added ∧
      Books state' (update state'.limboList epoch (list.drop turns).head?)
        (during lists epoch state.localEpoch (list.drop turns) added) [] ∧
      (∀ object, object ∈ freed ↔ object ∈ state.items (list.take turns) ∧ state'.objects.rc object = 0) ∧
      freed.Nodup := by
  have hcur : cur = list.head? := by
    have hlinked := hbooks.linked epoch
    rw [hlist, update_self] at hlinked
    exact hlinked.start_eq
  induction list generalizing state lists cur turns with
  | nil =>
    refine ⟨state, [], [], ?_, ?_, ?_, by simp [State.items], List.nodup_nil⟩
    · rw [hcur]
      cases turns <;> rfl
    · rw [List.take_nil]
      exact Progress.pool state.wrapperPool state.allocated _
    · rw [List.drop_nil, during_nil hlist]
      exact hcur ▸ hbooks
  | cons pre rest ih =>
    subst hcur
    cases turns with
    | zero =>
      refine ⟨state, [], [], rfl, Progress.pool state.wrapperPool state.allocated _, ?_, by simp [State.items],
        List.nodup_nil⟩
      rw [List.drop_zero, during_nil hlist]
      exact hbooks
    | succ turns =>
    have hpos : state.objects.rc (state.p pre) ≠ 0 := by
      intro hzero
      have hle := hrc (state.p pre)
      rw [hzero, State.items, List.map_cons, List.count_cons_self] at hle
      exact absurd hle (Nat.not_succ_le_zero _)
    obtain ⟨state₁, added₁, hclean, hprogress₁, hbooks₁⟩ := cleanOne_spec allocator hne hlist hbooks hpos
    have hkept : ∀ part, part ⊆ rest → state₁.items part = state.items part := fun part hpart =>
      List.map_congr_left fun wrapper hmem =>
        hprogress₁.kept epoch wrapper (by rw [update_self]; exact hpart hmem)
    have hlists₁ : during lists epoch state.localEpoch rest added₁ epoch = rest := by
      rw [during_of_ne hne, update_self]
    have hrc₁ : ∀ object, (state₁.items rest).count object ≤ (state₁.objects.rc object).toNat := by
      intro object
      have hle := hrc object
      have heq := hprogress₁.rc object
      rw [State.items, List.map_cons, ← List.singleton_append, List.count_append] at hle
      rw [hkept rest (List.Subset.refl _), State.items]
      omega
    have hnext : state.next pre = rest.head? := by
      have hlinked := hbooks.linked epoch
      rw [hlist, update_self] at hlinked
      exact hlinked.2.start_eq
    obtain ⟨state₂, freed₂, added₂, hloop, hprogress₂, hbooks₂, hfreed₂, hnodup₂⟩ :=
      ih turns (hprogress₁.localEpoch ▸ hne) hlists₁ hbooks₁ hrc₁ hnext
    have hitems := hkept (rest.take turns) (List.take_subset _ _)
    have hrc' : ∀ object, (state.p pre :: state.items (rest.take turns)).count object ≤
        (state.objects.rc object).toNat := fun object =>
      Nat.le_trans (List.Sublist.count_le object (((List.take_sublist _ _).map _).cons_cons _)) (hrc object)
    have hmem : ∀ object, object ∈ (if state.objects.rc (state.p pre) = 1 then [state.p pre] else []) ++ freed₂ ↔
        object ∈ state.p pre :: state.items (rest.take turns) ∧ state₂.objects.rc object = 0 := fun object =>
      mem_freed_cons hrc' hprogress₁.rc (hitems ▸ hprogress₂.rc) (hitems ▸ hfreed₂)
    refine ⟨state₂, _, added₂ ++ added₁, ?_, ?_, ?_, hmem, ?_⟩
    · simp only [List.head?_cons, cleanLoop, hclean, Option.bind_some]
      exact hloop
    · have hboth := hprogress₁.trans hprogress₂ (fun cell hcell => ⟨state.localEpoch, ?_⟩)
        (update lists epoch (rest.drop turns)) fun other cell hcell => ?_
      · rwa [hitems] at hboth
      · rw [update_of_ne hne.symm, during_self]
        exact List.mem_append_left _ hcell
      · by_cases hepoch : other = epoch
        · subst hepoch
          rw [update_self] at hcell
          exact ⟨by rw [update_self]; exact List.drop_subset _ _ hcell, other,
            by rwa [update_self]⟩
        · rw [update_of_ne hepoch] at hcell
          refine ⟨by rwa [update_of_ne hepoch], other, ?_⟩
          rw [update_of_ne hepoch]
          by_cases hlocal : other = state.localEpoch
          · rw [hlocal, during_self]
            exact List.mem_append_right _ (hlocal ▸ hcell)
          · rwa [during_of_ne hlocal, update_of_ne hepoch]
    · rwa [hprogress₁.localEpoch, during_during hne] at hbooks₂
    · split
      · rename_i hone
        refine List.nodup_cons.mpr ⟨fun hmem => ?_, hnodup₂⟩
        have hcount := List.count_pos_iff.mpr (hitems ▸ ((hfreed₂ _).mp hmem).1)
        have hle := hrc' (state.p pre)
        rw [List.count_cons_self, hone] at hle
        exact absurd (Nat.le_of_succ_le_succ hle) (Nat.not_le_of_lt hcount)
      · exact hnodup₂

theorem Books.length_le (hbooks : Books state first lists hand) (epoch : Epoch) :
    (lists epoch).length ≤ state.allocated.card := by
  have hnodup : (lists epoch).Nodup := List.nodup_iff_count_le_one.mpr fun wrapper => by
    have hle := hbooks.count_le epoch wrapper
    omega
  rw [← List.toFinset_card_of_nodup hnodup]
  refine card_le_card fun wrapper hmem => ?_
  have hpos := List.count_pos_iff.mpr (List.mem_toFinset.mp hmem)
  have hplace := hbooks.place wrapper
  have hle := single_le_sum (f := fun other => (lists other).count wrapper) (fun _ _ => Nat.zero_le _) (mem_univ epoch)
  by_contra hnot
  rw [if_neg hnot] at hplace
  omega

/-- Before the call, each wrapper that has been allocated is on one of the three lists or in the pool, and the
count of each object is at least the number of wrappers for it. Then `clean_list` drains the list of an epoch
other than the local one, and at each turn of its loop each wrapper is in one place. -/
theorem clean_list_drains (allocator : PoolAllocator) (state : State) (lists : Epoch → List Addr) (epoch : Epoch)
    (hne : epoch ≠ state.localEpoch) (hbooks : Books state state.limboList lists [])
    (hrc : ∀ object, ∑ other, (state.items (lists other)).count object ≤ (state.objects.rc object).toNat) :
    (∃ state' freed added, cleanList allocator epoch state = some state' ∧
      Drained state state' lists epoch freed added) ∧
    ∀ turns, ∃ state' cur lists', cleanLoop allocator turns state (state.limboList epoch) = some (state', cur) ∧
      Books state' (Function.update state'.limboList epoch cur) lists' [] := by
  have hcount : ∀ object, (state.items (lists epoch)).count object ≤ (state.objects.rc object).toNat := fun object =>
    Nat.le_trans (single_le_sum (f := fun other => (state.items (lists other)).count object)
      (fun _ _ => Nat.zero_le _) (mem_univ epoch)) (hrc object)
  have hstart : Books state (update state.limboList epoch (state.limboList epoch)) lists [] := by
    rwa [update_eq_self]
  constructor
  · obtain ⟨state', freed, added, hloop, hprogress, hbooks', hfreed, hnodup⟩ :=
      cleanLoop_spec allocator (lists epoch) state.allocated.card hne rfl hstart hcount
    have hall := hbooks.length_le epoch
    rw [List.drop_eq_nil_of_le hall] at hloop hprogress hbooks'
    rw [List.take_of_length_le hall] at hprogress hfreed
    refine ⟨{ state' with limboList := update state'.limboList epoch none }, freed, added, ?_, ?_⟩
    · rw [cleanList, hloop]
      rfl
    · refine ⟨{ hbooks' with }, hprogress.localEpoch, fun other hother => ?_, hprogress.decremented, hprogress.rc,
        hprogress.word4, hprogress.freed_eq, hfreed, hnodup, hprogress.added_eq⟩
      refine List.map_congr_left fun wrapper hmem => hprogress.kept other wrapper ?_
      rwa [update_of_ne hother]
  · intro turns
    obtain ⟨state', freed, added, hloop, -, hbooks', -⟩ :=
      cleanLoop_spec allocator (lists epoch) turns hne rfl hstart hcount
    exact ⟨state', _, _, hloop, hbooks'⟩

def PoolAllocator.above : PoolAllocator where
  alloc _ allocated := allocated.sup id + 1
  unused _ _ hmem := absurd (Finset.le_sup (f := id) hmem) (Nat.not_succ_le_self _)

/-- Two wrappers on the list of epoch 1: the last reference to object 5, which leads to object 7, and one
of two references to object 6. -/
def twoWrappers : State where
  p wrapper := if wrapper = 0 then 5 else 6
  next wrapper := if wrapper = 0 then some 1 else none
  limboList epoch := if epoch = 1 then some 0 else none
  localEpoch := 0
  wrapperPool := []
  allocated := {0, 1}
  calls := 0
  objects := { rc := fun p => if p = 5 then 1 else 2, word4 := fun p => if p = 5 then 7 else 0, freed := [] }
  decremented := []

def twoWrappersLists (epoch : Epoch) : List Addr := if epoch = 1 then [0, 1] else []

theorem books_twoWrappers : Books twoWrappers twoWrappers.limboList twoWrappersLists [] := by
  refine ⟨fun epoch => ?_, fun wrapper => ?_, fun epoch wrapper _ => ?_, Nat.zero_le _⟩
  · by_cases hone : epoch = 1
    · simp [twoWrappersLists, twoWrappers, hone]
    · simp [twoWrappersLists, twoWrappers, hone]
  · simp only [Fin.sum_univ_three, twoWrappersLists, twoWrappers, List.count_nil]
    by_cases hzero : wrapper = 0
    · simp [hzero]
    · by_cases hone : wrapper = 1
      · simp [hone]
      · simp [hzero, hone, List.count_eq_zero]
  · simp only [twoWrappers]
    split <;> simp

theorem clean_list_drains_two :
    (∃ state' freed added, cleanList .above 1 twoWrappers = some state' ∧
      Drained twoWrappers state' twoWrappersLists 1 freed added) ∧
    ∀ turns, ∃ state' cur lists', cleanLoop .above turns twoWrappers (some 0) = some (state', cur) ∧
      Books state' (Function.update state'.limboList 1 cur) lists' [] := by
  refine clean_list_drains .above twoWrappers twoWrappersLists 1 (by decide) books_twoWrappers fun object => ?_
  simp only [Fin.sum_univ_three, twoWrappersLists, twoWrappers, State.items]
  by_cases hfive : object = 5
  · simp [hfive]
  · have hle : [5, 6].count object ≤ 2 := List.count_le_length
    simpa [hfive] using hle

end Lfmr.LimboWrappers
