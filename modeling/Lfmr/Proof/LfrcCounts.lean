import Lfmr.Lfrc

/-!
# What the procedures of `lfrc.c` do to the references

`Counted` ties the memory to a book of references: each `refcnt` is the number of references in the book
with the claim bit, and the references in the memory are those in the roots, in the `next` fields of
nodes that have not been claimed, and what the container counts beside them.

Every step of `safe_read`, `lfrc_refcnt_dec`, `new_node` and `free_node` is one of a few effects on memory
and book. A container has to know these, not the steps.
-/

namespace Lfmr.Lfrc

open Function Finset Lfmr.Concurrency.RefCount

variable {Root : Type} {m : Nat} {Pool Free Line Tid : Type}

/-! ### References in words -/

@[simp]
theorem refs_null : (Word.null : Word m).refs = 0 := rfl

@[simp]
theorem refs_junk : (Word.junk : Word m).refs = 0 := rfl

@[simp]
theorem refs_node (addr : Fin m) : (Word.node addr).refs = one addr := rfl

variable {word : Word m}

theorem refs_eq_zero (hword : ∀ addr, word.target ≠ .node addr) : word.refs = 0 := by
  cases htarget : word.target with
  | node addr => exact absurd htarget (hword addr)
  | null | junk => simp [Word.refs, htarget]

theorem refs_of_target {addr : Fin m} (htarget : word.target = .node addr) : word.refs = one addr := by
  simp [Word.refs, htarget]

theorem refs_pos_iff {addr : Fin m} : 0 < word.refs addr ↔ word.target = .node addr := by
  cases htarget : word.target with
  | node found =>
    rw [refs_of_target htarget]
    by_cases heq : addr = found
    · subst heq
      simp
    · simp [Book.one_of_ne heq, Ne.symm heq]
  | null | junk => simp [Word.refs, htarget]

theorem isClaim_iff {old : Nat} : isClaim old = true ↔ old = 2 := by
  unfold isClaim decrement
  split <;> simp <;> omega

theorem decrement_of_ne {old : Nat} (hle : 2 ≤ old) (hne : old ≠ 2) : decrement old = old - 2 := by
  unfold decrement
  split <;> omega

def claimBit : Stage Tid → Nat
  | .free | .fresh _ | .claimed _ => 1
  | _ => 0

section Counted

variable [Fintype Root]

def links (memory : Memory Root m Pool) (stage : Fin m → Stage Tid) (addr : Fin m) : Nat :=
  ∑ root, (memory.root root).refs addr +
    ∑ p, if (stage p).isCounted then (memory.next p).refs addr else 0

structure Counted [Fintype Tid] (memory : Memory Root m Pool) (extra : Fin m → Nat)
    (book : Book Tid (Fin m)) : Prop where
  valid : book.Valid
  exact : ∀ addr, memory.refcnt addr = 2 * book.total addr + claimBit (book.stage addr)
  placed : ∀ addr, book.placed addr = links memory book.stage addr + extra addr

variable {memory memory' : Memory Root m Pool} {extra extra' : Fin m → Nat} {book book' : Book Tid (Fin m)}
  {stage stage' : Fin m → Stage Tid} {thread other : Tid} {addr p : Fin m}

theorem links_congr (hroot : memory'.root = memory.root) (hcounted : ∀ p, (stage' p).isCounted = (stage p).isCounted)
    (hnext : ∀ p, (stage p).isCounted = true → memory'.next p = memory.next p) (addr : Fin m) :
    links memory' stage' addr = links memory stage addr := by
  unfold links
  rw [hroot]
  congr 1
  apply sum_congr rfl
  intro p _
  rw [hcounted]
  by_cases hp : (stage p).isCounted = true
  · rw [if_pos hp, if_pos hp, hnext p hp]
  · rw [if_neg hp, if_neg hp]

theorem refs_next_le_links (memory : Memory Root m Pool) (hcounted : (stage p).isCounted = true) (addr : Fin m) :
    (memory.next p).refs addr ≤ links memory stage addr := by
  have hle := single_le_sum (f := fun p => if (stage p).isCounted then (memory.next p).refs addr else 0)
    (fun _ _ => Nat.zero_le _) (mem_univ p)
  simp only [hcounted, if_true] at hle
  unfold links
  omega

theorem refs_root_le_links (memory : Memory Root m Pool) (stage : Fin m → Stage Tid) (root : Root)
    (addr : Fin m) : (memory.root root).refs addr ≤ links memory stage addr := by
  have hle := single_le_sum (f := fun root => (memory.root root).refs addr) (fun _ _ => Nat.zero_le _) (mem_univ root)
  unfold links
  omega

theorem links_update (hroot : memory'.root = memory.root) (p addr : Fin m)
    (hsame : ∀ q, q ≠ p → (if (stage' q).isCounted then (memory'.next q).refs addr else 0) =
      if (stage q).isCounted then (memory.next q).refs addr else 0) :
    links memory' stage' addr + (if (stage p).isCounted then (memory.next p).refs addr else 0) =
      links memory stage addr + if (stage' p).isCounted then (memory'.next p).refs addr else 0 := by
  have hsum := sum_add_of_eq_of_ne (mem_univ p) hsame
  unfold links
  rw [hroot]
  omega

theorem links_write_root [DecidableEq Root] (memory : Memory Root m Pool) (stage : Fin m → Stage Tid)
    (root : Root) (word : Word m) (addr : Fin m) :
    links (memory.write (.root root) word) stage addr + (memory.root root).refs addr =
      links memory stage addr + word.refs addr := by
  have hsum := sum_update_add (mem_univ root) (Word.refs · addr) memory.root word
  simp only [links, Memory.write]
  omega

theorem links_claim (memory : Memory Root m Pool) (thread : Tid) (hcounted : (stage p).isCounted = true)
    (addr : Fin m) :
    links memory (update stage p (.claimed thread)) addr + (memory.next p).refs addr = links memory stage addr := by
  have hupdate := @links_update _ _ _ _ _ memory memory stage (update stage p (.claimed thread)) rfl p addr
    fun q hne => by simp only [update_of_ne hne]
  have hclaimed : (Stage.claimed thread).isCounted = false := rfl
  simpa only [hcounted, if_true, update_self, hclaimed, Bool.false_eq_true, if_false, Nat.add_zero] using hupdate

section Facts

variable [Fintype Tid] (hcounted : Counted memory extra book)

include hcounted

theorem Counted.le_refcnt (hheld : 0 < book.held thread addr) : 2 ≤ memory.refcnt addr := by
  have hle := book.held_le_total thread addr
  have hexact := hcounted.exact addr
  omega

theorem Counted.shared_of_links (hlinks : 0 < links memory book.stage addr) : book.stage addr = .shared := by
  apply hcounted.valid.placed
  rw [hcounted.placed]
  omega

theorem Counted.shared_of_next (hp : (book.stage p).isCounted = true)
    (hnext : (memory.next p).target = .node addr) : book.stage addr = .shared :=
  hcounted.shared_of_links (Nat.lt_of_lt_of_le (refs_pos_iff.mpr hnext) (refs_next_le_links memory hp addr))

variable [DecidableEq Tid]

theorem Counted.of_claim (hheld : 0 < book.held thread addr) (hclaim : isClaim (memory.refcnt addr) = true)
    (hkeeper : (book.stage addr).keeper ≠ some thread) :
    (book.stage addr).isCounted = true ∧ book.total addr = 1 := by
  have hexact := hcounted.exact addr
  have hle := book.held_le_total thread addr
  rw [isClaim_iff.mp hclaim] at hexact
  have htotal : book.total addr = 1 := by omega
  refine ⟨?_, htotal⟩
  cases hstage : book.stage addr with
  | shared => rfl
  | loose => rfl
  | owned keeper =>
    have hkept := hcounted.valid.kept addr keeper (by rw [hstage]; rfl)
    by_cases heq : keeper = thread
    · subst heq
      simp [hstage, Stage.keeper] at hkeeper
    · have hzero := Book.held_eq_zero heq htotal hheld
      omega
  | free | fresh keeper | claimed owner => simp [hstage, claimBit, htotal] at hexact

end Facts

/-! ### What keeps the count -/

section Operations

variable [Fintype Tid] (hcounted : Counted memory extra book)

include hcounted

variable {newStage : Stage Tid}

section

variable (hbefore : (book.stage addr).isCounted = false) (hafter : newStage.isCounted = false)
  (hkept : ∀ keeper, newStage.keeper = some keeper → 0 < book.held keeper addr)
include hbefore hafter hkept

/-- The node gets from one stage to another in neither of which it is counted. -/
theorem Counted.assign {refcnt : Nat}
    (hrefcnt : refcnt + claimBit (book.stage addr) = memory.refcnt addr + claimBit newStage) (pool : Pool) :
    Counted ((memory.setRefcnt addr refcnt).setPool pool) extra (book.assign addr newStage) := by
  have hself : (book.assign addr newStage).stage addr = newStage := update_self _ _ _
  have hstage : ∀ other, other ≠ addr → (book.assign addr newStage).stage other = book.stage other :=
    fun other hne => update_of_ne hne _ _
  refine ⟨hcounted.valid.assign (fun hpos => ?_) (by simp [hafter]) hkept, fun other => ?_, fun other => ?_⟩
  · rw [hcounted.valid.placed addr hpos] at hbefore
    simp [Stage.isCounted] at hbefore
  · have hexact := hcounted.exact other
    have htotal : (book.assign addr newStage).total other = book.total other := rfl
    rw [htotal]
    by_cases heq : other = addr
    · subst heq
      rw [hself]
      simp only [Memory.setPool, Memory.setRefcnt, update_self]
      omega
    · rw [hstage other heq]
      simpa only [Memory.setPool, Memory.setRefcnt, update_of_ne heq] using hexact
  · have hlinks : links ((memory.setRefcnt addr refcnt).setPool pool) (book.assign addr newStage).stage
        other = links memory book.stage other := by
      apply links_congr
      · rfl
      · intro p
        by_cases heq : p = addr
        · subst heq
          rw [hself, hbefore, hafter]
        · rw [hstage p heq]
      · exact fun _ _ => rfl
    rw [hlinks]
    exact hcounted.placed other

theorem Counted.assign_same (hbit : claimBit (book.stage addr) = claimBit newStage) (pool : Pool) :
    Counted (memory.setPool pool) extra (book.assign addr newStage) := by
  have hassign := hcounted.assign hbefore hafter hkept (congrArg (memory.refcnt addr + ·) hbit) pool
  simpa [Memory.setRefcnt] using hassign

end

theorem Counted.rewrite (haddr : (book.stage addr).isCounted = false) (word : Word m) (pool : Pool) :
    Counted ((memory.setNext addr word).setPool pool) extra book := by
  refine ⟨hcounted.valid, hcounted.exact, fun other => ?_⟩
  have hlinks : links ((memory.setNext addr word).setPool pool) book.stage other = links memory book.stage other := by
    apply links_congr
    · rfl
    · exact fun _ => rfl
    · intro p hp
      have hne : p ≠ addr := by
        rintro rfl
        simp [haddr] at hp
      exact update_of_ne hne _ _
  rw [hlinks]
  exact hcounted.placed other

theorem Counted.content_le (hcount : (book.stage addr).isCounted = true) (other : Fin m) :
    (memory.next addr).refs other ≤ book.placed other := by
  have hle := refs_next_le_links memory hcount other
  have hplaced := hcounted.placed other
  omega

variable [DecidableEq Tid]

variable {refs placed : Fin m → Nat}

/-- References change hands, and a node that the thread has from the allocator may be published. -/
theorem Counted.transfer {newStage : Fin m → Stage Tid} (hrefcnt : memory'.refcnt = memory.refcnt)
    (hbalance : ∀ addr, placed addr + refs addr = book.placed addr + book.held thread addr)
    (hplaced : ∀ addr, placed addr = links memory' newStage addr + extra' addr)
    (hshared : ∀ addr, 0 < placed addr → newStage addr = .shared)
    (hbit : ∀ addr, claimBit (newStage addr) = claimBit (book.stage addr))
    (hcount : ∀ addr, (newStage addr).isCounted = true →
      (book.stage addr).isCounted = true ∨ (book.stage addr).keeper = some thread)
    (hkept : ∀ addr keeper, (newStage addr).keeper = some keeper →
      (book.stage addr).keeper = some keeper ∧ (keeper = thread → 0 < refs addr)) :
    Counted memory' extra' { book.move thread refs placed with stage := newStage } := by
  have htotal : ∀ addr, (Book.mk newStage placed (update book.held thread refs)
      book.pinned).total addr = book.total addr := by
    intro addr
    have hmove := book.total_move thread refs placed addr
    have hsame : (Book.mk newStage placed (update book.held thread refs) book.pinned).total addr =
        (book.move thread refs placed).total addr := rfl
    have haddr := hbalance addr
    omega
  refine ⟨⟨hshared, fun addr hnew => ?_, fun addr keeper hkeeper => ?_⟩, fun addr => ?_, hplaced⟩
  · refine Nat.lt_of_lt_of_eq ?_ (htotal addr).symm
    rcases hcount addr hnew with hold | hkeeper
    · exact hcounted.valid.alive addr hold
    · have hheld := hcounted.valid.kept addr thread hkeeper
      have hle := book.held_le_total thread addr
      omega
  · obtain ⟨hbefore, hrefs⟩ := hkept addr keeper hkeeper
    by_cases heq : keeper = thread
    · subst heq
      simpa [Book.move] using hrefs rfl
    · simpa [Book.move, update_of_ne heq] using hcounted.valid.kept addr keeper hbefore
  · rw [hrefcnt, hcounted.exact addr, hbit addr]
    exact congrArg (2 * · + claimBit (book.stage addr)) (htotal addr).symm

theorem Counted.write_root [DecidableEq Root] {root : Root}
    (hbalance : ∀ addr, placed addr + refs addr = book.placed addr + book.held thread addr)
    (hplaced : ∀ addr, placed addr + (memory.root root).refs addr + extra addr =
      book.placed addr + word.refs addr + extra' addr)
    (hshared : ∀ addr, 0 < placed addr → book.stage addr = .shared)
    (hkept : ∀ addr, (book.stage addr).keeper = some thread → 0 < refs addr) :
    Counted (memory.write (.root root) word) extra' (book.move thread refs placed) := by
  refine hcounted.transfer rfl hbalance (fun addr => ?_) hshared (fun _ => rfl) (fun _ => .inl)
    fun addr keeper hkeeper => ⟨hkeeper, ?_⟩
  · have hlinks := links_write_root memory book.stage root word addr
    have hbefore := hcounted.placed addr
    have hafter := hplaced addr
    omega
  · rintro rfl
    exact hkept addr hkeeper

theorem Counted.publish (howned : book.stage addr = .owned thread) (hnew : newStage.isCounted = true)
    (hrefcnt : memory'.refcnt = memory.refcnt)
    (hbalance : ∀ addr, placed addr + refs addr = book.placed addr + book.held thread addr)
    (hplaced : ∀ other, placed other =
      links memory' (book.publish thread addr newStage refs placed).stage other + extra' other)
    (hshared : ∀ other, 0 < placed other → (book.publish thread addr newStage refs placed).stage other = .shared)
    (hkept : ∀ other, other ≠ addr → (book.stage other).keeper = some thread → 0 < refs other) :
    Counted memory' extra' (book.publish thread addr newStage refs placed) := by
  have hbit : claimBit newStage = 0 := by
    cases newStage <;> simp_all [Stage.isCounted, claimBit]
  refine hcounted.transfer hrefcnt hbalance hplaced hshared (fun other => ?_) (fun other hcount => ?_)
    fun other keeper hkeeper => ?_
  all_goals by_cases heq : other = addr
  · subst heq
    rw [update_self, hbit, howned]
    rfl
  · simp [Book.move, update_of_ne heq]
  · subst heq
    exact .inr (by rw [howned]; rfl)
  · exact .inl (by simpa [Book.move, update_of_ne heq] using hcount)
  · subst heq
    have hnone : newStage.keeper = none := by
      cases newStage <;> simp_all [Stage.isCounted, Stage.keeper]
    simp [Book.move, hnone] at hkeeper
  · simp only [Book.move, update_of_ne heq] at hkeeper
    refine ⟨hkeeper, ?_⟩
    rintro rfl
    exact hkept other heq hkeeper

theorem Counted.take (thread : Tid) (addr : Fin m) (pool : Pool) :
    Counted ((memory.addRef addr).setPool pool) extra (book.take thread addr) := by
  refine ⟨hcounted.valid.take, fun other => ?_, hcounted.placed⟩
  have htotal := book.total_take thread addr other
  have hexact := hcounted.exact other
  have hstage : (book.take thread addr).stage = book.stage := rfl
  rw [hstage]
  by_cases heq : other = addr
  · subst heq
    rw [Book.one_self] at htotal
    simp only [Memory.setPool, Memory.addRef, Memory.setRefcnt, update_self]
    omega
  · rw [Book.one_of_ne heq] at htotal
    simp only [Memory.setPool, Memory.addRef, Memory.setRefcnt, update_of_ne heq]
    omega

theorem Counted.drop (hheld : 0 < book.held thread addr) (hclaim : isClaim (memory.refcnt addr) = false)
    (hkeeper : (book.stage addr).keeper = some thread → 1 < book.held thread addr) (pool : Pool) :
    Counted ((memory.setRefcnt addr (memory.refcnt addr - 2)).setPool pool) extra (book.drop thread addr) := by
  have hmore : (book.stage addr).isCounted = true → 1 < book.total addr := by
    intro hcount
    have hle := book.held_le_total thread addr
    have hexact := hcounted.exact addr
    have hbit : claimBit (book.stage addr) = 0 := by
      cases hstage : book.stage addr <;> simp_all [Stage.isCounted, claimBit]
    have hne : memory.refcnt addr ≠ 2 := fun htwo => by simp [isClaim_iff.mpr htwo] at hclaim
    omega
  refine ⟨hcounted.valid.drop hheld hmore hkeeper, fun other => ?_, hcounted.placed⟩
  have htotal := Book.total_drop hheld other
  have hexact := hcounted.exact other
  have hstage : (book.drop thread addr).stage = book.stage := rfl
  rw [hstage]
  by_cases heq : other = addr
  · subst heq
    rw [Book.one_self] at htotal
    simp only [Memory.setPool, Memory.setRefcnt, update_self]
    omega
  · rw [Book.one_of_ne heq] at htotal
    simp only [Memory.setPool, Memory.setRefcnt, update_of_ne heq]
    omega

theorem Counted.claim (hheld : 0 < book.held thread addr) (hclaim : isClaim (memory.refcnt addr) = true)
    (hkeeper : (book.stage addr).keeper ≠ some thread) (pool : Pool) :
    Counted ((memory.setRefcnt addr 1).setPool pool) extra (book.claim thread addr (memory.next addr).refs) := by
  obtain ⟨hcount, htotal⟩ := hcounted.of_claim hheld hclaim hkeeper
  have hcontent := hcounted.content_le hcount
  refine ⟨hcounted.valid.claim hheld htotal hcontent, fun other => ?_, fun other => ?_⟩
  · have hexact := hcounted.exact other
    have hclaimed := Book.total_claim hheld hcontent other
    by_cases heq : other = addr
    · subst heq
      rw [Book.one_self] at hclaimed
      have hbit : claimBit ((book.claim thread other (memory.next other).refs).stage other) = 1 := by
        simp [Book.claim, Book.assign, claimBit]
      rw [hbit]
      simp only [Memory.setPool, Memory.setRefcnt, update_self]
      omega
    · rw [Book.one_of_ne heq] at hclaimed
      have hstage : (book.claim thread addr (memory.next addr).refs).stage other = book.stage other :=
        update_of_ne heq _ _
      rw [hstage]
      simp only [Memory.setPool, Memory.setRefcnt, update_of_ne heq]
      omega
  · have hplaced := hcounted.placed other
    have hlinks := links_claim memory thread hcount other
    have hsame : links ((memory.setRefcnt addr 1).setPool pool)
        (book.claim thread addr (memory.next addr).refs).stage other =
        links memory (update book.stage addr (.claimed thread)) other := rfl
    rw [hsame]
    simp only [Book.claim, Book.assign, Book.move]
    omega

end Operations

section Effects

variable [DecidableEq Tid]

/-- What a step of the procedures does; the free list is left open. A reference to a node that the
thread has from the allocator is given up this way only if it holds another one, and only nodes that
nobody has pinned may be claimed. -/
inductive Effect (thread : Tid) (memory : Memory Root m Pool) (book : Book Tid (Fin m)) :
    Memory Root m Pool → Book Tid (Fin m) → Prop
  | stay (pool : Pool) : Effect thread memory book (memory.setPool pool) book
  | take (addr : Fin m) (pool : Pool) :
      Effect thread memory book ((memory.addRef addr).setPool pool) (book.take thread addr)
  | drop (addr : Fin m) (pool : Pool) : 0 < book.held thread addr →
      isClaim (memory.refcnt addr) = false →
      ((book.stage addr).keeper = some thread → 1 < book.held thread addr) →
      Effect thread memory book ((memory.setRefcnt addr (memory.refcnt addr - 2)).setPool pool)
        (book.drop thread addr)
  | claim (addr : Fin m) (pool : Pool) : 0 < book.held thread addr →
      isClaim (memory.refcnt addr) = true → (book.stage addr).keeper ≠ some thread →
      (∀ user, ¬ book.pinned user addr) →
      Effect thread memory book ((memory.setRefcnt addr 1).setPool pool)
        (book.claim thread addr (memory.next addr).refs)
  | rewrite (addr : Fin m) (word : Word m) (pool : Pool) : book.stage addr = .claimed thread →
      Effect thread memory book ((memory.setNext addr word).setPool pool) book
  | free (addr : Fin m) (pool : Pool) : book.stage addr = .claimed thread →
      (memory.next addr).refs = 0 →
      Effect thread memory book (memory.setPool pool) (book.assign addr .free)
  | fresh (addr : Fin m) (pool : Pool) : book.stage addr = .free → 0 < book.held thread addr →
      Effect thread memory book (memory.setPool pool) (book.assign addr (.fresh thread))
  | takeFresh (addr : Fin m) (pool : Pool) : book.stage addr = .free →
      Effect thread memory book ((memory.addRef addr).setPool pool)
        ((book.take thread addr).assign addr (.fresh thread))
  | settle (addr : Fin m) (pool : Pool) : book.stage addr = .fresh thread →
      Effect thread memory book ((memory.setRefcnt addr (memory.refcnt addr - 1)).setPool pool)
        (book.assign addr (.owned thread))

section Frame

variable (heffect : Effect thread memory book memory' book')

include heffect

omit [Fintype Root] in
theorem Effect.root_eq : memory'.root = memory.root := by
  cases heffect <;> rfl

omit [Fintype Root] in
theorem Effect.pinned_eq : book'.pinned = book.pinned := by
  cases heffect <;> rfl

omit [Fintype Root] in
theorem Effect.next_eq (haddr : book.stage addr ≠ .claimed thread) : memory'.next addr = memory.next addr := by
  cases heffect with
  | rewrite found word pool hclaimed =>
    have hne : addr ≠ found := by
      rintro rfl
      exact haddr hclaimed
    exact update_of_ne hne _ _
  | _ => rfl

omit [Fintype Root] in
theorem Effect.claim_or_stage_eq : (∃ addr, 0 < book.held thread addr ∧ isClaim (memory.refcnt addr) = true ∧
      (book.stage addr).keeper ≠ some thread ∧ book' = book.claim thread addr (memory.next addr).refs) ∨
    ∀ addr, (book'.stage addr).isCounted = true ∨ (book.stage addr).isCounted = true →
      book'.stage addr = book.stage addr := by
  have hassign : ∀ (found : Fin m) (stage : Stage Tid), (book.stage found).isCounted = false →
      stage.isCounted = false → ∀ addr,
      (update book.stage found stage addr).isCounted = true ∨ (book.stage addr).isCounted = true →
        update book.stage found stage addr = book.stage addr := by
    intro found stage hbefore hafter addr hcount
    have hne : addr ≠ found := by
      rintro rfl
      simp [hbefore, hafter] at hcount
    exact update_of_ne hne _ _
  cases heffect with
  | claim addr pool hheld hclaim hkeeper hunpinned => exact .inl ⟨addr, hheld, hclaim, hkeeper, rfl⟩
  | free found pool hclaimed hempty =>
    exact .inr (hassign found _ (by simp [hclaimed, Stage.isCounted]) rfl)
  | fresh found pool hfree hheld | takeFresh found pool hfree =>
    exact .inr (hassign found _ (by simp [hfree, Stage.isCounted]) rfl)
  | settle found pool hfresh => exact .inr (hassign found _ (by simp [hfresh, Stage.isCounted]) rfl)
  | _ => exact .inr fun _ _ => rfl

omit [Fintype Root] in
theorem Effect.idle_cases (hidle : book'.stage addr = .free ∨ (book'.stage addr).keeper ≠ none) :
    (book.stage addr = .free ∨ (book.stage addr).keeper ≠ none) ∨
      book.stage addr = .claimed thread ∧ (memory'.next addr).refs = 0 := by
  cases heffect with
  | claim found pool hheld hclaim hkeeper hunpinned =>
    by_cases heq : addr = found
    · subst heq
      simp [Book.claim, Book.assign, Stage.keeper] at hidle
    · left
      simpa [Book.claim, Book.assign, Book.move, update_of_ne heq] using hidle
  | free found pool hclaimed hempty =>
    by_cases heq : addr = found
    · subst heq
      exact .inr ⟨hclaimed, hempty⟩
    · left
      simpa [Book.assign, update_of_ne heq] using hidle
  | fresh found pool hfree hheld =>
    by_cases heq : addr = found
    · subst heq
      exact .inl (.inl hfree)
    · left
      simpa [Book.assign, update_of_ne heq] using hidle
  | takeFresh found pool hfree =>
    by_cases heq : addr = found
    · subst heq
      exact .inl (.inl hfree)
    · left
      simpa [Book.assign, Book.take, Book.move, update_of_ne heq] using hidle
  | settle found pool hfresh =>
    by_cases heq : addr = found
    · subst heq
      exact .inl (.inr (by simp [hfresh, Stage.keeper]))
    · left
      simpa [Book.assign, update_of_ne heq] using hidle
  | _ => exact .inl hidle

end Frame

theorem held_take_self (book : Book Tid (Fin m)) (thread : Tid) (addr : Fin m) :
    0 < (book.take thread addr).held thread addr := by
  simp [Book.take, Book.move]

variable [Fintype Tid]

section

variable (heffect : Effect thread memory book memory' book') (hcounted : Counted memory extra book)
include heffect hcounted

theorem Effect.counted : Counted memory' extra book' := by
  cases heffect with
  | stay pool => exact ⟨hcounted.valid, hcounted.exact, hcounted.placed⟩
  | take addr pool => exact hcounted.take thread addr pool
  | drop addr pool hheld hclaim hkeeper => exact hcounted.drop hheld hclaim hkeeper pool
  | claim addr pool hheld hclaim hkeeper hunpinned => exact hcounted.claim hheld hclaim hkeeper pool
  | rewrite addr word pool hclaimed =>
    exact hcounted.rewrite (by simp [hclaimed, Stage.isCounted]) word pool
  | free addr pool hclaimed hempty =>
    refine hcounted.assign_same ?_ rfl ?_ ?_ pool
    · simp [hclaimed, Stage.isCounted]
    · simp [Stage.keeper]
    · simp [hclaimed, claimBit]
  | fresh addr pool hfree hheld =>
    refine hcounted.assign_same ?_ rfl ?_ ?_ pool
    · simp [hfree, Stage.isCounted]
    · simpa [Stage.keeper] using hheld
    · simp [hfree, claimBit]
  | takeFresh addr pool hfree =>
    refine (hcounted.take thread addr memory.pool).assign_same ?_ rfl ?_ ?_ pool
    · simp [Book.take, Book.move, hfree, Stage.isCounted]
    · simpa [Stage.keeper] using held_take_self book thread addr
    · simp [Book.take, Book.move, hfree, claimBit]
  | settle addr pool hfresh =>
    refine hcounted.assign ?_ rfl ?_ ?_ pool
    · simp [hfresh, Stage.isCounted]
    · have hkept := hcounted.valid.kept addr thread (by simp [hfresh, Stage.keeper])
      simpa [Stage.keeper] using hkept
    · have hexact := hcounted.exact addr
      simp only [hfresh, claimBit] at hexact ⊢
      omega

attribute [local simp] Stage.isLive Stage.owner

theorem Effect.apart (hne : other ≠ thread) : Book.Apart other book book' := by
  have hsame : Book.Apart other book book := .of_stage_eq rfl rfl rfl
  cases heffect with
  | stay pool | rewrite addr word pool hclaimed => exact hsame
  | take addr pool | drop addr pool => exact Book.apart_move hne
  | claim addr pool hheld hclaim hkeeper hunpinned =>
    obtain ⟨hcount, htotal⟩ := hcounted.of_claim hheld hclaim hkeeper
    exact Book.apart_claim hne hheld hcount htotal (hunpinned other)
  | free addr pool hclaimed hempty =>
    apply hsame.assign
    · simp [hclaimed]
    · simpa [hclaimed] using hne.symm
    · simp [Stage.keeper]
    · simp [hclaimed]
    · simp
  | fresh addr pool hfree hheld =>
    apply hsame.assign
    · simp [hfree]
    · simp [hfree, Stage.keeper]
    · simpa [Stage.keeper] using hne.symm
    · simp [hfree]
    · simp
  | takeFresh addr pool hfree =>
    have htake : (book.take thread addr).stage addr = .free := hfree
    apply (Book.apart_move hne).assign
    · rw [← Book.take, htake]
      simp
    · rw [← Book.take, htake]
      simp [Stage.keeper]
    · simpa [Stage.keeper] using hne.symm
    · rw [← Book.take, htake]
      simp
    · simp
  | settle addr pool hfresh =>
    apply hsame.assign
    · simp [hfresh]
    · simpa [hfresh, Stage.keeper] using hne.symm
    · simpa [Stage.keeper] using hne.symm
    · simp
    · simp [hfresh]

theorem Effect.steady {refs : Fin m → Nat} (hrefs : ∀ addr, refs addr ≤ book'.held thread addr) :
    Book.Steady thread refs book book' := by
  have hsame : Book.Steady thread refs book book := .of_stage_eq rfl rfl
  have htaken : ∀ addr, Book.Steady thread refs book (book.take thread addr) :=
    fun addr => .of_stage_eq rfl rfl
  cases heffect with
  | stay pool | rewrite addr word pool hclaimed => exact hsame
  | take addr pool => exact htaken addr
  | drop addr pool => exact .of_stage_eq rfl rfl
  | claim addr pool hheld hclaim hkeeper hunpinned =>
    obtain ⟨hcount, htotal⟩ := hcounted.of_claim hheld hclaim hkeeper
    exact Book.steady_claim hheld hcount htotal (hcounted.content_le hcount) (hunpinned thread) (hrefs addr)
  | free addr pool hclaimed hempty =>
    apply hsame.assign
    · simp [hclaimed]
    · simp [hclaimed]
    · simp [hclaimed]
    · simp
  | fresh addr pool hfree hheld =>
    apply hsame.assign
    · simp [hfree]
    · simp [hfree]
    · simp [hfree]
    · simp
  | takeFresh addr pool hfree =>
    have htake : (book.take thread addr).stage addr = .free := hfree
    apply (htaken addr).assign
    · simp [htake]
    · simp [htake]
    · simp [htake]
    · simp
  | settle addr pool hfresh =>
    apply hsame.assign
    · simp [hfresh]
    · simp [hfresh]
    · simp
    · simp [hfresh]

end

end Effects

end Counted

end Lfmr.Lfrc
