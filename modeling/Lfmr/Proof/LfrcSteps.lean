import Lfmr.Proof.LfrcCounts

/-!
# The steps of `lfrc.c` as effects

A thread's part of the book follows from where it is in the code: the references it holds, and the nodes
it has claimed. Each step of the procedures is an effect after which this is so again. The lemmas are
about any allocator whose free list survives its `free_node`.
-/

namespace Lfmr.Lfrc

open Function Finset Lfmr.Concurrency.RefCount

variable {Root : Type} {m : Nat} {Pool Free Line Tid : Type}

/-! ### The part of a thread -/

def Dec.claims (free : FreeNode Root m Pool Free) (dec : Dec m Free) : List (Fin m) :=
  match dec.pc with
  | .readNext p | .writeNext p _ | .loadNext p => p :: dec.callers
  | .free pc => free.node pc :: dec.callers
  | _ => dec.callers

def claimsOf (free : FreeNode Root m Pool Free) : Option (Dec m Free) → List (Fin m)
  | some dec => dec.claims free
  | none => []

def refsOf (memory : Memory Root m Pool) : Option (Dec m Free) → Fin m → Nat
  | some dec => dec.refs memory
  | none => 0

def Control.claims (free : FreeNode Root m Pool Free) : Control m Free Line → List (Fin m)
  | .at _ => []
  | .drop dec _ _ => dec.claims free

def Control.freeing : Control m Free Line → Option Free
  | .drop ⟨.free pc, _⟩ _ _ => some pc
  | _ => none

def Control.line : Control m Free Line → Line
  | .at line => line
  | .drop _ _ after => after

structure Claims (thread : Tid) (book : Book Tid (Fin m)) (claims : List (Fin m)) : Prop where
  nodup : claims.Nodup
  iff : ∀ addr, book.stage addr = .claimed thread ↔ addr ∈ claims

/-- The references of each line of a container, one of which is to the node that the thread has from the
allocator, if there is one. -/
structure Holdings (m : Nat) (Line : Type) where
  refs : Line → Fin m → Nat
  own : Line → Option (Fin m)
  refs_own : ∀ line addr, own line = some addr → 0 < refs line addr

/-- The references a thread holds are those of its line and of what it is giving up, it has the node of
its line from the allocator, and `FreeInv` is what `free_node` has made of the `next` of its node. -/
structure ThreadBook (free : FreeNode Root m Pool Free) (FreeInv : Word m → Free → Prop)
    (lines : Holdings m Line) (thread : Tid) (memory : Memory Root m Pool)
    (book : Book Tid (Fin m)) (control : Control m Free Line) : Prop where
  claims : Claims thread book (control.claims free)
  held : ∀ addr, book.held thread addr = control.refs lines.refs memory addr
  kept : ∀ addr, (book.stage addr).keeper = some thread → lines.own control.line = some addr
  freeing : ∀ pc, control.freeing = some pc → FreeInv (memory.next (free.node pc)) pc

/-- What is asked of the allocator. The free list depends on which nodes are free or fresh, a step of
`free_node` that is `fine` keeps it, and the last one makes the node free. -/
structure FreeSound [DecidableEq Tid] (free : FreeNode Root m Pool Free)
    (PoolInv : Pool → (Fin m → Stage Tid) → Prop) (FreeInv : Word m → Free → Prop)
    (fine : Memory Root m Pool → Free → Prop) : Prop where
  node_start : ∀ p, free.node (free.start p) = p
  inv_start : ∀ word p, FreeInv word (free.start p)
  frame : ∀ pool (stage stage' : Fin m → Stage Tid), PoolInv pool stage →
    (∀ addr, stage' addr = .free ↔ stage addr = .free) →
    (∀ addr thread, stage' addr = .fresh thread ↔ stage addr = .fresh thread) → PoolInv pool stage'
  next : ∀ memory memory' (book : Book Tid (Fin m)) thread pc pc', PoolInv memory.pool book.stage →
    book.stage (free.node pc) = .claimed thread → FreeInv (memory.next (free.node pc)) pc →
    fine memory pc → free.step memory pc = some (memory', some pc') →
    free.node pc' = free.node pc ∧ PoolInv memory'.pool book.stage ∧
      FreeInv (memory'.next (free.node pc)) pc' ∧ Effect thread memory book memory' book
  last : ∀ memory memory' (book : Book Tid (Fin m)) thread pc, PoolInv memory.pool book.stage →
    book.stage (free.node pc) = .claimed thread → FreeInv (memory.next (free.node pc)) pc →
    fine memory pc → free.step memory pc = some (memory', none) →
    PoolInv memory'.pool (book.assign (free.node pc) .free).stage ∧
      Effect thread memory book memory' (book.assign (free.node pc) .free)

variable {free : FreeNode Root m Pool Free} {memory memory' : Memory Root m Pool}
  {book book' : Book Tid (Fin m)} {thread : Tid} {dec : Dec m Free} {control : Control m Free Line}
  {lines : Holdings m Line} {callers : List (Fin m)} {todo : List (Word m)} {after : Line}
  {addr p : Fin m}

theorem claimsOf_ret (hstart : ∀ p, free.node (free.start p) = p) : claimsOf free (Dec.ret free callers) = callers := by
  cases callers with
  | nil => rfl
  | cons p callers => simp [Dec.ret, claimsOf, Dec.claims, hstart]

theorem refsOf_ret : refsOf memory (Dec.ret free callers) = 0 := by
  cases callers <;> rfl

theorem claimsOf_call (hstart : ∀ p, free.node (free.start p) = p) (word : Word m)
    (callers : List (Fin m)) : claimsOf free (Dec.call free word callers) = callers := by
  unfold Dec.call
  split
  · exact claimsOf_ret hstart
  · rfl
  · rfl

attribute [local simp] Dec.call

theorem refsOf_call (free : FreeNode Root m Pool Free) (memory : Memory Root m Pool) (word : Word m)
    (callers : List (Fin m)) : refsOf memory (Dec.call free word callers) = word.refs := by
  cases htarget : word.target with
  | null => simp [htarget, refsOf_ret, refs_eq_zero]
  | node p => simp [htarget, refsOf, Dec.refs, refs_of_target htarget]
  | junk => simp [htarget, refsOf, Dec.refs, refs_eq_zero]

/-! ### Several calls in a row -/

@[simp]
theorem line_release : (release free todo after).line = after := by
  induction todo with
  | nil => rfl
  | cons word todo ih =>
    unfold release
    split
    · rfl
    · exact ih

theorem refs_release :
    (release free todo after).refs lines.refs memory = (todo.map Word.refs).sum + lines.refs after := by
  induction todo with
  | nil => simp [release, Control.refs]
  | cons word todo ih =>
    have hcall := refsOf_call free memory word []
    unfold release
    split
    · rename_i dec heq
      rw [heq] at hcall
      simp only [refsOf] at hcall
      simp [Control.refs, hcall]
    · rename_i heq
      rw [heq] at hcall
      simp only [refsOf] at hcall
      simp [ih, ← hcall]

theorem claims_release (hstart : ∀ p, free.node (free.start p) = p) : (release free todo after).claims free = [] := by
  induction todo with
  | nil => rfl
  | cons word todo ih =>
    have hcall := claimsOf_call hstart word []
    unfold release
    split
    · rename_i dec heq
      rw [heq] at hcall
      exact hcall
    · exact ih

theorem freeing_release : (release free todo after).freeing = none := by
  induction todo with
  | nil => rfl
  | cons word todo ih =>
    unfold release
    cases htarget : word.target with
    | null => simpa [htarget, Dec.ret] using ih
    | node p | junk => simp [htarget, Control.freeing]

theorem threadBook_release {FreeInv : Word m → Free → Prop} (hstart : ∀ p, free.node (free.start p) = p)
    (hclaims : Claims thread book [])
    (hheld : ∀ addr, book.held thread addr = (todo.map Word.refs).sum addr + lines.refs after addr)
    (hkept : ∀ addr, (book.stage addr).keeper = some thread → lines.own after = some addr) :
    ThreadBook free FreeInv lines thread memory book (release free todo after) := by
  refine ⟨?_, fun addr => ?_, fun addr hkeeper => ?_, by simp [freeing_release]⟩
  · rw [claims_release hstart]
    exact hclaims
  · rw [refs_release]
    exact hheld addr
  · rw [line_release]
    exact hkept addr hkeeper

variable [DecidableEq Tid] {extra rest : Fin m → Nat} {PoolInv : Pool → (Fin m → Stage Tid) → Prop}
  {FreeInv : Word m → Free → Prop} {fine : Memory Root m Pool → Free → Prop} {claims : List (Fin m)}

section

variable (hsound : FreeSound free PoolInv FreeInv fine)
include hsound

theorem FreeSound.freeing_ret (word : Word m) :
    ∀ pc callers', Dec.ret free callers = some ⟨.free pc, callers'⟩ → FreeInv word pc := by
  intro pc callers' hret
  cases callers with
  | nil => simp [Dec.ret] at hret
  | cons p callers =>
    simp only [Dec.ret, Option.some.injEq, Dec.mk.injEq, DecPc.free.injEq] at hret
    exact hret.1 ▸ hsound.inv_start word p

theorem FreeSound.freeing_call (word target : Word m) :
    ∀ pc callers', Dec.call free target callers = some ⟨.free pc, callers'⟩ → FreeInv word pc := by
  intro pc callers' hcall
  cases htarget : target.target with
  | null =>
    simp only [Dec.call, htarget] at hcall
    exact hsound.freeing_ret word pc callers' hcall
  | node p | junk => simp [htarget] at hcall

theorem FreeSound.publish {refs placed : Fin m → Nat} {stage : Stage Tid} (hpool : PoolInv memory.pool book.stage)
    (howned : book.stage p = .owned thread) (hcounted : stage.isCounted = true) :
    PoolInv memory.pool (book.publish thread p stage refs placed).stage :=
  hsound.frame _ _ _ hpool (fun addr => Book.stage_publish_iff howned hcounted rfl (by simp) addr)
    fun addr _ => Book.stage_publish_iff howned hcounted rfl (by simp) addr

theorem FreeSound.claim (hpool : PoolInv memory.pool book.stage)
    (hcount : (book.stage p).isCounted = true) (content : Fin m → Nat) :
    PoolInv memory.pool (book.claim thread p content).stage := by
  refine hsound.frame _ _ _ hpool (fun addr => ?_) (fun addr other => ?_)
  all_goals
    by_cases heq : addr = p
    · subst heq
      cases hstage : book.stage addr <;> simp_all [Book.claim, Book.assign, Stage.isCounted]
    · simp [Book.claim, Book.assign, Book.move, update_of_ne heq]

end

theorem Claims.publish {refs placed : Fin m → Nat} {stage : Stage Tid}
    (hclaims : Claims thread book claims) (howned : book.stage p = .owned thread)
    (hcounted : stage.isCounted = true) : Claims thread (book.publish thread p stage refs placed) claims :=
  ⟨hclaims.nodup, fun addr =>
    (Book.stage_publish_iff howned hcounted rfl (by simp) addr).trans (hclaims.iff addr)⟩

theorem Claims.claim (hclaims : Claims thread book claims) (hcount : (book.stage p).isCounted = true)
    (content : Fin m → Nat) : Claims thread (book.claim thread p content) (p :: claims) := by
  have hnew : p ∉ claims := fun hmem => by
    rw [(hclaims.iff p).mpr hmem] at hcount
    simp [Stage.isCounted] at hcount
  refine ⟨List.nodup_cons.mpr ⟨hnew, hclaims.nodup⟩, fun addr => ?_⟩
  by_cases heq : addr = p
  · subst heq
    simp [Book.claim, Book.assign]
  · simp [Book.claim, Book.assign, Book.move, heq, hclaims.iff]

omit [DecidableEq Tid] in
theorem Claims.tail (hclaims : Claims thread book (p :: claims)) : Claims thread (book.assign p .free) claims := by
  obtain ⟨hnew, hnodup⟩ := List.nodup_cons.mp hclaims.nodup
  refine ⟨hnodup, fun addr => ?_⟩
  by_cases heq : addr = p
  · subst heq
    simpa [Book.assign] using hnew
  · have hiff := hclaims.iff addr
    simp only [List.mem_cons, heq, false_or] at hiff
    simpa [Book.assign, update_of_ne heq] using hiff

variable [Fintype Root] [Fintype Tid]

structure DecKeeps (free : FreeNode Root m Pool Free) (PoolInv : Pool → (Fin m → Stage Tid) → Prop)
    (FreeInv : Word m → Free → Prop) (thread : Tid) (memory : Memory Root m Pool) (book : Book Tid (Fin m))
    (rest : Fin m → Nat) (memory' : Memory Root m Pool) (book' : Book Tid (Fin m)) (dec' : Option (Dec m Free)) : Prop where
  effect : Effect thread memory book memory' book'
  pool : PoolInv memory'.pool book'.stage
  claims : Claims thread book' (claimsOf free dec')
  held : ∀ addr, book'.held thread addr = refsOf memory' dec' addr + rest addr
  kept : ∀ addr, (book.stage addr).keeper = some thread ∨ (book'.stage addr).keeper = some thread →
    book'.stage addr = book.stage addr
  freeing : ∀ pc callers, dec' = some ⟨.free pc, callers⟩ → FreeInv (memory'.next (free.node pc)) pc

omit [Fintype Root] [Fintype Tid] in
theorem keeps_free {pc : Free} {pc' : Option Free} (hsound : FreeSound free PoolInv FreeInv fine)
    (hpool : PoolInv memory.pool book.stage) (hfine : fine memory pc)
    (hclaims : Claims thread book (free.node pc :: callers))
    (hheld : ∀ addr, book.held thread addr = rest addr) (hinv : FreeInv (memory.next (free.node pc)) pc)
    (hstep : free.step memory pc = some (memory', pc')) :
    ∃ book', DecKeeps free PoolInv FreeInv thread memory book rest memory' book' (Dec.afterFree free callers pc') := by
  have hclaimed : book.stage (free.node pc) = .claimed thread := (hclaims.iff _).mpr List.mem_cons_self
  cases pc' with
  | some pc' =>
    obtain ⟨hnode, hpool', hinv', heffect⟩ :=
      hsound.next memory memory' book thread pc pc' hpool hclaimed hinv hfine hstep
    refine ⟨book, heffect, hpool', ?_, fun addr => ?_, fun _ _ => rfl, ?_⟩
    · simpa [Dec.afterFree, claimsOf, Dec.claims, hnode] using hclaims
    · simpa [Dec.afterFree, refsOf, Dec.refs] using hheld addr
    · intro found callers' hfound
      simp only [Dec.afterFree, Option.some.injEq, Dec.mk.injEq, DecPc.free.injEq] at hfound
      rw [← hfound.1, hnode]
      exact hinv'
  | none =>
    obtain ⟨hpool', heffect⟩ := hsound.last memory memory' book thread pc hpool hclaimed hinv hfine hstep
    refine ⟨book.assign (free.node pc) .free, heffect, hpool', ?_, fun addr => ?_,
      fun addr hkeeper => ?_, fun found => hsound.freeing_ret _ found⟩
    · rw [Dec.afterFree, claimsOf_ret hsound.node_start]
      exact hclaims.tail
    · simpa [Dec.afterFree, refsOf_ret, Book.assign] using hheld addr
    · by_cases heq : addr = free.node pc
      · subst heq
        simp [Book.assign, hclaimed, Stage.keeper] at hkeeper
      · exact update_of_ne heq _ _

section Dec

variable (hsound : FreeSound free PoolInv FreeInv fine) (hcounted : Counted memory extra book)
  (hpool : PoolInv memory.pool book.stage) (hkept : ∀ addr, (book.stage addr).keeper = some thread → 0 < rest addr)

include hsound hcounted hpool hkept

theorem keeps_cas (hclaims : Claims thread book callers)
    (hheld : ∀ addr, book.held thread addr = one p addr + rest addr)
    (hunpinned : isClaim (memory.refcnt p) = true → ∀ user, ¬ book.pinned user p) :
    ∃ book', DecKeeps free PoolInv FreeInv thread memory book rest
      (memory.setRefcnt p (decrement (memory.refcnt p))) book'
      (if isClaim (memory.refcnt p) then some ⟨.readNext p, callers⟩ else Dec.ret free callers) := by
  have hpos : 0 < book.held thread p := by
    rw [hheld, Book.one_self]
    omega
  have hkeeper : (book.stage p).keeper = some thread → 1 < book.held thread p := by
    intro hkeeper
    have hrest := hkept p hkeeper
    rw [hheld, Book.one_self]
    omega
  by_cases hclaim : isClaim (memory.refcnt p) = true
  · have hnot : (book.stage p).keeper ≠ some thread := by
      intro hkeeper'
      have hle := book.held_le_total thread p
      have hexact := hcounted.exact p
      have htwo := isClaim_iff.mp hclaim
      have hmore := hkeeper hkeeper'
      omega
    obtain ⟨hcount, htotal⟩ := hcounted.of_claim hpos hclaim hnot
    have hone : decrement (memory.refcnt p) = 1 := by
      rw [isClaim_iff.mp hclaim]
      rfl
    rw [if_pos hclaim, hone]
    refine ⟨book.claim thread p (memory.next p).refs,
      Effect.claim p memory.pool hpos hclaim hnot (hunpinned hclaim), hsound.claim hpool hcount _,
      hclaims.claim hcount _, fun addr => ?_, fun addr hkeeper' => ?_, by simp⟩
    · have hold := hheld addr
      simp only [Book.claim, Book.assign, Book.move, update_self, refsOf, Dec.refs, Memory.setRefcnt]
      omega
    · by_cases heq : addr = p
      · subst heq
        refine absurd (hkeeper'.resolve_right ?_) hnot
        simp [Book.claim, Book.assign, Stage.keeper]
      · exact update_of_ne heq _ _
  · have hfalse : isClaim (memory.refcnt p) = false := by simpa using hclaim
    have hle := hcounted.le_refcnt hpos
    have hne : memory.refcnt p ≠ 2 := fun htwo => hclaim (isClaim_iff.mpr htwo)
    rw [if_neg hclaim, decrement_of_ne hle hne]
    refine ⟨book.drop thread p, Effect.drop p memory.pool hpos hfalse hkeeper, hpool, ?_, fun addr => ?_,
      fun _ _ => rfl, fun found => hsound.freeing_ret _ found⟩
    · rw [claimsOf_ret hsound.node_start]
      exact ⟨hclaims.nodup, hclaims.iff⟩
    · have hold := hheld addr
      simp only [Book.drop, Book.move, update_self, refsOf_ret, Pi.zero_apply]
      omega

theorem decStep_keeps {dec' : Option (Dec m Free)} (hclaims : Claims thread book (dec.claims free))
    (hheld : ∀ addr, book.held thread addr = dec.refs memory addr + rest addr)
    (hunpinned : ∀ p, dec.pc = .cas p (memory.refcnt p) → isClaim (memory.refcnt p) = true →
      ∀ user, ¬ book.pinned user p)
    (hfine : ∀ pc, dec.pc = .free pc → fine memory pc)
    (hfreeing : ∀ pc, dec.pc = .free pc → FreeInv (memory.next (free.node pc)) pc)
    (hstep : decStep free memory dec = some (memory', dec')) :
    ∃ book', DecKeeps free PoolInv FreeInv thread memory book rest memory' book' dec' := by
  obtain ⟨pc, callers⟩ := dec
  cases pc with
  | load p | readNext p =>
    cases hstep
    exact ⟨book, .stay memory.pool, hpool, hclaims, hheld, fun _ _ => rfl, by simp⟩
  | cas p old =>
    simp only [decStep] at hstep
    split at hstep
    · rename_i hold
      subst hold
      cases hstep
      exact keeps_cas hsound hcounted hpool hkept hclaims hheld (hunpinned p rfl)
    · cases hstep
      exact ⟨book, .stay memory.pool, hpool, hclaims, hheld, fun _ _ => rfl, by simp⟩
  | writeNext p next =>
    cases hstep
    have hclaimed : book.stage p = .claimed thread := (hclaims.iff p).mpr List.mem_cons_self
    refine ⟨book, .rewrite p next memory.pool hclaimed, hpool, hclaims, fun addr => ?_, fun _ _ => rfl, by simp⟩
    simpa [refsOf, Dec.refs, Memory.setNext] using hheld addr
  | loadNext p =>
    cases hstep
    refine ⟨book, .stay memory.pool, hpool, ?_, ?_, fun _ _ => rfl, fun found => hsound.freeing_call _ _ found⟩
    · rw [claimsOf_call hsound.node_start]
      exact hclaims
    · rw [refsOf_call]
      exact hheld
  | free pc =>
    simp only [decStep, Option.map_eq_some_iff, Prod.exists, Prod.mk.injEq] at hstep
    obtain ⟨_, pc', hfree, rfl, rfl⟩ := hstep
    refine keeps_free hsound hpool (hfine pc rfl) hclaims (fun addr => ?_) (hfreeing pc rfl) hfree
    simpa [Dec.refs] using hheld addr
  | fault => simp [decStep] at hstep

end Dec

/-! ### A step of a thread -/

variable {control' : Control m Free Line}

structure StepKeeps (free : FreeNode Root m Pool Free) (PoolInv : Pool → (Fin m → Stage Tid) → Prop)
    (FreeInv : Word m → Free → Prop) (lines : Holdings m Line) (thread : Tid) (memory : Memory Root m Pool)
    (book : Book Tid (Fin m)) (memory' : Memory Root m Pool) (book' : Book Tid (Fin m))
    (control' : Control m Free Line) : Prop where
  effect : Effect thread memory book memory' book'
  pool : PoolInv memory'.pool book'.stage
  part : ThreadBook free FreeInv lines thread memory' book' control'

omit [DecidableEq Tid] [Fintype Root] [Fintype Tid] in
theorem node_mem_claims {pc : Free} (hpc : control.freeing = some pc) : free.node pc ∈ control.claims free := by
  match control with
  | .at _ => simp [Control.freeing] at hpc
  | .drop ⟨decPc, callers⟩ todo after =>
    cases decPc with
    | free found =>
      obtain rfl := Option.some.inj hpc
      exact List.mem_cons_self
    | _ => simp [Control.freeing] at hpc

omit [DecidableEq Tid] [Fintype Root] [Fintype Tid] in
theorem ThreadBook.line_le_held (hpart : ThreadBook free FreeInv lines thread memory book control)
    (addr : Fin m) : lines.refs control.line addr ≤ book.held thread addr := by
  rw [hpart.held addr]
  cases control with
  | «at» line => exact Nat.le_refl _
  | drop dec todo after => exact Nat.le_add_left _ _

omit [DecidableEq Tid] [Fintype Root] [Fintype Tid] in
theorem ThreadBook.stable (hpart : ThreadBook free FreeInv lines thread memory book control)
    (hapart : Book.Apart thread book book')
    (hnext : ∀ addr, book.stage addr = .claimed thread → memory'.next addr = memory.next addr) :
    ThreadBook free FreeInv lines thread memory' book' control := by
  have hstage : ∀ addr, book'.stage addr = .claimed thread ↔ book.stage addr = .claimed thread := by
    intro addr
    constructor
    · intro hclaimed
      rw [← hapart.mine addr (.inr (by rw [hclaimed]; rfl)), hclaimed]
    · intro hclaimed
      rw [hapart.mine addr (.inl (by rw [hclaimed]; rfl)), hclaimed]
  refine ⟨⟨hpart.claims.nodup, fun addr => (hstage addr).trans (hpart.claims.iff addr)⟩, fun addr => ?_,
    fun addr hkeeper => ?_, fun pc hpc => ?_⟩
  · rw [hapart.held, hpart.held addr]
    cases control with
    | «at» line => rfl
    | drop dec todo after =>
      obtain ⟨pc, callers⟩ := dec
      have hclaimed : ∀ p, p ∈ (Dec.mk pc callers).claims free → memory'.next p = memory.next p :=
        fun p hmem => hnext p ((hpart.claims.iff p).mpr hmem)
      cases pc with
      | readNext p | loadNext p => simp [Control.refs, Dec.refs, hclaimed p List.mem_cons_self]
      | _ => rfl
  · have howner : (book'.stage addr).owner = some thread := by
      cases hstage' : book'.stage addr <;> simp_all [Stage.keeper, Stage.owner]
    rw [hapart.mine addr (.inr howner)] at hkeeper
    exact hpart.kept addr hkeeper
  · rw [hnext _ ((hpart.claims.iff _).mpr (node_mem_claims hpc))]
    exact hpart.freeing pc hpc

theorem dropStep_keeps (hsound : FreeSound free PoolInv FreeInv fine) (hcounted : Counted memory extra book)
    (hpool : PoolInv memory.pool book.stage)
    (hpart : ThreadBook free FreeInv lines thread memory book (.drop dec todo after))
    (hunpinned : ∀ p, (Control.drop dec todo after).claiming memory = some p → ∀ user, ¬ book.pinned user p)
    (hfine : ∀ pc, dec.pc = .free pc → fine memory pc)
    (hstep : dropStep free memory dec todo after = some (memory', control')) :
    control'.line = after ∧ ∃ book', StepKeeps free PoolInv FreeInv lines thread memory book memory' book' control' ∧
        ∀ addr, (book.stage addr).keeper = some thread → book'.stage addr = book.stage addr := by
  simp only [dropStep, Option.map_eq_some_iff, Prod.exists, Prod.mk.injEq] at hstep
  obtain ⟨_, dec', hdec, rfl, rfl⟩ := hstep
  have hheld : ∀ addr, book.held thread addr =
      dec.refs memory addr + ((todo.map Word.refs).sum + lines.refs after) addr := by
    intro addr
    rw [hpart.held addr]
    simp only [Control.refs, Pi.add_apply]
    omega
  have hkept : ∀ addr, (book.stage addr).keeper = some thread →
      0 < ((todo.map Word.refs).sum + lines.refs after) addr := by
    intro addr hkeeper
    have hafter := lines.refs_own after addr (hpart.kept addr hkeeper)
    simp only [Pi.add_apply]
    omega
  have hclaiming : ∀ p, dec.pc = .cas p (memory.refcnt p) → isClaim (memory.refcnt p) = true →
      ∀ user, ¬ book.pinned user p := by
    intro p hpc hclaim
    apply hunpinned
    obtain ⟨pc, callers⟩ := dec
    obtain rfl : pc = .cas p (memory.refcnt p) := hpc
    simp [Control.claiming, Control.decrementing, hclaim]
  have hfreeing : ∀ pc, dec.pc = .free pc → FreeInv (memory.next (free.node pc)) pc := by
    intro pc hpc
    obtain ⟨decPc, callers⟩ := dec
    obtain rfl : decPc = .free pc := hpc
    exact hpart.freeing pc rfl
  obtain ⟨book', hkeeps⟩ :=
    decStep_keeps hsound hcounted hpool hkept hpart.claims hheld hclaiming hfine hfreeing hdec
  cases dec' with
  | some dec' =>
    refine ⟨rfl, book', ⟨hkeeps.effect, hkeeps.pool, hkeeps.claims, fun addr => ?_,
      fun addr hkeeper => ?_, fun pc hpc => ?_⟩, fun addr hkeeper => hkeeps.kept addr (.inl hkeeper)⟩
    · rw [hkeeps.held addr]
      simp only [afterDec, Control.refs, refsOf, Pi.add_apply]
      omega
    · rw [hkeeps.kept addr (.inr hkeeper)] at hkeeper
      exact hpart.kept addr hkeeper
    · obtain ⟨decPc, callers⟩ := dec'
      cases decPc with
      | free found =>
        obtain rfl := Option.some.inj hpc
        exact hkeeps.freeing found callers rfl
      | _ => simp [afterDec, Control.freeing] at hpc
  | none =>
    refine ⟨line_release, book', ⟨hkeeps.effect, hkeeps.pool, ?_, fun addr => ?_, fun addr hkeeper => ?_,
      fun pc hpc => ?_⟩, fun addr hkeeper => hkeeps.kept addr (.inl hkeeper)⟩
    · rw [afterDec, claims_release hsound.node_start]
      exact hkeeps.claims
    · rw [hkeeps.held addr, afterDec, refs_release]
      simp [refsOf]
    · rw [hkeeps.kept addr (.inr hkeeper)] at hkeeper
      rw [afterDec, line_release]
      exact hpart.kept addr hkeeper
    · simp [afterDec, freeing_release] at hpc

omit [Fintype Root] [Fintype Tid] in
/-- `safe_read` of a location that holds `value`, by a thread with the references `base` beside. -/
theorem safeStep_keeps {value : Word m} {back : SafePc m → Line} {done : Word m → Line}
    {base : Fin m → Nat} {pc : SafePc m} (hsound : FreeSound free PoolInv FreeInv fine)
    (hpool : PoolInv memory.pool book.stage)
    (hback : ∀ pc, lines.refs (back pc) = pc.refs + base)
    (hdone : lines.refs (done value) = value.refs + base)
    (hownBack : ∀ pc', lines.own (back pc') = lines.own (back pc))
    (hownDone : lines.own (done value) = lines.own (back pc))
    (hpart : ThreadBook free FreeInv lines thread memory book (.at (back pc)))
    (hstep : safeStep free memory value back done pc = some (memory', control')) :
    ∃ book', StepKeeps free PoolInv FreeInv lines thread memory book memory' book' control' ∧
      ((∃ pc', control'.line = back pc') ∨ control' = .at (done value) ∧ memory' = memory ∧ book' = book) := by
  have hheld : ∀ addr, book.held thread addr = pc.refs addr + base addr := by
    intro addr
    rw [hpart.held addr, Control.refs, hback]
    rfl
  have hkept : ∀ pc' addr, (book.stage addr).keeper = some thread → lines.own (back pc') = some addr :=
    fun pc' addr hkeeper => (hownBack pc').trans (hpart.kept addr hkeeper)
  have hfinished : pc.refs = value.refs → ThreadBook free FreeInv lines thread memory book (.at (done value)) := by
    intro hrefs
    refine ⟨hpart.claims, fun addr => ?_, fun addr hkeeper => ?_, by simp [Control.freeing]⟩
    · rw [Control.refs, hdone, hheld addr, hrefs]
      rfl
    · exact hownDone.trans (hpart.kept addr hkeeper)
  cases pc with
  | load =>
    have hgo : ThreadBook free FreeInv lines thread memory book (.at (back (.inc value))) := by
      refine ⟨hpart.claims, fun addr => ?_, hkept _, by simp [Control.freeing]⟩
      rw [Control.refs, hback, hheld addr]
      rfl
    cases htarget : value.target with
    | null =>
      simp only [safeStep, htarget, Option.some.injEq, Prod.mk.injEq] at hstep
      obtain ⟨rfl, rfl⟩ := hstep
      have hnull : value.refs = 0 := refs_eq_zero (by simp [htarget])
      exact ⟨book, ⟨.stay memory.pool, hpool, hfinished hnull.symm⟩, .inr ⟨rfl, rfl, rfl⟩⟩
    | node addr | junk =>
      simp only [safeStep, htarget, Option.some.injEq, Prod.mk.injEq] at hstep
      obtain ⟨rfl, rfl⟩ := hstep
      exact ⟨book, ⟨.stay memory.pool, hpool, hgo⟩, .inl ⟨_, rfl⟩⟩
  | inc q =>
    cases htarget : q.target with
    | node addr =>
      simp only [safeStep, htarget, Option.some.injEq, Prod.mk.injEq] at hstep
      obtain ⟨rfl, rfl⟩ := hstep
      have hclaims : Claims thread (book.take thread addr) [] := ⟨hpart.claims.nodup, hpart.claims.iff⟩
      refine ⟨book.take thread addr, ⟨.take addr memory.pool, hpool, hclaims, fun other => ?_,
        hkept _, by simp [Control.freeing]⟩, .inl ⟨_, rfl⟩⟩
      have hold := hheld other
      simp only [SafePc.refs, Pi.zero_apply] at hold
      rw [Control.refs, hback]
      simp only [Book.take, Book.move, update_self, SafePc.refs, refs_of_target htarget, Pi.add_apply]
      omega
    | null | junk => simp [safeStep, htarget] at hstep
  | check q =>
    by_cases heq : q = value
    · subst heq
      simp only [safeStep, if_true, Option.some.injEq, Prod.mk.injEq] at hstep
      obtain ⟨rfl, rfl⟩ := hstep
      exact ⟨book, ⟨.stay memory.pool, hpool, hfinished rfl⟩, .inr ⟨rfl, rfl, rfl⟩⟩
    · simp only [safeStep, if_neg heq, Option.some.injEq, Prod.mk.injEq] at hstep
      obtain ⟨rfl, rfl⟩ := hstep
      refine ⟨book, ⟨.stay memory.pool, hpool,
        threadBook_release hsound.node_start hpart.claims (fun addr => ?_) (hkept _)⟩,
        .inl ⟨_, line_release⟩⟩
      rw [hback, hheld addr]
      simp [SafePc.refs]

/-! ### The allocator with atomic steps -/

section Atomic

variable {memory memory' : Memory Root m (List (Fin m))} {lines : Holdings m Line}

structure AtomicPool (pool : List (Fin m)) (stage : Fin m → Stage Tid) : Prop where
  nodup : pool.Nodup
  mem_iff : ∀ addr, addr ∈ pool ↔ stage addr = .free

def AtomicFree.Inv (word : Word m) : AtomicFree m → Prop
  | .writeNext _ => True
  | .push _ => word.refs = 0

omit [Fintype Root] [Fintype Tid] in
theorem freeSound_atomic : FreeSound (atomic : Allocator Root m _ _ _).toFreeNode
    (fun pool (stage : Fin m → Stage Tid) => AtomicPool pool stage) AtomicFree.Inv fun _ _ => True where
  node_start _ := rfl
  inv_start _ _ := trivial
  frame pool stage stage' hpool hfree _ := ⟨hpool.nodup, fun addr => (hpool.mem_iff addr).trans (hfree addr).symm⟩
  next memory memory' book thread pc pc' hpool hclaimed _ _ hstep := by
    cases pc with
    | writeNext p =>
      cases hstep
      refine ⟨rfl, hpool, ?_, .rewrite p .junk memory.pool hclaimed⟩
      simp [atomic, AtomicFree.Inv, AtomicFree.node, Memory.setNext]
    | push p => simp [atomic, atomicFreeStep] at hstep
  last memory memory' book thread pc hpool hclaimed hinv _ hstep := by
    cases pc with
    | writeNext p => simp [atomic, atomicFreeStep] at hstep
    | push p =>
      simp only [atomic, atomicFreeStep, Option.some.injEq, Prod.mk.injEq] at hstep
      obtain ⟨rfl, -⟩ := hstep
      replace hclaimed : book.stage p = .claimed thread := hclaimed
      have hnew : p ∉ memory.pool := fun hmem => by
        rw [hpool.mem_iff, hclaimed] at hmem
        simp at hmem
      refine ⟨⟨List.nodup_cons.mpr ⟨hnew, hpool.nodup⟩, fun addr => ?_⟩, .free p _ hclaimed hinv⟩
      by_cases heq : addr = p
      · subst heq
        simp [Memory.setPool, Book.assign, atomic, AtomicFree.node]
      · simp [Memory.setPool, Book.assign, atomic, AtomicFree.node, heq, hpool.mem_iff]

def NewInv (thread : Tid) (book : Book Tid (Fin m)) : AtomicNew m → Prop
  | .pop => True
  | .clearLoad p | .clearCas p _ => book.stage p = .fresh thread

omit [DecidableEq Tid] [Fintype Tid] in
theorem NewInv.stable {pc : AtomicNew m} (hinv : NewInv thread book pc)
    (hkept : ∀ addr, (book.stage addr).keeper = some thread → book'.stage addr = book.stage addr) :
    NewInv thread book' pc := by
  cases pc with
  | pop => trivial
  | clearLoad p | clearCas p old => exact (hkept p (by rw [show book.stage p = _ from hinv]; rfl)).trans hinv

def AtomicNew.own : AtomicNew m → Option (Fin m)
  | .pop => none
  | .clearLoad p | .clearCas p _ => some p

omit [Fintype Root] [Fintype Tid] in
/-- A step of `new_node` by a thread that holds nothing else. -/
theorem newStep_keeps {back : AtomicNew m → Line} {done : Fin m → Line} {pc : AtomicNew m}
    {result : AtomicNew m ⊕ Fin m} (hpool : AtomicPool memory.pool book.stage)
    (hback : ∀ pc, lines.refs (back pc) = pc.refs) (hdone : ∀ p, lines.refs (done p) = one p)
    (hownBack : ∀ pc, lines.own (back pc) = pc.own) (hownDone : ∀ p, lines.own (done p) = some p)
    (hpart : ThreadBook atomic.toFreeNode AtomicFree.Inv lines thread memory book (.at (back pc)))
    (hinv : NewInv thread book pc) (hstep : atomicNewStep memory pc = some (memory', result)) :
    ∃ book', StepKeeps atomic.toFreeNode AtomicPool AtomicFree.Inv lines thread memory book memory' book'
        (.at (result.elim back done)) ∧
      (∀ pc', result = .inl pc' → NewInv thread book' pc') ∧
      (∀ p, result = .inr p → book'.stage p = .owned thread) := by
  have hheld : ∀ addr, book.held thread addr = pc.refs addr := by
    intro addr
    rw [hpart.held addr, Control.refs, hback]
  have hkept : ∀ addr, (book.stage addr).keeper = some thread → pc.own = some addr :=
    fun addr hkeeper => (hownBack pc).symm.trans (hpart.kept addr hkeeper)
  -- Neither reading the count nor failing to change it does anything.
  have hstay : ∀ pc' : AtomicNew m, pc'.refs = pc.refs → pc'.own = pc.own →
      ThreadBook atomic.toFreeNode AtomicFree.Inv lines thread memory book (.at (back pc')) := by
    intro pc' hrefs hown
    refine ⟨hpart.claims, fun addr => ?_, fun addr hkeeper => ?_, by simp [Control.freeing]⟩
    · rw [Control.refs, hback, hrefs, hheld addr]
    · rw [Control.line, hownBack, hown]
      exact hkept addr hkeeper
  cases pc with
  | pop =>
    cases hlist : memory.pool with
    | nil => simp [atomicNewStep, hlist] at hstep
    | cons p pool =>
      simp only [atomicNewStep, hlist, Option.some.injEq, Prod.mk.injEq] at hstep
      obtain ⟨rfl, rfl⟩ := hstep
      rw [hlist] at hpool
      obtain ⟨hnew, hnodup⟩ := List.nodup_cons.mp hpool.nodup
      have hfree : book.stage p = .free := (hpool.mem_iff p).mp List.mem_cons_self
      have hself : ((book.take thread p).assign p (.fresh thread)).stage p = .fresh thread :=
        update_self _ _ _
      have hother : ∀ addr, addr ≠ p → ((book.take thread p).assign p (.fresh thread)).stage addr = book.stage addr :=
        fun addr hne => update_of_ne hne _ _
      refine ⟨(book.take thread p).assign p (.fresh thread),
        ⟨.takeFresh p pool hfree, ⟨hnodup, fun addr => ?_⟩, ⟨List.nodup_nil, fun addr => ?_⟩,
          fun addr => ?_, fun addr hkeeper => ?_, by simp [Control.freeing]⟩, ?_, by simp⟩
      · by_cases heq : addr = p
        · subst heq
          simp [Memory.setPool, hself, hnew]
        · have hmem := hpool.mem_iff addr
          simp only [List.mem_cons, heq, false_or] at hmem
          rw [hother addr heq]
          exact hmem
      · by_cases heq : addr = p
        · subst heq
          simp [hself, Control.claims]
        · rw [hother addr heq]
          exact hpart.claims.iff addr
      · have hold := hheld addr
        simp only [AtomicNew.refs, Pi.zero_apply] at hold
        simp only [Book.assign, Book.take, Book.move, update_self, Control.refs, Sum.elim_inl, hback, AtomicNew.refs]
        omega
      · rw [Control.line, Sum.elim_inl, hownBack]
        by_cases heq : addr = p
        · subst heq
          rfl
        · rw [hother addr heq] at hkeeper
          have hnone := hkept addr hkeeper
          simp [AtomicNew.own] at hnone
      · rintro pc' heq
        obtain rfl := Sum.inl.inj heq
        exact hself
  | clearLoad p =>
    cases hstep
    refine ⟨book, ⟨.stay memory.pool, hpool, hstay _ rfl rfl⟩, ?_, by simp⟩
    rintro pc' heq
    obtain rfl := Sum.inl.inj heq
    exact hinv
  | clearCas p old =>
    by_cases hold : memory.refcnt p = old
    · subst hold
      simp only [atomicNewStep, if_true, Option.some.injEq, Prod.mk.injEq] at hstep
      obtain ⟨rfl, rfl⟩ := hstep
      have hself : (book.assign p (.owned thread)).stage p = .owned thread := update_self _ _ _
      have hother : ∀ addr, addr ≠ p → (book.assign p (.owned thread)).stage addr = book.stage addr :=
        fun addr hne => update_of_ne hne _ _
      replace hinv : book.stage p = .fresh thread := hinv
      refine ⟨book.assign p (.owned thread), ⟨.settle p memory.pool hinv, ⟨hpool.nodup, fun addr => ?_⟩,
        ⟨List.nodup_nil, fun addr => ?_⟩, fun addr => ?_, fun addr hkeeper => ?_,
        by simp [Control.freeing]⟩, by simp, ?_⟩
      · by_cases heq : addr = p
        · subst heq
          have hmem := hpool.mem_iff addr
          simpa [hself, hinv, Memory.setRefcnt] using hmem
        · rw [hother addr heq]
          exact hpool.mem_iff addr
      · by_cases heq : addr = p
        · subst heq
          simp [hself, Control.claims]
        · rw [hother addr heq]
          exact hpart.claims.iff addr
      · rw [Control.refs, Sum.elim_inr, hdone]
        exact hheld addr
      · rw [Control.line, Sum.elim_inr, hownDone]
        by_cases heq : addr = p
        · rw [heq]
        · rw [hother addr heq] at hkeeper
          exact hkept addr hkeeper
      · rintro p' heq
        obtain rfl := Sum.inr.inj heq
        exact hself
    · simp only [atomicNewStep, if_neg hold, Option.some.injEq, Prod.mk.injEq] at hstep
      obtain ⟨rfl, rfl⟩ := hstep
      refine ⟨book, ⟨.stay memory.pool, hpool, hstay _ rfl rfl⟩, ?_, by simp⟩
      rintro pc' heq
      obtain rfl := Sum.inl.inj heq
      exact hinv

end Atomic

end Lfmr.Lfrc
