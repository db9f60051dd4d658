import Lfmr.Proof.CountedQueueSteps

/-!
# The runs of the queue with reference counts
-/

namespace Lfmr.CountedQueue

open Function Finset Lfmr.Concurrency Lfmr.Concurrency.RefCount Lfmr.Lfrc

variable {n m : Nat} {memory memory' : Memory m} {ghost : Ghost n m} {thread : Fin n}
  {node next h t addr : Fin m} {line : Line m} {pc pc' : Pc m} {choice : Choice}

/-! ### The procedures -/

section

variable (hglobal : GlobalInv memory ghost)
include hglobal

theorem keeps_safeRead {value : Word m} {back : SafePc m → Line m} {done : Word m → Line m}
    {base : Fin m → Nat} {safePc : SafePc m}
    (hthread : ThreadInv thread memory ghost (.at (back safePc)))
    (hstep : safeStep atomic.toFreeNode memory value back done safePc = some (memory', pc'))
    (hback : ∀ pc, (back pc).refs = pc.refs + base) (hdone : (done value).refs = value.refs + base)
    (hownBack : ∀ pc, (back pc).own = (back safePc).own) (hownDone : (done value).own = (back safePc).own)
    (hbackInv : ∀ pc, LineInv thread memory ghost (back pc)) (hdoneInv : LineInv thread memory ghost (done value))
    (hnew : ∀ pc key new, back pc ≠ .newNode key new) (hnewDone : ∀ key new, done value ≠ .newNode key new) :
    Keeps thread memory ghost memory' pc' := by
  obtain ⟨book', hkeeps, hline | ⟨rfl, -, -⟩⟩ := safeStep_keeps freeSound_atomic hglobal.pool hback hdone
    hownBack hownDone hthread.part hstep
  · obtain ⟨back', hline⟩ := hline
    refine keeps_step hglobal hkeeps ?_ ?_
    · rw [hline]
      exact hbackInv back'
    · rw [hline]
      exact fun key new heq => absurd heq (hnew back' key new)
  · exact keeps_step hglobal hkeeps hdoneInv fun key new heq => absurd heq (hnewDone key new)

theorem keeps_dropStep {dec : Dec m (AtomicFree m)} {todo : List (Word m)} {after : Line m}
    (hthread : ThreadInv thread memory ghost (.drop dec todo after))
    (hstep : dropStep atomic.toFreeNode memory dec todo after = some (memory', pc')) :
    Keeps thread memory ghost memory' pc' := by
  obtain ⟨hafter, book', hkeeps, hkept⟩ := dropStep_keeps freeSound_atomic hglobal.counted hglobal.pool hthread.part
    (fun p _ user => hglobal.unpinned user p) (fun _ _ => trivial) hstep
  refine keeps_step hglobal hkeeps ?_ fun _ _ _ hnew => hnew.stable hkept
  rw [hafter]
  exact hthread.line

theorem keeps_newNode {key : Int} {new : AtomicNew m} {result : AtomicNew m ⊕ Fin m}
    (hthread : ThreadInv thread memory ghost (.at (.newNode key new)))
    (hstep : atomicNewStep memory new = some (memory', result)) :
    Keeps thread memory ghost memory' (.at (result.elim (.newNode key) (.incRef key))) := by
  have hrefs : ∀ p : Fin m, holdings.refs (.incRef key p) = one p := fun _ => rfl
  obtain ⟨book', hkeeps, hback, hdone⟩ := newStep_keeps hglobal.pool (fun _ => rfl) hrefs
    (fun _ => rfl) (fun _ => rfl) hthread.part hthread.line hstep
  refine keeps_effect hglobal hkeeps fun past => ?_
  cases result with
  | inl new' => exact hback new' rfl
  | inr p => exact hdone p rfl

theorem keeps_incRef {key : Int} (hthread : ThreadInv thread memory ghost (.at (.incRef key node))) :
    Keeps thread memory ghost (memory.addRef node) (.at (.writeKey key node)) := by
  have hpart := hthread.part
  have hkeeps : StepKeeps atomic.toFreeNode AtomicPool AtomicFree.Inv holdings thread memory ghost.book
      (memory.addRef node) (ghost.book.take thread node) (.at (.writeKey key node)) := by
    refine ⟨.take node memory.pool, hglobal.pool, ⟨hpart.claims.nodup, hpart.claims.iff⟩, fun addr => ?_,
      hpart.kept, by simp [Control.freeing]⟩
    simp [Book.take, Book.move, hpart.held addr, Control.refs, holdings, Line.refs]
  exact keeps_step hglobal hkeeps hthread.line (by simp [Control.line])

end

attribute [local simp] SafePc.refs Stage.keeper

section

variable (hglobal : GlobalInv memory ghost)
include hglobal

theorem GlobalInv.tail_reached : Reached memory ghost ghost.tail where
  shared := hglobal.mem_chain_iff.mp hglobal.tail_mem_chain
  reached := by
    rw [hglobal.beyondTail_eq]
    rcases hglobal.tidy _ hglobal.tail_mem_chain with hnull | ⟨next, hnext⟩
    · rw [hnull, refs_null]
      rfl
    · rw [hnext, refs_node]
      apply Book.one_of_ne
      rintro heq
      have hnull := hglobal.lag next hnext
      rw [← heq, hnext] at hnull
      simp [Word.node, Word.null] at hnull

theorem keeps_helpTail {todo : List (Word m)} {after : Line m} {word : Word m}
    (hthread : ThreadInv thread memory ghost (.at line))
    (hshared : ghost.book.stage t = .shared) (hnext : memory.next t = word) (hne : word ≠ .null)
    (hstep : (match casRoot memory .tail (.node t) word with
      | some memory => some (memory, thenLine (.node t :: todo) after)
      | none => some (memory, thenLine todo after)) = some (memory', pc'))
    (hrefs : ∀ addr, line.refs addr = (todo.map Word.refs).sum addr + after.refs addr)
    (hown : after.own = line.own) (hline : LineInv thread memory ghost after) :
    Keeps thread memory ghost memory' pc' := by
  unfold casRoot at hstep
  by_cases htail : memory.root .tail = .node t
  · simp only [htail, if_true, Option.some.injEq, Prod.mk.injEq] at hstep
    obtain ⟨rfl, rfl⟩ := hstep
    rcases hglobal.tidy t (hglobal.mem_chain_iff.mpr hshared) with hnull | ⟨next, hnode⟩
    · exact absurd (hnext.symm.trans hnull) hne
    · obtain rfl : word = .node next := hnext.symm.trans hnode
      refine keeps_moveTail hglobal hthread htail hnode (fun addr => ?_) hown hline
      rw [hrefs addr, List.map_cons, List.sum_cons, refs_node, Pi.add_apply]
      omega
  · simp only [htail, if_false, Option.some.injEq, Prod.mk.injEq] at hstep
    obtain ⟨rfl, rfl⟩ := hstep
    exact keeps_release hglobal hthread hrefs hown hline

theorem enqueueStep_keeps (hthread : ThreadInv thread memory ghost (.at line))
    (hstep : enqueueStep memory line = some (memory', pc')) : Keeps thread memory ghost memory' pc' := by
  have hline := hthread.line
  cases line with
  | newNode key new =>
    simp only [enqueueStep, Option.map_eq_some_iff, Prod.exists, Prod.mk.injEq] at hstep
    obtain ⟨_, result, hnew, rfl, rfl⟩ := hstep
    exact keeps_newNode hglobal hthread hnew
  | incRef key node =>
    cases hstep
    exact keeps_incRef hglobal hthread
  | writeKey key node =>
    cases hstep
    refine keeps_private hglobal hthread hline rfl rfl rfl (fun _ _ => rfl) ?_ rfl rfl hline
    exact hglobal.empty node (.inr (by rw [show ghost.book.stage node = _ from hline]; simp))
  | writeNext node =>
    cases hstep
    have hself : (memory.setNext node .null).next node = .null := update_self _ _ _
    refine keeps_private hglobal hthread hline rfl rfl rfl
      (fun addr hne => update_of_ne hne _ _) ?_ ?_ rfl ⟨hline, hself⟩
    · rw [hself, refs_null]
    · simp [Line.refs]
  | loadTail node safePc =>
    simp only [enqueueStep, hglobal.tail] at hstep
    exact keeps_safeRead hglobal hthread hstep (fun _ => rfl) rfl (fun _ => rfl) rfl (fun _ => hline)
      ⟨hline, hglobal.tail_reached⟩ (by simp) (by simp [follow, Word.node])
  | readNext node t =>
    cases hstep
    exact keeps_at hglobal hthread rfl rfl ⟨hline.1, hline.2, fun _ => rfl⟩
  | checkTail node t next =>
    obtain ⟨hready, hreached, hnext⟩ := hline
    simp only [enqueueStep] at hstep
    split at hstep
    · cases hstep
      refine keeps_release hglobal hthread (fun addr => ?_) rfl hready
      simp [Line.refs]
    · split at hstep
      · rename_i hne
        cases hstep
        exact keeps_at hglobal hthread rfl rfl ⟨hready, hreached.shared, hnext hne, hne⟩
      · cases hstep
        exact keeps_at hglobal hthread rfl rfl ⟨hready, hreached⟩
  | helpTail node t next =>
    obtain ⟨hready, hshared, hnext, hne⟩ := hline
    refine keeps_helpTail hglobal hthread hshared hnext hne hstep (fun addr => ?_) rfl hready
    simp [Line.refs]
  | link node t =>
    simp only [enqueueStep] at hstep
    split at hstep
    · rename_i hnull
      cases hstep
      exact keeps_link hglobal hthread hnull
    · cases hstep
      refine keeps_release hglobal hthread (fun addr => ?_) rfl hline.1
      simp [Line.refs]
  | swingTail node t =>
    obtain ⟨hshared, hnext⟩ := hline
    refine keeps_helpTail hglobal hthread hshared hnext (by simp [Word.node, Word.null]) hstep
      (fun addr => ?_) rfl trivial
    simp [Line.refs]
  | _ => simp [enqueueStep] at hstep

theorem keeps_dequeueOn {word : Word m} (hthread : ThreadInv thread memory ghost (.at (.checkHead h t word))) :
    Keeps thread memory ghost memory (dequeueOn h t word) := by
  obtain ⟨hpassed, ht, hseen, hnext⟩ := hthread.line
  unfold dequeueOn
  split
  · refine keeps_release hglobal hthread (fun addr => ?_) rfl trivial
    simp [Line.refs]
  · rename_i hne
    have heq := hnext hne
    split
    · rename_i hht
      exact keeps_at hglobal hthread rfl rfl ⟨hpassed.shared, hht, heq, hne⟩
    · rename_i hht
      rcases hglobal.tidy h (hglobal.mem_chain_iff.mpr hpassed.shared) with hnull | ⟨next, hnode⟩
      · exact absurd (heq.symm.trans hnull) hne
      · obtain rfl : word = .node next := heq.symm.trans hnode
        exact keeps_at hglobal hthread rfl rfl ⟨hpassed, ht, hseen, hht, hnode⟩

theorem dequeueStep_keeps (hthread : ThreadInv thread memory ghost (.at line))
    (hstep : dequeueStep memory line = some (memory', pc')) : Keeps thread memory ghost memory' pc' := by
  have hline := hthread.line
  cases line with
  | loadHead safePc =>
    simp only [dequeueStep, hglobal.head] at hstep
    exact keeps_safeRead hglobal hthread hstep (fun _ => (add_zero _).symm)
      (by simp [follow, Word.node, Line.refs, Word.refs]) (fun _ => rfl) rfl (fun _ => trivial)
      ⟨hglobal.head_shared, hglobal.head_notMem_rest⟩ (by simp) (by simp [follow, Word.node])
  | loadTailToo h safePc =>
    simp only [dequeueStep, hglobal.tail] at hstep
    refine keeps_safeRead hglobal hthread hstep (fun _ => rfl) ?_ (fun _ => rfl) rfl (fun _ => hline)
      ⟨hline, hglobal.tail_reached.shared, ?_⟩ (by simp) (by simp [follow, Word.node])
    · funext addr
      simp only [follow, Word.node, Line.refs, SafePc.refs, Word.refs, Pi.add_apply, Pi.zero_apply]
      omega
    · by_cases heq : ghost.tail = h
      · exact .inl heq
      · exact .inr (.inl heq)
  | loadNext h t safePc =>
    obtain ⟨hpassed, ht, hseen⟩ := hline
    exact keeps_safeRead hglobal hthread hstep (fun _ => rfl) rfl (fun _ => rfl) rfl
      (fun _ => ⟨hpassed, ht, hseen⟩) ⟨hpassed, ht, hseen, fun _ => rfl⟩ (by simp) (by simp)
  | checkHead h t next =>
    simp only [dequeueStep] at hstep
    split at hstep
    · cases hstep
      refine keeps_release hglobal hthread (fun addr => ?_) rfl trivial
      simp [Line.refs]
    · cases hstep
      exact keeps_dequeueOn hglobal hthread
  | helpDequeue h t next =>
    obtain ⟨hshared, rfl, hnext, hne⟩ := hline
    refine keeps_helpTail hglobal hthread hshared hnext hne hstep (fun addr => ?_) rfl trivial
    simp [Line.refs]
  | readKey h t next =>
    cases hstep
    exact keeps_at hglobal hthread rfl rfl hline
  | swingHead h t next data =>
    simp only [dequeueStep, casRoot] at hstep
    by_cases hhead : memory.root .head = .node h
    · simp only [hhead, if_true, Option.some.injEq, Prod.mk.injEq] at hstep
      obtain ⟨rfl, rfl⟩ := hstep
      exact keeps_moveHead hglobal hthread hhead
    · simp only [hhead, if_false, Option.some.injEq, Prod.mk.injEq] at hstep
      obtain ⟨rfl, rfl⟩ := hstep
      refine keeps_release hglobal hthread (fun addr => ?_) rfl trivial
      simp [Line.refs]
  | ret result =>
    cases hstep
    exact keeps_at hglobal hthread rfl rfl trivial
  | _ => simp [dequeueStep] at hstep

theorem code_keeps (hthread : ThreadInv thread memory ghost pc)
    (hstep : code thread choice memory pc = some (memory', pc')) : Keeps thread memory ghost memory' pc' := by
  cases choice with
  | go =>
    cases pc with
    | «at» line =>
      rcases Option.or_eq_some_iff.mp (show (enqueueStep memory line).or (dequeueStep memory line) = _ from
        hstep) with henqueue | ⟨-, hdequeue⟩
      · exact enqueueStep_keeps hglobal hthread henqueue
      · exact dequeueStep_keeps hglobal hthread hdequeue
    | drop dec todo after => exact keeps_dropStep hglobal hthread hstep
  | call op =>
    cases pc with
    | «at» line =>
      cases line with
      | idle =>
        cases hstep
        cases op with
        | enqueue key | dequeue => exact keeps_at hglobal hthread rfl rfl trivial
      | _ => simp [code] at hstep
    | drop dec todo after => simp [code] at hstep

end

theorem relyGuarantee : RelyGuarantee (code (n := n) (m := m)) (fun _ _ _ => True) GlobalInv ThreadInv Rely where
  step _ _ _ _ _ _ hglobal hlocal _ hstep := code_keeps hglobal (hlocal _) hstep
  stable _ _ _ _ _ _ hlocal hrely := hrely.threadInv hlocal

def initBook (n m : Nat) : Book (Fin n) (Fin (m + 1)) where
  stage := Function.update (fun _ => .free) (Fin.last m) .shared
  placed := fun addr => 2 * one (Fin.last m) addr
  held := fun _ => 0
  pinned := fun _ _ => False

def initGhost (n m : Nat) : Ghost n (m + 1) where
  book := initBook n m
  past := []
  head := Fin.last m
  rest := []
  tail := Fin.last m

theorem stage_initBook_last : (initBook n m).stage (Fin.last m) = .shared := by
  simp [initBook]

theorem stage_initBook_of_ne {addr : Fin (m + 1)} (hne : addr ≠ Fin.last m) : (initBook n m).stage addr = .free := by
  simp [initBook, hne]

attribute [local simp] Stage.isCounted

theorem links_init (addr : Fin (m + 1)) :
    links (init n m).shared (initBook n m).stage addr = 2 * one (Fin.last m) addr := by
  have hnext : ∀ p, (if ((initBook n m).stage p).isCounted then ((init n m).shared.next p).refs addr else 0) = 0 := by
    intro p
    by_cases heq : p = Fin.last m
    · subst heq
      simp [init]
    · simp [stage_initBook_of_ne heq]
  have hroots : ∑ root, ((init n m).shared.root root).refs addr = 2 * one (Fin.last m) addr := by
    show ∑ root : Root, one (Fin.last m) addr = _
    simp [show Fintype.card Root = 2 from rfl]
  rw [links, hroots, sum_congr rfl fun p _ => hnext p]
  simp

theorem total_init (addr : Fin (m + 1)) : (initBook n m).total addr = 2 * one (Fin.last m) addr := by
  simp [Book.total, initBook]

attribute [local simp] claimBit

theorem globalInv_init : GlobalInv (init n m).shared (initGhost n m) := by
  have hself : (initGhost n m).book.stage (Fin.last m) = .shared := stage_initBook_last
  have hother : ∀ addr, addr ≠ Fin.last m → (initGhost n m).book.stage addr = .free :=
    fun addr => stage_initBook_of_ne
  have hnext : (init n m).shared.next (Fin.last m) = .null := by simp [init]
  have hbeyond : beyondTail (init n m).shared = 0 := by
    simp [beyondTail, init, Word.node]
  have hmem : ∀ addr : Fin (m + 1), addr ∈ (init n m).shared.pool ↔ addr ≠ Fin.last m := by
    intro addr
    simp only [init, List.mem_reverse, List.mem_map, List.mem_finRange, true_and]
    exact Fin.exists_castSucc_eq
  refine ⟨⟨⟨fun addr hpos => ?_, fun addr hcount => ?_, fun addr thread hkeeper => ?_⟩, fun addr => ?_,
    fun addr => ?_⟩, ⟨?_, fun addr => ?_⟩, rfl, rfl, List.mem_cons_self, ?_, by simp [Ghost.chain, initGhost],
    fun addr => ?_, fun addr hchain => ?_, fun next heq => ?_, fun addr hidle => ?_, fun addr => ?_,
    fun _ _ hpin => hpin⟩
  · by_contra hne
    have haddr : addr ≠ Fin.last m := fun heq => hne (heq ▸ hself)
    simp [initGhost, initBook, Book.one_of_ne haddr] at hpos
  · rw [show (initGhost n m).book = initBook n m from rfl, total_init]
    by_cases heq : addr = Fin.last m
    · subst heq
      simp
    · rw [hother addr heq] at hcount
      simp at hcount
  · by_cases heq : addr = Fin.last m
    · subst heq
      rw [hself] at hkeeper
      simp at hkeeper
    · rw [hother addr heq] at hkeeper
      simp at hkeeper
  · rw [show (initGhost n m).book = initBook n m from rfl, total_init]
    replace hself : (initBook n m).stage (Fin.last m) = .shared := hself
    replace hother : ∀ addr, addr ≠ Fin.last m → (initBook n m).stage addr = .free := hother
    by_cases heq : addr = Fin.last m
    · subst heq
      simp [init, hself]
    · simp [init, hother addr heq, update_of_ne heq, Book.one_of_ne heq]
  · show _ = links (init n m).shared (initBook n m).stage addr + _
    rw [links_init, hbeyond]
    rfl
  · exact List.nodup_reverse.mpr ((List.nodup_finRange m).map (Fin.castSucc_injective m))
  · rw [hmem]
    constructor
    · exact hother addr
    · rintro hfree rfl
      rw [hself] at hfree
      simp at hfree
  · exact ⟨rfl, succ_of_null hnext⟩
  · rw [show (initGhost n m).chain = [Fin.last m] from rfl, List.mem_singleton]
    by_cases heq : addr = Fin.last m
    · subst heq
      simp [hself]
    · simp [hother addr heq, heq]
  · rw [show (initGhost n m).chain = [Fin.last m] from rfl, List.mem_singleton] at hchain
    subst hchain
    exact .inl hnext
  · rw [show (initGhost n m).tail = Fin.last m from rfl, hnext] at heq
    simp [Word.null, Word.node] at heq
  · by_cases heq : addr = Fin.last m
    · subst heq
      rw [hnext, refs_null]
    · simp [init, update_of_ne heq]
  · by_cases heq : addr = Fin.last m
    · subst heq
      simp [hself]
    · simp [hother addr heq]

theorem threadInv_init : ThreadInv thread (init n m).shared (initGhost n m) (.at .idle) := by
  have hstage : ∀ addr, (initBook n m).stage addr = .free ∨ (initBook n m).stage addr = .shared := by
    intro addr
    by_cases heq : addr = Fin.last m
    · subst heq
      exact .inr stage_initBook_last
    · exact .inl (stage_initBook_of_ne heq)
  refine ⟨⟨⟨List.nodup_nil, fun addr => ?_⟩, fun _ => rfl, fun addr hkeeper => ?_, by simp [Control.freeing]⟩,
    trivial⟩
  · rcases hstage addr with heq | heq <;> simp [initGhost, heq, Control.claims]
  · rcases hstage addr with heq | heq <;> simp [initGhost, heq] at hkeeper

variable {config : Config (Fin n) (Memory (m + 1)) (Pc (m + 1))}

theorem invariants (hreach : Reachable code (init n m) config) : ∃ ghost, GlobalInv config.shared ghost ∧
      ∀ thread, ThreadInv thread config.shared ghost (config.threads thread) :=
  relyGuarantee.invariant hreach (initGhost n m) globalInv_init fun _ => threadInv_init

/-- The shared links to a node: `head`, `tail`, and the `next` fields of the nodes that nobody has claimed,
which are those with an even `refcnt`. -/
def sharedLinks (memory : Memory m) (addr : Fin m) : Nat :=
  (memory.root .head).refs addr + (memory.root .tail).refs addr +
    ∑ p, if memory.refcnt p % 2 = 0 then (memory.next p).refs addr else 0

/-- The count of every node is that of its shared links, of the tail if it has still to come to it, and of
the references in the hands of threads. The tail is never behind by more than one node. -/
structure CountsExact (config : Config (Fin n) (Memory m) (Pc m)) : Prop where
  exact : ∀ addr, config.shared.refcnt addr / 2 =
    sharedLinks config.shared addr + beyondTail config.shared addr +
      ∑ thread, (config.threads thread).refs config.shared addr
  lag : ∀ t next, config.shared.root .tail = .node t → config.shared.next t = .node next →
    config.shared.next next = .null
  noUnderflow : ∀ thread addr, (config.threads thread).decrementing config.shared = some addr →
    2 ≤ config.shared.refcnt addr
  claimed : ∀ thread addr, (config.threads thread).claiming config.shared = some addr →
    sharedLinks config.shared addr = 0 ∧ beyondTail config.shared addr = 0 ∧
      ∀ other, (config.threads other).refs config.shared addr = if other = thread then 1 else 0
  settled : (∀ thread, config.threads thread = .at .idle) →
    ∀ addr, ¬ FromHead config.shared addr → addr ∈ config.shared.pool

/-- A node that is with the thread that has it from the allocator has nothing in its link, so the links to
be counted are those of the published nodes. -/
theorem GlobalInv.sharedLinks_eq (hglobal : GlobalInv memory ghost) (addr : Fin m) :
    sharedLinks memory addr = links memory ghost.book.stage addr := by
  have hroots : ∑ root, (memory.root root).refs addr =
      (memory.root .head).refs addr + (memory.root .tail).refs addr := rfl
  have hnext : ∀ p, (if memory.refcnt p % 2 = 0 then (memory.next p).refs addr else 0) =
      if (ghost.book.stage p).isCounted then (memory.next p).refs addr else 0 := by
    intro p
    have hexact := hglobal.counted.exact p
    have hempty := hglobal.empty p
    cases hstage : ghost.book.stage p with
    | shared | loose | free | fresh keeper | claimed owner => simp [hexact, hstage]
    | owned keeper => simp [hempty (.inr (by simp [hstage])), Stage.isCounted]
  rw [sharedLinks, links, hroots, sum_congr rfl fun p _ => hnext p]

theorem GlobalInv.total_eq (hglobal : GlobalInv memory ghost)
    {threads : Fin n → Pc m} (hlocal : ∀ thread, ThreadInv thread memory ghost (threads thread)) (addr : Fin m) :
    ghost.book.total addr = sharedLinks memory addr + beyondTail memory addr +
      ∑ thread, (threads thread).refs memory addr := by
  rw [Book.total, hglobal.counted.placed addr, hglobal.sharedLinks_eq,
    sum_congr rfl fun thread _ => (hlocal thread).part.held addr]
  rfl

theorem refs_of_decrementing {thread : Fin n} (hthread : ThreadInv thread memory ghost pc)
    (hdec : pc.decrementing memory = some addr) : 0 < ghost.book.held thread addr := by
  rw [hthread.part.held addr]
  match pc, hdec with
  | .drop ⟨.cas p old, callers⟩ todo after, hdec =>
    simp only [Control.decrementing, Option.ite_none_right_eq_some, Option.some.injEq] at hdec
    obtain ⟨-, rfl⟩ := hdec
    simp only [Control.refs, Dec.refs, Pi.add_apply, Book.one_self]
    omega

theorem GlobalInv.unreferenced_of_claiming (hglobal : GlobalInv memory ghost)
    {threads : Fin n → Pc m} (hlocal : ∀ thread, ThreadInv thread memory ghost (threads thread))
    (hclaim : (threads thread).claiming memory = some addr) :
    sharedLinks memory addr = 0 ∧ beyondTail memory addr = 0 ∧
      ∀ other, (threads other).refs memory addr = if other = thread then 1 else 0 := by
  obtain ⟨hdec, hclaim⟩ := Option.filter_eq_some_iff.mp hclaim
  have hheld := refs_of_decrementing (hlocal thread) hdec
  have hrefcnt := isClaim_iff.mp hclaim
  have hexact := hglobal.counted.exact addr
  have hle := ghost.book.held_le_total thread addr
  have htotal : ghost.book.total addr = 1 := by omega
  have hplaced := hglobal.counted.placed addr
  rw [← hglobal.sharedLinks_eq addr] at hplaced
  refine ⟨by omega, by omega, fun other => ?_⟩
  have heq : (threads other).refs memory addr = ghost.book.held other addr :=
    ((hlocal other).part.held addr).symm
  rw [heq]
  by_cases hother : other = thread
  · subst hother
    simp only [if_true]
    omega
  · rw [if_neg hother]
    exact Book.held_eq_zero hother htotal hheld

/-! ### Without a call in progress -/

theorem fromHead_of_mem {start : Option (Fin m)} {cells : List (Fin m)} (hlinked : Linked (succ memory) start cells)
    (hstart : ∀ first, start = some first → FromHead memory first) : ∀ addr ∈ cells, FromHead memory addr := by
  induction cells generalizing start with
  | nil => simp
  | cons first rest ih =>
    obtain ⟨rfl, hrest⟩ := linked_cons.mp hlinked
    have hfirst := hstart first rfl
    intro addr hmem
    rcases List.mem_cons.mp hmem with rfl | hmem
    · exact hfirst
    · exact ih hrest (fun next hnext => .next hfirst (succ_eq_some.mp hnext)) addr hmem

theorem GlobalInv.first_unplaced (hglobal : GlobalInv memory ghost) {first : Fin m} {past : List (Fin m)}
    (hpast : ghost.past = first :: past) : ghost.book.placed first = 0 := by
  have hchain : ghost.chain = first :: (past ++ ghost.head :: ghost.rest) := by
    simp [Ghost.chain, hpast]
  have hlinked := hglobal.linked
  have hnodup := hglobal.nodup
  rw [hchain] at hlinked hnodup
  have hnot := (List.nodup_cons.mp hnodup).1
  have hnext : ∀ p ∈ ghost.chain, (memory.next p).refs first = 0 := by
    intro p hp
    by_contra hpos
    have htarget := refs_pos_iff.mp (Nat.pos_of_ne_zero hpos)
    rw [hchain] at hp
    exact hnot ((linked_cons.mp hlinked).2.next_mem hp (succ_eq_some.mpr htarget))
  have hhead : first ≠ ghost.head := fun heq => hnot (by simp [heq])
  have htail : first ≠ ghost.tail := fun heq => hnot (heq ▸ List.mem_append_right _ hglobal.tail_mem)
  have hsum : ∀ p, (if (ghost.book.stage p).isCounted then (memory.next p).refs first else 0) = 0 := by
    intro p
    split
    · rename_i hcount
      exact hnext p ((hglobal.mem_chain p).mpr hcount)
    · rfl
  rw [hglobal.counted.placed, ← hglobal.sharedLinks_eq, hglobal.beyondTail_eq, hnext _ hglobal.tail_mem_chain,
    hglobal.sharedLinks_eq, links, sum_congr rfl fun p _ => hsum p]
  have hroots : ∑ root, (memory.root root).refs first =
      (memory.root .head).refs first + (memory.root .tail).refs first := rfl
  rw [hroots, hglobal.head, hglobal.tail, refs_node, refs_node, Book.one_of_ne hhead, Book.one_of_ne htail]
  simp

theorem GlobalInv.settled (hglobal : GlobalInv memory ghost)
    (hlocal : ∀ thread, ThreadInv thread memory ghost (.at .idle)) (haddr : ¬ FromHead memory addr) :
    addr ∈ memory.pool := by
  have hheld : ∀ thread found, ghost.book.held thread found = 0 := fun thread found => (hlocal thread).part.held found
  have hpast : ghost.past = [] := by
    cases hpast : ghost.past with
    | nil => rfl
    | cons first past =>
      have hcount := (hglobal.mem_chain first).mp (by simp [Ghost.chain, hpast])
      have halive := hglobal.counted.valid.alive first hcount
      simp [Book.total, hglobal.first_unplaced hpast, hheld] at halive
  have hnot : addr ∉ ghost.chain := by
    intro hmem
    refine haddr (fromHead_of_mem hglobal.linked (fun first hfirst => ?_) addr hmem)
    simp only [Ghost.chain, hpast, List.nil_append, List.head?_cons, Option.some.injEq] at hfirst
    exact .head (by rw [hglobal.head, hfirst]; rfl)
  rw [hglobal.pool.mem_iff]
  cases hstage : ghost.book.stage addr with
  | free => rfl
  | shared => exact absurd (hglobal.mem_chain_iff.mpr hstage) hnot
  | loose => exact absurd hstage (hglobal.loose addr)
  | claimed owner => simpa [Control.claims] using ((hlocal owner).part.claims.iff addr).mp hstage
  | fresh keeper | owned keeper =>
    have hkept := hglobal.counted.valid.kept addr keeper (by rw [hstage]; rfl)
    simp [hheld] at hkept

theorem queueLfLfrc_countsExact (hreach : Reachable code (init n m) config) : CountsExact config := by
  obtain ⟨ghost, hglobal, hlocal⟩ := invariants hreach
  refine ⟨fun addr => ?_, fun t next htail hnext => ?_, fun thread addr hdec => ?_,
    fun thread addr hclaim => hglobal.unreferenced_of_claiming hlocal hclaim, fun hidle addr haddr => ?_⟩
  · rw [← hglobal.total_eq hlocal addr, hglobal.counted.exact addr]
    cases ghost.book.stage addr <;> simp only [claimBit] <;> omega
  · obtain rfl : ghost.tail = t := by simpa [Word.node] using hglobal.tail.symm.trans htail
    exact hglobal.lag next hnext
  · exact hglobal.counted.le_refcnt (refs_of_decrementing (hlocal thread) hdec)
  · exact hglobal.settled (fun thread => hidle thread ▸ hlocal thread) haddr

/-- The first thread has linked its node and not moved the tail to it. The second one is in a `dequeue`, with
references to the old dummy. -/
def linkAndRead (first second : Fin n) : List (Fin n × Choice) :=
  (first, .call (.enqueue 5)) :: List.replicate 12 (first, .go) ++
    (second, .call .dequeue) :: List.replicate 6 (second, .go)

theorem queueLfLfrc_countsExact_linkAndRead :
    ∃ config, Reachable code (init 2 2) config ∧ beyondTail config.shared 1 = 1 ∧
      (config.threads 1).refs config.shared 2 = 2 ∧ config.shared.refcnt 2 = 10 ∧ CountsExact config := by
  have hrun : ((init 2 2).run code (linkAndRead 0 1)).any (fun config => decide
      (beyondTail config.shared 1 = 1 ∧ (config.threads 1).refs config.shared 2 = 2 ∧
        config.shared.refcnt 2 = 10)) = true := by
    decide +kernel
  obtain ⟨config, hreach, hcheck⟩ := exists_reachable_of_run _ _ hrun
  obtain ⟨hbeyond, hrefs, hrefcnt⟩ := of_decide_eq_true hcheck
  exact ⟨config, hreach, hbeyond, hrefs, hrefcnt, queueLfLfrc_countsExact hreach⟩

end Lfmr.CountedQueue
