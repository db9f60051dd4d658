import Lfmr.Proof.CountedQueueInvariant

/-!
# The accesses to the queue with reference counts

One lemma for each kind of access: the effects of the procedures of `lfrc.c`, a write to a node that is
not linked yet, and the three compare-and-swaps. Each keeps the chain and the count.
-/

namespace Lfmr.CountedQueue

open Function Finset Lfmr.Concurrency Lfmr.Concurrency.RefCount Lfmr.Lfrc

variable {n m : Nat} {memory memory' : Memory m} {ghost ghost' : Ghost n m} {thread other : Fin n}
  {node next h t addr : Fin m} {line : Line m} {pc pc' : Pc m} {book' : Book (Fin n) (Fin m)}

abbrev Keeps (thread : Fin n) := Concurrency.Keeps GlobalInv (ThreadInv (m := m)) Rely thread

/-! ### The chain -/

theorem succ_eq_some : succ memory addr = some next ↔ (memory.next addr).target = .node next := by
  unfold succ
  cases htarget : (memory.next addr).target <;> simp

theorem succ_of_node (hnext : memory.next addr = .node next) : succ memory addr = some next :=
  succ_eq_some.mpr (by rw [hnext]; rfl)

theorem succ_of_null (hnext : memory.next addr = .null) : succ memory addr = none := by
  simp [succ, hnext, Word.null]

attribute [local simp] Ghost.chain

theorem Ghost.chain_eq (ghost : Ghost n m) : ∃ first cells, ghost.chain = first :: cells := by
  cases hchain : ghost.chain with
  | nil => simp at hchain
  | cons first cells => exact ⟨first, cells, rfl⟩

section Chain

variable (hglobal : GlobalInv memory ghost)

include hglobal

theorem GlobalInv.beyondTail_eq : beyondTail memory = (memory.next ghost.tail).refs := by
  simp [beyondTail, hglobal.tail, Word.node]

theorem GlobalInv.mem_chain_iff : addr ∈ ghost.chain ↔ ghost.book.stage addr = .shared := by
  rw [hglobal.mem_chain]
  constructor
  · intro hcount
    cases hstage : ghost.book.stage addr with
    | shared => rfl
    | loose => exact absurd hstage (hglobal.loose addr)
    | _ => simp [hstage, Stage.isCounted] at hcount
  · intro hshared
    rw [hshared]
    rfl

theorem GlobalInv.linked_rest : Linked (succ memory) (succ memory ghost.head) ghost.rest :=
  (linked_cons.mp (hglobal.linked.suffix)).2

theorem GlobalInv.head_shared : ghost.book.stage ghost.head = .shared :=
  hglobal.mem_chain_iff.mp (by simp)

theorem GlobalInv.tail_mem_chain : ghost.tail ∈ ghost.chain :=
  List.mem_append_right _ hglobal.tail_mem

theorem GlobalInv.next_mem_chain (haddr : addr ∈ ghost.chain) (hnext : memory.next addr = .node next) :
    next ∈ ghost.chain := by
  apply hglobal.mem_chain_iff.mpr
  have hcount := (hglobal.mem_chain addr).mp haddr
  exact hglobal.counted.shared_of_next hcount (by rw [hnext]; rfl)

theorem GlobalInv.next_mem_rest (haddr : addr ∈ ghost.head :: ghost.rest)
    (hnext : memory.next addr = .node next) : next ∈ ghost.rest :=
  hglobal.linked_rest.next_mem haddr (succ_of_node hnext)

theorem GlobalInv.head_notMem_rest : ghost.head ∉ ghost.rest :=
  (List.nodup_cons.mp hglobal.nodup.of_append_right).1

theorem GlobalInv.eq_of_null (haddr : addr ∈ ghost.chain) (hother : t ∈ ghost.chain)
    (hnext : memory.next addr = .null) (hnext' : memory.next t = .null) : addr = t := by
  obtain ⟨first, cells, hchain⟩ := ghost.chain_eq
  have hlinked := hglobal.linked
  rw [hchain] at hlinked haddr hother
  have hcells := (linked_cons.mp hlinked).2
  rw [← hcells.getLastD_eq haddr (succ_of_null hnext), hcells.getLastD_eq hother (succ_of_null hnext')]

theorem GlobalInv.past_of_unplaced (haddr : addr ∈ ghost.chain) (hplaced : ghost.book.placed addr = 0) :
    ∃ past, ghost.past = addr :: past := by
  have hlinks : links memory ghost.book.stage addr = 0 := by
    have heq := hglobal.counted.placed addr
    omega
  have hhead : addr ≠ ghost.head := by
    rintro rfl
    have hle := refs_root_le_links memory ghost.book.stage Root.head ghost.head
    rw [hglobal.head] at hle
    simp at hle
    omega
  -- A predecessor in the chain would hold a reference.
  have hfirst : ghost.chain.head? = some addr := by
    by_contra hne
    obtain ⟨pred, hpred, hlink⟩ := hglobal.linked.exists_pred haddr hne
    have hle := refs_next_le_links memory ((hglobal.mem_chain pred).mp hpred) addr
    have hpos := refs_pos_iff.mpr (succ_eq_some.mp hlink)
    omega
  unfold Ghost.chain at hfirst
  cases hpast : ghost.past with
  | nil =>
    rw [hpast] at hfirst
    simp only [List.nil_append, List.head?_cons, Option.some.injEq] at hfirst
    exact absurd hfirst.symm hhead
  | cons first past =>
    rw [hpast] at hfirst
    simp only [List.cons_append, List.head?_cons, Option.some.injEq] at hfirst
    exact ⟨past, by rw [hfirst]⟩

end Chain

/-! ### Effects of the procedures -/

theorem dataSteady_of_same {refs : Fin m → Nat} {reader : Fin n}
    (hroot : memory'.root = memory.root) (hrest : ghost'.rest = ghost.rest)
    (hhead : ghost'.head = ghost.head) (htail : ghost'.tail = ghost.tail)
    (hnext : ∀ addr, ghost.book.stage addr = .owned reader ∨ ghost.book.stage addr = .shared →
      memory'.next addr = memory.next addr)
    (hglobal : GlobalInv memory ghost) :
    DataSteady reader refs (memory, ghost) (memory', ghost') where
  owned addr howned := hnext addr (.inl howned)
  next addr hshared _ _ := hnext addr (.inr hshared)
  reached addr _ _ hzero := by
    have hshared := hglobal.mem_chain_iff.mp hglobal.tail_mem_chain
    rw [hglobal.beyondTail_eq] at hzero
    simp only [beyondTail, hroot, hglobal.tail, Word.node, hnext ghost.tail (.inr hshared), hzero]
  passed addr _ _ hnot := by
    show addr ∉ ghost'.rest
    rw [hrest]
    exact hnot
  seen addr _ _ _ hseen := by
    show ghost'.tail ≠ addr ∨ ghost'.head ≠ addr
    rw [hhead, htail]
    exact hseen

theorem GlobalInv.effect (hglobal : GlobalInv memory ghost) (heffect : Effect thread memory ghost.book memory' book')
    (hpool : AtomicPool memory'.pool book'.stage) :
    ∃ past, GlobalInv memory' { ghost with book := book', past := past } := by
  have hnext : ∀ addr, ghost.book.stage addr ≠ .claimed thread → memory'.next addr = memory.next addr :=
    fun addr haddr => heffect.next_eq haddr
  have hchainNext : ∀ addr ∈ ghost.chain, memory'.next addr = memory.next addr := fun addr haddr =>
    hnext addr (by rw [hglobal.mem_chain_iff.mp haddr]; simp)
  have hroot := heffect.root_eq
  have hbeyond : beyondTail memory' = beyondTail memory := by
    rw [hglobal.beyondTail_eq]
    simp [beyondTail, hroot, hglobal.tail, Word.node, hchainNext _ hglobal.tail_mem_chain]
  have hlag : ∀ next, memory'.next ghost.tail = .node next → memory'.next next = .null := by
    intro next heq
    rw [hchainNext _ hglobal.tail_mem_chain] at heq
    rw [hchainNext next (hglobal.next_mem_chain hglobal.tail_mem_chain heq)]
    exact hglobal.lag next heq
  have hempty : ∀ addr, book'.stage addr = .free ∨ (book'.stage addr).keeper ≠ none → (memory'.next addr).refs = 0 := by
    intro addr hidle
    rcases heffect.idle_cases hidle with hbefore | ⟨_, hzero⟩
    · rw [hnext addr]
      · exact hglobal.empty addr hbefore
      · intro hclaimed
        rw [hclaimed] at hbefore
        simp [Stage.keeper] at hbefore
    · exact hzero
  -- What is left is the chain itself, which is shorter if the effect was a claim.
  have hbuild : ∀ past, (∃ before, ghost.past = before ++ past) →
      (∀ addr, addr ∈ past ++ ghost.head :: ghost.rest ↔ (book'.stage addr).isCounted = true) →
      (∀ addr, book'.stage addr ≠ .loose) →
      GlobalInv memory' { ghost with book := book', past := past } := by
    rintro past ⟨before, hpast⟩ hmem hloose
    have hsplit : ghost.chain = before ++ (past ++ ghost.head :: ghost.rest) := by
      simp [hpast]
    have hsub : ∀ addr, addr ∈ past ++ ghost.head :: ghost.rest → addr ∈ ghost.chain := by
      intro addr haddr
      rw [hsplit]
      exact List.mem_append_right before haddr
    have hlinked := hglobal.linked
    have hnodup := hglobal.nodup
    rw [hsplit] at hlinked hnodup
    refine ⟨?_, hpool, ?_, ?_, hglobal.tail_mem, ?_, hnodup.of_append_right, hmem, ?_, hlag, hempty, hloose, ?_⟩
    · rw [hbeyond]
      exact heffect.counted hglobal.counted
    · rw [hroot]
      exact hglobal.head
    · rw [hroot]
      exact hglobal.tail
    · refine hlinked.suffix.congr fun addr haddr => ?_
      simp only [succ, hchainNext addr (hsub addr haddr)]
    · intro addr haddr
      rw [hchainNext addr (hsub addr haddr)]
      exact hglobal.tidy addr (hsub addr haddr)
    · intro user found
      rw [heffect.pinned_eq]
      exact hglobal.unpinned user found
  rcases heffect.claim_or_stage_eq with ⟨addr, hheld, hclaim, hkeeper, rfl⟩ | hstage
  · obtain ⟨hcount, htotal⟩ := hglobal.counted.of_claim hheld hclaim hkeeper
    have hle := ghost.book.held_le_total thread addr
    obtain ⟨past, hpast⟩ := hglobal.past_of_unplaced ((hglobal.mem_chain addr).mpr hcount) (by omega)
    have hself : (ghost.book.claim thread addr (memory.next addr).refs).stage addr = .claimed thread :=
      update_self _ _ _
    have hother : ∀ found, found ≠ addr →
        (ghost.book.claim thread addr (memory.next addr).refs).stage found = ghost.book.stage found :=
      fun found hne => update_of_ne hne _ _
    refine ⟨past, hbuild past ⟨[addr], by simpa using hpast⟩ (fun found => ?_) fun found hloose => ?_⟩
    · by_cases heq : found = addr
      · subst heq
        have hnodup := hglobal.nodup
        simp only [Ghost.chain, hpast, List.cons_append, List.nodup_cons] at hnodup
        rw [hself]
        simp [hnodup.1, Stage.isCounted]
      · rw [hother found heq, ← hglobal.mem_chain found]
        simp [hpast, heq]
    · by_cases heq : found = addr
      · subst heq
        simp [hself] at hloose
      · rw [hother found heq] at hloose
        exact hglobal.loose found hloose
  · refine ⟨ghost.past, hbuild _ ⟨[], rfl⟩ (fun addr => ?_) fun addr hloose => ?_⟩
    · refine (hglobal.mem_chain addr).trans ?_
      constructor
      · intro hcount
        rwa [hstage addr (.inr hcount)]
      · intro hcount
        rwa [← hstage addr (.inl hcount)]
    · rw [hstage addr (.inl (by rw [hloose]; rfl))] at hloose
      exact hglobal.loose addr hloose

section

variable (hglobal : GlobalInv memory ghost)
  (hstep : StepKeeps atomic.toFreeNode AtomicPool AtomicFree.Inv holdings thread memory ghost.book memory' book' pc')
include hglobal hstep

theorem keeps_effect (hline : ∀ past, LineInv thread memory' { ghost with book := book', past := past } pc'.line) :
    Keeps thread memory ghost memory' pc' := by
  obtain ⟨past, hglobal'⟩ := hglobal.effect hstep.effect hstep.pool
  have hnext : ∀ addr, ghost.book.stage addr ≠ .claimed thread → memory'.next addr = memory.next addr :=
    fun addr haddr => hstep.effect.next_eq haddr
  refine ⟨_, hglobal', ⟨hstep.part, hline past⟩, fun other hne => ⟨?_, ?_, fun addr hclaimed => ?_⟩⟩
  · exact hstep.effect.apart hglobal.counted hne
  · refine dataSteady_of_same hstep.effect.root_eq rfl rfl rfl (fun addr haddr => hnext addr ?_) hglobal
    rcases haddr with howned | hshared
    · simp [howned]
    · simp [hshared]
  · apply hnext
    show ghost.book.stage addr ≠ _
    rw [show ghost.book.stage addr = .claimed other from hclaimed]
    simpa using hne

theorem keeps_step (hline : LineInv thread memory ghost pc'.line)
    (hnew : ∀ key pc, pc'.line = .newNode key pc → NewInv thread ghost.book pc → NewInv thread book' pc) :
    Keeps thread memory ghost memory' pc' := by
  refine keeps_effect hglobal hstep fun past => ?_
  have hdata : DataSteady thread pc'.line.refs (memory, ghost)
      (memory', { ghost with book := book', past := past }) := by
    refine dataSteady_of_same hstep.effect.root_eq rfl rfl rfl (fun addr haddr => hstep.effect.next_eq ?_) hglobal
    rcases haddr with howned | hshared
    · simp [howned]
    · simp [hshared]
  exact hline.stable (hstep.effect.steady hglobal.counted hstep.part.line_le_held) hdata (fun _ => Nat.le_refl _) hnew

end

/-! ### Steps without an access that matters to others -/

theorem Rely.refl : Rely thread (memory, ghost) (memory, ghost) where
  book := .of_stage_eq rfl rfl rfl
  data := ⟨fun _ _ => rfl, fun _ _ _ _ => rfl, fun _ _ _ hreached => hreached, fun _ _ _ hpassed => hpassed,
    fun _ _ _ _ hseen => hseen⟩
  claimed _ _ := rfl

variable {after : Line m}

section

variable (hglobal : GlobalInv memory ghost) (hthread : ThreadInv thread memory ghost (.at line))
include hglobal hthread

theorem keeps_release {todo : List (Word m)}
    (hrefs : ∀ addr, line.refs addr = (todo.map Word.refs).sum addr + after.refs addr)
    (hown : after.own = line.own) (hline : LineInv thread memory ghost after) :
    Keeps thread memory ghost memory (thenLine todo after) := by
  have hpart := hthread.part
  refine ⟨ghost, hglobal, ⟨threadBook_release (fun _ => rfl) hpart.claims (fun addr => ?_) fun addr hkeeper => ?_,
    ?_⟩, fun _ _ => .refl⟩
  · rw [hpart.held addr]
    exact hrefs addr
  · exact hown.trans (hpart.kept addr hkeeper)
  · rw [thenLine, line_release]
    exact hline

theorem keeps_at (hrefs : after.refs = line.refs)
    (hown : after.own = line.own) (hline : LineInv thread memory ghost after) :
    Keeps thread memory ghost memory (.at after) := by
  show Keeps thread memory ghost memory (thenLine [] after)
  exact keeps_release hglobal hthread (fun addr => by simp [hrefs]) hown hline

theorem keeps_private (howned : ghost.book.stage node = .owned thread)
    (hroot : memory'.root = memory.root) (hrefcnt : memory'.refcnt = memory.refcnt)
    (hpool : memory'.pool = memory.pool)
    (hnext : ∀ addr, addr ≠ node → memory'.next addr = memory.next addr)
    (hempty : (memory'.next node).refs = 0) (hrefs : after.refs = line.refs) (hown : after.own = line.own)
    (hline : LineInv thread memory' ghost after) : Keeps thread memory ghost memory' (.at after) := by
  have hsame : ∀ addr, (∀ user, user = thread → ghost.book.stage addr ≠ .owned user) →
      memory'.next addr = memory.next addr := by
    intro addr haddr
    apply hnext
    rintro rfl
    exact haddr thread rfl howned
  have hchain : ∀ addr ∈ ghost.chain, memory'.next addr = memory.next addr := by
    intro addr hmem
    apply hsame
    simp [hglobal.mem_chain_iff.mp hmem]
  have hbeyond : beyondTail memory' = beyondTail memory := by
    rw [hglobal.beyondTail_eq]
    simp [beyondTail, hroot, hglobal.tail, Word.node, hchain _ hglobal.tail_mem_chain]
  have hclaimed : ∀ addr user, ghost.book.stage addr = .claimed user → memory'.next addr = memory.next addr := by
    intro addr user hstage
    apply hsame
    simp [hstage]
  refine ⟨ghost, ?_, ⟨?_, hline⟩, fun other hne => ⟨.of_stage_eq rfl rfl rfl, ?_, ?_⟩⟩
  · refine ⟨⟨hglobal.counted.valid, ?_, fun addr => ?_⟩, hpool ▸ hglobal.pool, hroot ▸ hglobal.head,
      hroot ▸ hglobal.tail, hglobal.tail_mem, ?_, hglobal.nodup, hglobal.mem_chain, fun addr hmem => ?_,
      fun next heq => ?_, fun addr hidle => ?_, hglobal.loose, hglobal.unpinned⟩
    · rw [hrefcnt]
      exact hglobal.counted.exact
    · rw [hbeyond, links_congr hroot (fun _ => rfl) fun p hp => hchain p ((hglobal.mem_chain p).mpr hp)]
      exact hglobal.counted.placed addr
    · exact hglobal.linked.congr fun addr hmem => by simp only [succ, hchain addr hmem]
    · rw [hchain addr hmem]
      exact hglobal.tidy addr hmem
    · rw [hchain _ hglobal.tail_mem_chain] at heq
      rw [hchain next (hglobal.next_mem_chain hglobal.tail_mem_chain heq)]
      exact hglobal.lag next heq
    · by_cases heq : addr = node
      · subst heq
        exact hempty
      · rw [hnext addr heq]
        exact hglobal.empty addr hidle
  · refine ⟨hthread.part.claims, fun addr => ?_, fun addr hkeeper => ?_, by simp [Control.freeing]⟩
    · rw [hthread.part.held addr]
      exact congrFun hrefs.symm addr
    · exact hown.trans (hthread.part.kept addr hkeeper)
  · refine dataSteady_of_same hroot rfl rfl rfl (fun addr haddr => hsame addr ?_) hglobal
    rintro user rfl
    rcases haddr with hother | hshared
    · simpa [hother] using hne
    · simp [hshared]
  · exact fun addr hstage => hclaimed addr other hstage

end

/-! ### The compare-and-swaps -/

theorem Reached.eq_tail (hreached : Reached memory ghost t) (hglobal : GlobalInv memory ghost)
    (hnull : memory.next t = .null) : t = ghost.tail := by
  have ht := hglobal.mem_chain_iff.mpr hreached.shared
  rcases hglobal.tidy ghost.tail hglobal.tail_mem_chain with htail | ⟨next, htail⟩
  · exact hglobal.eq_of_null ht hglobal.tail_mem_chain hnull htail
  · exfalso
    have hmem := hglobal.next_mem_chain hglobal.tail_mem_chain htail
    obtain rfl := hglobal.eq_of_null ht hmem hnull (hglobal.lag next htail)
    have hzero := hreached.reached
    rw [hglobal.beyondTail_eq, htail] at hzero
    simp at hzero

attribute [local simp] Memory.setNext

theorem succ_setNext (memory : Memory m) (t node : Fin m) :
    succ (memory.setNext t (.node node)) = update (succ memory) t (some node) := by
  funext addr
  by_cases heq : addr = t
  · subst heq
    simp [succ, Word.node]
  · simp [succ, update_of_ne heq]

section Link

variable (hglobal : GlobalInv memory ghost) (hready : Ready thread memory ghost node)

include hglobal hready

theorem Ready.notMem_chain : node ∉ ghost.chain := by
  rw [hglobal.mem_chain_iff, hready.owned]
  simp

theorem Ready.nodup_snoc : (ghost.chain ++ [node]).Nodup := by
  rw [← List.concat_eq_append]
  exact hglobal.nodup.concat (hready.notMem_chain hglobal)

variable (hreached : Reached memory ghost t) (hnull : memory.next t = .null)

include hreached hnull

/-- The references that the `next` and the tail will have to the node are no longer with the thread. -/
theorem counted_link (hheld : ∀ addr, ghost.book.held thread addr = one t addr + (one node addr + one node addr))
    (hkept : ∀ addr, (ghost.book.stage addr).keeper = some thread → addr = node) :
    Counted (memory.setNext t (.node node)) (one node)
      (ghost.book.publish thread node .shared (one t) fun addr => ghost.book.placed addr + 2 * one node addr) := by
  have hne : node ≠ t := by
    rintro rfl
    simpa [hready.owned] using hreached.shared
  have hbefore : beyondTail memory = 0 := by
    rw [hglobal.beyondTail_eq, ← hreached.eq_tail hglobal hnull, hnull, refs_null]
  refine hglobal.counted.publish hready.owned rfl rfl (fun addr => ?_) (fun addr => ?_)
    (fun addr hpos => ?_) fun addr haddr hkeeper => absurd (hkept addr hkeeper) haddr
  · have heq := hheld addr
    omega
  · -- Of the two nodes that change, the new one has nothing in its link yet.
    have hlinks := @links_update _ _ _ _ _ memory (memory.setNext t (.node node)) ghost.book.stage
      (ghost.book.publish thread node .shared (one t) fun addr => ghost.book.placed addr + 2 * one node addr).stage
      rfl t addr fun q hq => by
        by_cases heq : q = node
        · subst heq
          simp [hready.owned, Stage.isCounted, hq, hready.next]
        · rw [Book.stage_publish_of_ne heq]
          simp [hq]
    have hnext : ((memory.setNext t (.node node)).next t).refs = one node := by simp
    have hplaced := hglobal.counted.placed addr
    rw [Book.stage_publish_of_ne hne.symm, hreached.shared, hnull, hnext] at hlinks
    simp only [Stage.isCounted, if_true, refs_null, Pi.zero_apply] at hlinks
    simp only [hbefore, Pi.zero_apply] at hplaced
    omega
  · by_cases heq : addr = node
    · subst heq
      exact Book.stage_publish_self
    · rw [Book.stage_publish_of_ne heq]
      apply hglobal.counted.valid.placed
      simpa [Book.one_of_ne heq] using hpos

end Link

theorem keeps_link (hglobal : GlobalInv memory ghost)
    (hthread : ThreadInv thread memory ghost (.at (.link node t))) (hnull : memory.next t = .null) :
    Keeps thread memory ghost (memory.setNext t (.node node)) (.at (.swingTail node t)) := by
  obtain ⟨hready, hreached⟩ := hthread.line
  have hkept : ∀ addr, (ghost.book.stage addr).keeper = some thread → addr = node := by
    intro addr hkeeper
    exact (Option.some.inj (hthread.part.kept addr hkeeper)).symm
  have hcounted := counted_link hglobal hready hreached hnull hthread.part.held hkept
  obtain rfl := hreached.eq_tail hglobal hnull
  have hnext : ∀ addr, addr ≠ ghost.tail → (memory.setNext ghost.tail (.node node)).next addr = memory.next addr :=
    fun addr haddr => update_of_ne haddr _ _
  have hnextTail : (memory.setNext ghost.tail (.node node)).next ghost.tail = .node node :=
    update_self _ _ _
  have hbeyond : beyondTail (memory.setNext ghost.tail (.node node)) = one node := by
    have htail : ((memory.setNext ghost.tail (.node node)).root .tail).target = .node ghost.tail := by
      show (memory.root .tail).target = _
      rw [hglobal.tail]
      rfl
    simp only [beyondTail, htail, hnextTail, refs_node]
  have hshared : ∀ addr, ghost.book.stage addr = .shared → addr ≠ node := by
    rintro addr haddr rfl
    simp [hready.owned] at haddr
  set book := ghost.book.publish thread node .shared (one ghost.tail)
    fun addr => ghost.book.placed addr + 2 * one node addr with hbook
  have hself : book.stage node = .shared := Book.stage_publish_self
  have hstage : ∀ addr, addr ≠ node → book.stage addr = ghost.book.stage addr :=
    fun addr => Book.stage_publish_of_ne
  have hchain : Ghost.chain { ghost with book := book, rest := ghost.rest ++ [node] } = ghost.chain ++ [node] := by
    simp
  refine ⟨{ ghost with book := book, rest := ghost.rest ++ [node] }, ?_, ?_, fun other hother => ?_⟩
  · refine ⟨?_, freeSound_atomic.publish hglobal.pool hready.owned rfl, hglobal.head, hglobal.tail, ?_, ?_, ?_,
      fun addr => ?_, fun addr haddr => ?_, fun next heq => ?_, fun addr hidle => ?_, fun addr => ?_,
      hglobal.unpinned⟩
    · rw [hbeyond]
      exact hcounted
    · exact List.mem_append_left [node] hglobal.tail_mem
    · -- The tail is at the last node of the chain.
      rw [hchain, succ_setNext]
      obtain ⟨first, cells, hcells⟩ := ghost.chain_eq
      have hlinked := hglobal.linked
      have htail := hglobal.tail_mem_chain
      have hnodup := hready.nodup_snoc hglobal
      rw [hcells] at hlinked htail hnodup ⊢
      have hrest := (linked_cons.mp hlinked).2
      have hsnoc := hrest.snoc hnodup (succ_of_null hready.next)
      rw [hrest.getLastD_eq htail (succ_of_null hnull)] at hsnoc
      exact ⟨rfl, hsnoc⟩
    · rw [hchain]
      exact hready.nodup_snoc hglobal
    · rw [hchain, List.mem_append, List.mem_singleton]
      by_cases heq : addr = node
      · subst heq
        simp [hself, Stage.isCounted]
      · simp [hstage addr heq, ← hglobal.mem_chain addr, heq]
    · rw [hchain, List.mem_append, List.mem_singleton] at haddr
      by_cases heq : addr = ghost.tail
      · subst heq
        exact .inr ⟨node, hnextTail⟩
      · rw [hnext addr heq]
        rcases haddr with hmem | rfl
        · exact hglobal.tidy addr hmem
        · exact .inl hready.next
    · rw [hnextTail] at heq
      obtain rfl : node = next := by simpa [Word.node] using heq
      rw [hnext node (hshared _ hreached.shared).symm]
      exact hready.next
    · have haddr : addr ≠ node := by
        rintro rfl
        simp [hself, Stage.keeper] at hidle
      simp only [hstage addr haddr] at hidle
      rw [hnext addr]
      · exact hglobal.empty addr hidle
      · rintro rfl
        simp [hreached.shared, Stage.keeper] at hidle
    · by_cases heq : addr = node
      · subst heq
        simp [hself]
      · simpa only [hstage addr heq] using hglobal.loose addr
  · refine ⟨⟨hthread.part.claims.publish hready.owned rfl, fun addr => ?_, fun addr hkeeper => ?_,
      by simp [Control.freeing]⟩, ?_, hnextTail⟩
    · simp [hbook, Book.publish, Book.assign, Book.move, Control.refs, holdings, Line.refs]
    · by_cases heq : addr = node
      · subst heq
        simp [hself, Stage.keeper] at hkeeper
      · simp only [hstage addr heq] at hkeeper
        exact absurd (hkept addr hkeeper) heq
    · exact (hstage _ (hshared _ hreached.shared)).trans hreached.shared
  · refine ⟨Book.apart_publish hready.owned rfl hother,
      ⟨fun addr howned => hnext addr ?_, fun addr haddr _ hlink => hnext addr ?_,
      fun addr haddr _ _ => ?_, fun addr haddr _ hpassed => ?_, fun addr _ _ _ hseen => hseen⟩,
      fun addr hclaimed => hnext addr ?_⟩
    · rintro rfl
      simp [hreached.shared] at howned
    · rintro rfl
      exact hlink hnull
    · rw [hbeyond, Book.one_of_ne (hshared addr haddr)]
    · simpa [hshared addr haddr] using hpassed
    · rintro rfl
      simp [hreached.shared] at hclaimed

/-- The tail is moved to the next node, and the thread gets the reference that the tail had. -/
theorem keeps_moveTail {todo : List (Word m)} (hglobal : GlobalInv memory ghost)
    (hthread : ThreadInv thread memory ghost (.at line)) (htail : memory.root .tail = .node t)
    (hnext : memory.next t = .node next)
    (hrefs : ∀ addr, line.refs addr + one t addr = (todo.map Word.refs).sum addr + after.refs addr)
    (hown : after.own = line.own) (hline : LineInv thread memory ghost after) :
    Keeps thread memory ghost (memory.write (.root .tail) (.node next)) (thenLine todo after) := by
  obtain rfl : ghost.tail = t := by simpa [Word.node] using hglobal.tail.symm.trans htail
  have hrest : next ∈ ghost.rest := hglobal.next_mem_rest hglobal.tail_mem hnext
  have hlast : memory.next next = .null := hglobal.lag next hnext
  have hbefore : beyondTail memory = one next := by
    rw [hglobal.beyondTail_eq, hnext, refs_node]
  have hbeyond : beyondTail (memory.write (.root .tail) (.node next)) = 0 := by
    simp [beyondTail, Memory.write, Word.node, hlast]
  have hle : ∀ addr, one ghost.tail addr ≤ ghost.book.placed addr := by
    intro addr
    have hlinks := refs_root_le_links memory ghost.book.stage .tail addr
    rw [htail, refs_node] at hlinks
    have hplaced := hglobal.counted.placed addr
    omega
  set book := ghost.book.move thread (fun addr => ghost.book.held thread addr + one ghost.tail addr)
    (fun addr => ghost.book.placed addr - one ghost.tail addr) with hbook
  have hdata : ∀ reader refs, DataSteady reader refs (memory, ghost)
      (memory.write (.root .tail) (.node next), { ghost with book := book, tail := next }) := by
    refine fun reader refs => ⟨fun _ _ => rfl, fun _ _ _ _ => rfl, fun addr _ _ _ => ?_,
      fun _ _ _ hpassed => hpassed, fun addr _ _ hpassed _ => .inl ?_⟩
    · rw [hbeyond]
      rfl
    · rintro rfl
      exact hpassed hrest
  refine ⟨{ ghost with book := book, tail := next }, ?_, ⟨?_, ?_⟩,
    fun other hother => ⟨Book.apart_move hother, hdata other _, fun _ _ => rfl⟩⟩
  · refine { hglobal with
      counted := ?_, tail := ?_, tail_mem := List.mem_cons_of_mem _ hrest, lag := fun target heq => ?_ }
    · rw [hbeyond]
      refine hglobal.counted.write_root (fun addr => ?_) (fun addr => ?_) (fun addr hpos => ?_) fun addr hkeeper => ?_
      · have := hle addr
        omega
      · have := hle addr
        rw [htail, hbefore, refs_node, refs_node]
        simp only [Pi.zero_apply]
        omega
      · exact hglobal.counted.valid.placed addr (by omega)
      · have hpos := hglobal.counted.valid.kept addr thread hkeeper
        omega
    · simp [Memory.write]
    · have hnone : memory.next next = .node target := heq
      rw [hlast] at hnone
      simp [Word.null, Word.node] at hnone
  · have hclaims : Claims thread book [] := ⟨hthread.part.claims.nodup, hthread.part.claims.iff⟩
    refine threadBook_release (fun _ => rfl) hclaims (fun addr => ?_)
      fun addr hkeeper => hown.trans (hthread.part.kept addr hkeeper)
    show _ = _ + after.refs addr
    rw [← hrefs addr]
    simp [hbook, Book.move, hthread.part.held addr, Control.refs, holdings]
  · rw [thenLine, line_release]
    have hsteady : Book.Steady thread after.refs ghost.book book := .of_stage_eq rfl rfl
    exact hline.stable hsteady (hdata thread _) (fun _ => Nat.le_refl _) fun _ _ _ hnew => hnew.stable fun _ _ => rfl

/-- The head is moved to the next node. The reference that `dequeue` had to it is now that of the head,
and the thread gets the one the head had. -/
theorem keeps_moveHead {data : Int} (hglobal : GlobalInv memory ghost)
    (hthread : ThreadInv thread memory ghost (.at (.swingHead h t next data)))
    (hhead : memory.root .head = .node h) :
    Keeps thread memory ghost (memory.write (.root .head) (.node next))
      (thenLine [.node h, .node h, .node t] (.ret (.value data))) := by
  obtain ⟨hpassed, ht, hseen, hne, hnext⟩ := hthread.line
  obtain rfl : ghost.head = h := by simpa [Word.node] using hglobal.head.symm.trans hhead
  have htail : ghost.tail ≠ ghost.head := by
    rcases hseen with heq | htail | hhead'
    · exact absurd heq.symm hne
    · exact htail
    · exact absurd rfl hhead'
  have hshared : ghost.book.stage next = .shared :=
    hglobal.counted.shared_of_next (by rw [hpassed.shared]; rfl) (by rw [hnext]; rfl)
  obtain ⟨rest, hrest⟩ : ∃ rest, ghost.rest = next :: rest := by
    have hlinked := hglobal.linked_rest
    rw [succ_of_node hnext] at hlinked
    cases hcells : ghost.rest with
    | nil => simp [hcells] at hlinked
    | cons first rest =>
      rw [hcells, linked_cons] at hlinked
      obtain rfl := Option.some.inj hlinked.1
      exact ⟨rest, rfl⟩
  have hbeyond : beyondTail (memory.write (.root .head) (.node next)) = beyondTail memory := by
    simp [beyondTail, Memory.write]
  have hheld : ∀ addr, ghost.book.held thread addr = one next addr + (one ghost.head addr + one t addr) :=
    hthread.part.held
  have hle : ∀ addr, one ghost.head addr ≤ ghost.book.placed addr := by
    intro addr
    have hlinks := refs_root_le_links memory ghost.book.stage .head addr
    rw [hhead, refs_node] at hlinks
    have hplaced := hglobal.counted.placed addr
    omega
  have hkept : ∀ addr, (ghost.book.stage addr).keeper ≠ some thread := by
    intro addr hkeeper
    have hnone := hthread.part.kept addr hkeeper
    simp [holdings, Control.line, Line.own] at hnone
  set book := ghost.book.move thread (fun addr => one ghost.head addr + (one ghost.head addr + one t addr))
    (fun addr => ghost.book.placed addr - one ghost.head addr + one next addr) with hbook
  have hchain : Ghost.chain { ghost with book := book, past := ghost.past ++ [ghost.head], head := next,
                                         rest := rest } = ghost.chain := by
    simp [hrest]
  refine ⟨{ ghost with book := book, past := ghost.past ++ [ghost.head], head := next, rest := rest },
    ?_, ⟨?_, trivial⟩, fun other hother => ⟨Book.apart_move hother, ⟨fun _ _ => rfl, fun _ _ _ _ => rfl,
      fun addr _ _ hzero => ?_, fun addr _ _ hnot => ?_, fun addr _ _ hnot _ => .inr ?_⟩, fun _ _ => rfl⟩⟩
  · refine { hglobal with
      counted := ?_, head := ?_, tail_mem := ?_, linked := ?_, nodup := ?_, mem_chain := ?_, tidy := ?_ }
    · rw [hbeyond]
      refine hglobal.counted.write_root (fun addr => ?_) (fun addr => ?_) (fun addr hpos => ?_)
        fun addr hkeeper => absurd hkeeper (hkept addr)
      · have := hle addr
        have := hheld addr
        omega
      · have := hle addr
        rw [hhead, refs_node, refs_node]
        omega
      · by_cases heq : addr = next
        · subst heq
          exact hshared
        · rw [Book.one_of_ne heq] at hpos
          exact hglobal.counted.valid.placed addr (by omega)
    · simp [Memory.write]
    · have hmem := hglobal.tail_mem
      rw [hrest] at hmem
      exact (List.mem_cons.mp hmem).resolve_left htail
    · rw [hchain]
      exact hglobal.linked
    · rw [hchain]
      exact hglobal.nodup
    · rw [hchain]
      exact hglobal.mem_chain
    · rw [hchain]
      exact hglobal.tidy
  · have hclaims : Claims thread book [] := ⟨hthread.part.claims.nodup, hthread.part.claims.iff⟩
    refine threadBook_release (fun _ => rfl) hclaims (fun addr => ?_) fun addr hkeeper => absurd hkeeper (hkept addr)
    simp only [hbook, Book.move, update_self, List.map_cons, refs_node, List.map_nil,
      List.sum_cons, List.sum_nil, holdings, Line.refs, Pi.add_apply, Pi.zero_apply]
    omega
  · rw [hbeyond]
    exact hzero
  · have hsub : addr ∉ next :: rest := hrest ▸ hnot
    exact fun hmem => hsub (List.mem_cons_of_mem next hmem)
  · rintro rfl
    exact hnot (by rw [hrest]; exact List.mem_cons_self)

end Lfmr.CountedQueue
