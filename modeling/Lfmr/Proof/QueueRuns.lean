import Lfmr.Proof.QueueSteps

/-!
# The lock-free queue is a linearizable FIFO queue

For `queue_lf_ebr.c` and `queue_lf_dw.c`, in every run in which no node is reused too early.
-/

namespace Lfmr.LockFreeQueue

open Function Lfmr.Concurrency

variable {n : Nat} {shared shared' : Shared n} {ghost : Ghost n} {thread : Fin n} {pc pc' : Pc}
  {reclaimer : Reclaimer}

theorem role_casTail {t next : NodeAddr} {isInside : Bool} {owns retires : Option NodeAddr} {shown : Phase Op Result}
    (hrole : Role thread shared.toLife ghost.toAccount isInside owns retires shown) :
    Role thread (shared.casTail t next).toLife ghost.toAccount isInside owns retires shown := by
  unfold Shared.casTail
  split <;> exact hrole

theorem filledIn_casTail {t next node : NodeAddr} {key : Int}
    (hfilled : shared.key node = key ∧ shared.next node = none) :
    (shared.casTail t next).key node = key ∧ (shared.casTail t next).next node = none := by
  unfold Shared.casTail
  split <;> exact hfilled

section

variable (hglobal : GlobalInv shared ghost)
include hglobal

theorem GlobalInv.reaches_tail (hinside : shared.inside thread = true) : shared.Reaches thread shared.tail :=
  Life.reaches_of_linked hinside hglobal.tail_linked

theorem enqueueStep_keeps {key : Int} {node : NodeAddr} {enqueuePc : EnqueuePc}
    (hinv : ThreadInv thread shared ghost (.enqueue key node enqueuePc))
    (hstep : enqueueStep shared key node enqueuePc = (shared', pc')) :
    Keeps thread shared ghost shared' pc' := by
  obtain ⟨hrole, hpc, hfilled⟩ := hinv
  cases enqueuePc with
  | loadTail =>
    cases hstep
    exact keeps_of_threadInv hglobal ⟨hrole, hglobal.reaches_tail hrole.inside, hfilled⟩
  | checkTail t =>
    simp only [enqueueStep] at hstep
    split at hstep <;> cases hstep
    · exact keeps_of_threadInv hglobal ⟨hrole, hpc, hfilled⟩
    · exact keeps_of_threadInv hglobal ⟨hrole, trivial, hfilled⟩
  | readNext t =>
    simp only [enqueueStep] at hstep
    split at hstep <;> cases hstep
    · rename_i next hnext
      exact keeps_of_threadInv hglobal ⟨hrole, ⟨hpc, hnext⟩, hfilled⟩
    · exact keeps_of_threadInv hglobal ⟨hrole, hpc, hfilled⟩
  | helpTail t next =>
    cases hstep
    exact keeps_casTail hglobal hpc.2 ⟨role_casTail hrole, trivial, filledIn_casTail hfilled⟩
  | link t =>
    simp only [enqueueStep] at hstep
    split at hstep <;> cases hstep
    · rename_i hnext
      exact keeps_link hglobal hrole hpc hfilled.1 hfilled.2 hnext
    · exact keeps_of_threadInv hglobal ⟨hrole, trivial, hfilled⟩
  | swingTail t =>
    cases hstep
    exact keeps_casTail hglobal hpc.2 ⟨role_casTail hrole, by simp [PcInv, ResultInv]⟩

theorem dequeueStep_keeps {dequeuePc : DequeuePc} (hinv : ThreadInv thread shared ghost (.dequeue dequeuePc))
    (hstep : dequeueStep thread shared dequeuePc = (shared', pc')) :
    Keeps thread shared ghost shared' pc' := by
  obtain ⟨hrole, hpc⟩ := hinv
  cases dequeuePc with
  | enter =>
    cases hstep
    exact keeps_enter hglobal ⟨hrole.enter, trivial⟩
  | loadHead =>
    cases hstep
    have hreach := Life.reaches_of_linked hrole.inside hglobal.head_linked
    exact keeps_of_threadInv hglobal ⟨hrole, hreach, .inl rfl⟩
  | loadTail h =>
    cases hstep
    refine keeps_of_threadInv hglobal ⟨hrole, hpc.1, hpc.2, fun hne => ?_⟩
    rcases hpc.2 with hhead | hunlinked
    · exact .inl ⟨hhead, hne.symm⟩
    · exact .inr hunlinked
  | readNext h t =>
    cases hstep
    exact keeps_readNext hglobal hrole hpc.1 hpc.2.1 hpc.2.2
  | checkHead h t next =>
    obtain ⟨hreach, hpassed, hnext, hempty⟩ := hpc
    simp only [dequeueStep] at hstep
    split at hstep
    · cases hstep
      exact keeps_of_threadInv hglobal ⟨hrole, trivial⟩
    split at hstep
    · cases hstep
      obtain ⟨hnoted, hmet⟩ := hempty rfl
      exact keeps_of_threadInv hglobal ⟨hrole.settle hnoted, fun _ => hmet⟩
    · rename_i next
      split at hstep <;> cases hstep
      · rename_i heq
        subst heq
        exact keeps_of_threadInv hglobal ⟨hrole, hreach, hnext next rfl⟩
      · rename_i hne
        exact keeps_of_threadInv hglobal ⟨hrole, hreach, hpassed hne, hnext next rfl⟩
  | helpTail t next =>
    cases hstep
    exact keeps_casTail hglobal hpc.2 ⟨role_casTail hrole, trivial⟩
  | readKey h next =>
    cases hstep
    exact keeps_of_threadInv hglobal ⟨hrole, hpc.1, hpc.2.1, hpc.2.2, rfl⟩
  | swingHead h next data =>
    obtain ⟨hreach, hpassed, hnext, hkey⟩ := hpc
    simp only [dequeueStep] at hstep
    split at hstep <;> cases hstep
    · rename_i hhead
      exact keeps_unlink hglobal hrole hpassed hnext hkey hhead
    · exact keeps_of_threadInv hglobal ⟨hrole, trivial⟩
  | retire h data =>
    cases hstep
    exact keeps_retire hglobal hrole ⟨hrole.retire, by simp [PcInv, ResultInv]⟩

theorem advance_keeps (hinv : ThreadInv thread shared ghost pc)
    (hstep : advance thread shared pc = some (shared', pc')) :
    Keeps thread shared ghost shared' pc' := by
  cases pc with
  | idle => simp [advance] at hstep
  | alloc key allocPc =>
    obtain ⟨hrole, hpc⟩ := hinv
    cases allocPc with
    | enter =>
      cases hstep
      exact keeps_enter hglobal ⟨hrole.enter, trivial⟩
    | newNode => simp [advance] at hstep
    | retryExit =>
      cases hstep
      exact keeps_exit hglobal ⟨hrole.exit, trivial⟩
    | retryUpdateEpoch =>
      cases hstep
      exact keeps_of_threadInv hglobal ⟨hrole, trivial⟩
    | writeKey node =>
      cases hstep
      have hsame : SameExcept node shared { shared with key := update shared.key node key } :=
        ⟨rfl, rfl, fun _ hne => update_of_ne hne _ _, fun _ _ => rfl, rfl, rfl, rfl, rfl⟩
      exact keeps_private hglobal (hrole.own node rfl) rfl hsame ⟨hrole, update_self _ _ _⟩
    | writeNext node =>
      cases hstep
      have hsame : SameExcept node shared { shared with next := update shared.next node none } :=
        ⟨rfl, rfl, fun _ _ => rfl, fun _ hne => update_of_ne hne _ _, rfl, rfl, rfl, rfl⟩
      exact keeps_private hglobal (hrole.own node rfl) rfl hsame ⟨hrole, trivial, hpc, update_self _ _ _⟩
  | enqueue key node enqueuePc => exact enqueueStep_keeps hglobal hinv (Option.some.inj hstep)
  | dequeue dequeuePc => exact dequeueStep_keeps hglobal hinv (Option.some.inj hstep)
  | exit result =>
    cases hstep
    exact keeps_exit hglobal ⟨hinv.1.exit, hinv.2⟩
  | ret result =>
    cases hstep
    exact keeps_ret hglobal hinv.1

end

theorem start_threadInv {op : Op} (hrole : Role thread shared.toLife ghost.toAccount false none none (.pending op)) :
    ThreadInv thread shared ghost (start op) := by
  cases op <;> exact ⟨hrole, trivial⟩

theorem code_keeps {choice : Choice} (hglobal : GlobalInv shared ghost) (hinv : ThreadInv thread shared ghost pc)
    (hreuse : ∀ node key next, choice = .reclaim node key next → shared.Expired node)
    (hcode : code reclaimer thread choice shared pc = some (shared', pc')) :
    Keeps thread shared ghost shared' pc' := by
  unfold code at hcode
  split at hcode
  · exact advance_keeps hglobal hinv hcode
  · split at hcode
    · cases hcode
      exact keeps_call hglobal hinv.1.progress (start_threadInv hinv.1.call)
    · simp at hcode
  · split at hcode
    · cases hcode
      exact keeps_of_threadInv hglobal ⟨hinv.1, trivial⟩
    · simp at hcode
  · split at hcode
    · rename_i hfree
      cases hcode
      exact keeps_newNode hglobal hfree ⟨hinv.1.newNode, trivial⟩
    · simp at hcode
  · rename_i node key next
    split at hcode
    · simp at hcode
    · rename_i hretired
      cases hcode
      exact keeps_reclaim hglobal hinv (hreuse node key next rfl) hretired

variable {dummy : NodeAddr} {key : NodeAddr → Int} {next : NodeAddr → Option NodeAddr}
  {config : Config (Fin n) (Shared n) Pc}

theorem relyGuarantee : RelyGuarantee (code (n := n) reclaimer) NoEarlyReuse GlobalInv ThreadInv Rely where
  step config ghost thread choice shared priv hglobal hlocal hallowed hcode :=
    code_keeps hglobal (hlocal thread) (fun node key next hchoice => by subst hchoice; exact hallowed)
      hcode
  stable _ _ _ _ hglobal _ hinv hrely := hrely.threadInv hglobal hinv

attribute [local simp] Life.link Life.fresh

theorem globalInv_init : GlobalInv (init (n := n) dummy key next).shared ⟨Account.fresh, []⟩ where
  linked := by simp [init]
  nodup := by simp
  linked_iff node := by
    by_cases heq : node = dummy <;> simp [init, heq]
  tail_linked := by simp [init]
  unlinked_next node unlinker openWhen hstage := by
    by_cases heq : node = dummy <;> simp [init, heq] at hstage
  life := by
    refine ⟨?_, ?_, ?_, fun _ => .inl rfl, ?_⟩
    · intro node target hnode hnext
      by_cases heq : node = dummy <;> simp_all [init]
    · simp [init, Life.Reaches, Sections.fresh]
    · intro node unlinker openWhen hstage
      by_cases heq : node = dummy <;> simp [init, heq] at hstage
    · intro node unlinker openWhen hstage
      by_cases heq : node = dummy <;> simp [init, heq] at hstage
  keys := rfl
  run := .nil

theorem threadInv_init (thread : Fin n) : ThreadInv thread (init dummy key next).shared ⟨Account.fresh, []⟩
      ((init dummy key next).threads thread) :=
  ⟨⟨rfl, by simp [init, Pc.own], rfl, by simp [init, Pc.retiring], rfl⟩, trivial⟩

theorem invariants (hreach : ReachableVia (code reclaimer) NoEarlyReuse (init dummy key next) config) :
    ∃ ghost, GlobalInv config.shared ghost ∧ ∀ thread, ThreadInv thread config.shared ghost (config.threads thread) :=
  relyGuarantee.invariant hreach ⟨Account.fresh, []⟩ globalInv_init threadInv_init

/-- What is claimed of the queue in one state: its history is that of a FIFO queue; the values
dequeued, in the order of the moves of the head, are the first of the values enqueued, in the order in
which they were linked, and the others are those still in the queue; and a `dequeue` that is about to
return -1 for an empty queue has met one. -/
structure Fifo (config : Config (Fin n) (Shared n) Pc) : Prop where
  linearizable : Linearizable queueSpec [] config.shared.history
  ordered : config.shared.unlinkedKeys <+: config.shared.linkedKeys
  conserved : ∃ cells, Linked config.shared.next (config.shared.next config.shared.head) cells ∧
    config.shared.linkedKeys = config.shared.unlinkedKeys ++ cells.map config.shared.key
  empty : ∀ thread, config.threads thread = .ret .empty → config.shared.metEmpty thread = true

theorem queueLf_fifo
    (hreach : ReachableVia (code reclaimer) NoEarlyReuse (init dummy key next) config) :
    Fifo config := by
  obtain ⟨ghost, hglobal, hlocal⟩ := invariants hreach
  refine ⟨hglobal.run.linearizable, ⟨ghost.rest.map config.shared.key, hglobal.keys.symm⟩,
    ⟨ghost.rest, hglobal.linked, hglobal.keys⟩, fun thread hret => ?_⟩
  have hpc := (hlocal thread).2
  rw [hret] at hpc
  exact hpc rfl

/-- The first thread links 5 and has not moved the tail. The second one helps it, dequeues 5, and then
finds the queue empty. -/
def helpAndDrain (first second : Fin n) : List (Fin n × Choice) :=
  [(first, .call (.enqueue 5)), (first, .go), (first, .newNode (some (9, 0, none)))] ++
    List.replicate 6 (first, .go) ++
    (second, .call .dequeue) :: List.replicate 15 (second, .go) ++
    (second, .call .dequeue) :: List.replicate 7 (second, .go)

def emptyQueue : Config (Fin n) (Shared n) Pc := init 0 (fun _ => 0) fun _ => none

theorem queueLf_fifo_helpAndDrain :
    ∃ config, ReachableVia (code (n := 2) .ebr) NoEarlyReuse emptyQueue config ∧
      config.shared.history = [.call 0 (.enqueue 5), .call 1 .dequeue, .ret 1 (.value 5),
        .call 1 .dequeue, .ret 1 .empty] ∧ Fifo config := by
  have hrun : (emptyQueue.runVia (code .ebr) NoEarlyReuse (helpAndDrain (n := 2) 0 1)).any
      (fun config => decide (config.shared.history = [.call 0 (.enqueue 5), .call 1 .dequeue,
        .ret 1 (.value 5), .call 1 .dequeue, .ret 1 .empty])) = true := by
    decide +kernel
  obtain ⟨config, hreach, hhistory⟩ := exists_reachableVia_of_run _ _ hrun
  exact ⟨config, hreach, of_decide_eq_true hhistory, queueLf_fifo hreach⟩

/-- The queue stands for an atomic one: the keys of the nodes behind the head, with the call of each thread as
far as its program counter says. The tail does not fall behind the head. -/
def RefinesQueue (config : Config (Fin n) (Shared n) Pc) : Prop :=
  ∃ nodes, Linked config.shared.next (config.shared.next config.shared.head) nodes ∧
    config.shared.tail ∈ config.shared.head :: nodes ∧
    AtomicRun queueSpec [] config.shared.history (nodes.map config.shared.key)
      fun thread => (config.threads thread).progress

theorem queueLf_refines
    (hreach : ReachableVia (code reclaimer) NoEarlyReuse (init dummy key next) config) :
    RefinesQueue config := by
  obtain ⟨ghost, hglobal, hlocal⟩ := invariants hreach
  have hprogress := Account.hindsight fun thread => (hlocal thread).1.progress
  have htail := (hglobal.linked_iff _).mpr hglobal.tail_linked
  exact ⟨ghost.rest, hglobal.linked, htail, hglobal.run.atomicRun hprogress⟩

theorem queueLf_refines_helpAndDrain : ∃ config, ReachableVia (code (n := 2) .dw) NoEarlyReuse emptyQueue config ∧
      config.shared.history.length = 5 ∧ RefinesQueue config := by
  have hrun : (emptyQueue.runVia (code .dw) NoEarlyReuse (helpAndDrain (n := 2) 0 1)).any
      (·.shared.history.length == 5) = true := by
    decide +kernel
  obtain ⟨config, hreach, hlength⟩ := exists_reachableVia_of_run _ _ hrun
  exact ⟨config, hreach, beq_iff_eq.mp hlength, queueLf_refines hreach⟩

def Pc.deref : Pc → Option NodeAddr
  | .alloc _ (.writeKey node) | .alloc _ (.writeNext node) => some node
  | .enqueue _ _ (.readNext t) | .enqueue _ _ (.link t) => some t
  | .dequeue (.readNext h _) => some h
  | .dequeue (.readKey _ next) => some next
  | _ => none

/-- No access goes through a node that has been freed. -/
theorem queueLf_inPlace {node : NodeAddr}
    (hreach : ReachableVia (code reclaimer) NoEarlyReuse (init dummy key next) config)
    (hderef : (config.threads thread).deref = some node) : config.shared.stage node ≠ .free := by
  obtain ⟨ghost, hglobal, hlocal⟩ := invariants hreach
  obtain ⟨hrole, hpc⟩ := hlocal thread
  generalize config.threads thread = pc at *
  unfold Pc.deref at hderef
  split at hderef <;> cases hderef
  · simp [hrole.own _ rfl]
  · simp [hrole.own _ rfl]
  · exact hpc.1.ne_free
  · exact hpc.1.ne_free
  · exact hpc.1.ne_free
  · exact (hglobal.life.reaches_next thread _ _ hpc.1 hpc.2.2).ne_free

theorem queueLf_inPlace_helpAndDrain : ∃ config, ReachableVia (code (n := 2) .dw) NoEarlyReuse emptyQueue config ∧
      (config.threads 1).deref = some 9 ∧ config.shared.stage 9 ≠ .free := by
  have hrun : (emptyQueue.runVia (code .dw) NoEarlyReuse ((helpAndDrain (n := 2) 0 1).take 20)).any
      (fun config => (config.threads 1).deref == some 9) = true := by
    decide +kernel
  obtain ⟨config, hreach, hderef⟩ := exists_reachableVia_of_run _ _ hrun
  exact ⟨config, hreach, beq_iff_eq.mp hderef, queueLf_inPlace hreach (beq_iff_eq.mp hderef)⟩

end Lfmr.LockFreeQueue
