import Lfmr.Proof.ListSteps

/-!
# The lock-free list is a linearizable set, and retires each node once

Every access of `list_lf_ebr.c` and `list_lf_dw.c` keeps the invariant, in every run in which no node
is reused too early.
-/

namespace Lfmr.LockFreeList

open Lfmr.Concurrency Lfmr.MarkedList

variable {n : Nat} {shared shared' : Shared n} {ghost : Ghost n} {thread : Fin n} {pc pc' : Pc}
  {reclaimer : Reclaimer}

theorem walkStep_keeps {task : Task} {walkPc : WalkPc} (hglobal : GlobalInv shared ghost)
    (hinv : ThreadInv thread shared ghost (.walk task walkPc))
    (hstep : walkStep thread shared task walkPc = (shared', pc')) :
    Keeps thread shared ghost shared' pc' := by
  obtain ⟨hrole, hpc⟩ := hinv
  cases walkPc with
  | first =>
    cases hstep
    exact keeps_of_threadInv hglobal ⟨hrole, trivial⟩
  | load =>
    cases hstep
    exact keeps_load hglobal hrole
  | check prev cur =>
    simp only [walkStep] at hstep
    split at hstep <;> cases hstep
    · exact keeps_of_threadInv hglobal ⟨hrole, hpc⟩
    · exact keeps_of_threadInv hglobal (Walking.restart hrole)
  | readNext prev cur =>
    simp only [walkStep] at hstep
    obtain ⟨hbelow, hreach⟩ := hpc
    split at hstep <;> cases hstep
    · rename_i hmark
      refine keeps_of_threadInv hglobal ⟨hrole, hbelow, hreach, ?_⟩
      rw [← hmark]
    · rename_i hmark
      exact keeps_readNext hglobal hrole hbelow hreach (by simpa using hmark)
  | unlink prev cur next =>
    simp only [walkStep] at hstep
    obtain ⟨hbelow, hreach, hnext⟩ := hpc
    split at hstep <;> cases hstep
    · rename_i heap hcas
      obtain ⟨hread, rfl⟩ := Heap.cas_eq_some hcas
      exact keeps_walk_unlink hglobal hrole hbelow hreach hread hnext
    · exact keeps_of_threadInv hglobal (Walking.restart hrole)
  | retire prev cur next =>
    cases hstep
    obtain ⟨hbelow, hreach, hnext, habsent⟩ := hpc
    apply keeps_retire hglobal hrole
    refine Walking.loop hrole.retire ?_ ?_ ?_
    · exact hbelow
    · exact fun node hnode =>
        hglobal.life.reaches_next thread cur node hreach (by rw [hnext]; exact hnode)
    · exact habsent
  | readKey prev cur next =>
    cases hstep
    exact keeps_of_threadInv hglobal ⟨hrole, hpc.1, hpc.2, rfl⟩
  | recheck prev cur next ckey =>
    simp only [walkStep] at hstep
    obtain ⟨hbelow, hseen, rfl⟩ := hpc
    split at hstep
    · cases hstep
      exact keeps_of_threadInv hglobal (Walking.restart hrole)
    rename_i hread
    split at hstep
    · rename_i hlt
      cases hstep
      apply keeps_of_threadInv hglobal
      apply Walking.loop hrole _ hseen.reaches_next
      · exact fun hnone => hseen.absent hnone hlt
      · rintro node heq
        obtain rfl := Loc.next.inj heq
        exact ⟨hseen.reaches, hlt⟩
    rename_i hnotLt
    split at hstep <;> cases hstep
    · rename_i hkey
      apply keeps_of_threadInv hglobal
      exact Walking.found hrole hbelow hseen.reaches hkey (hseen.present hkey)
    · rename_i hne
      apply keeps_recheck_notFound hglobal hrole hbelow hseen.reaches
      · simpa using hread
      · omega

variable {prev : Loc}

theorem linkStep_keeps {key : Int} {node : NodeAddr} {cur : Option NodeAddr}
    {linkPc : LinkPc} (hglobal : GlobalInv shared ghost)
    (hinv : ThreadInv thread shared ghost (.link key node prev cur linkPc))
    (hstep : linkStep shared key node prev cur linkPc = (shared', pc')) :
    Keeps thread shared ghost shared' pc' := by
  obtain ⟨hrole, hbelow, habove, hlink⟩ := hinv
  have howned := hrole.own node rfl
  have hreachNe : ∀ other, shared.Reaches thread other → other ≠ node := by
    rintro other hreach rfl
    exact Life.not_reaches_of_owned howned hreach
  cases linkPc with
  | writeKey =>
    cases hstep
    have hsame := shared.heap.sameExcept_setKey node key
    apply keeps_private hglobal howned hsame
    refine ⟨hrole, ?_, ?_, by simp [LinkInv, Heap.setKey]⟩
    · intro other hprev
      obtain ⟨hreach, hlt⟩ := hbelow other hprev
      exact ⟨hreach, by rwa [hsame.key other (hreachNe other hreach)]⟩
    · intro other hcur
      obtain ⟨hreach, hlt⟩ := habove other hcur
      exact ⟨hreach, by rwa [hsame.key other (hreachNe other hreach)]⟩
  | writeNext =>
    cases hstep
    apply keeps_private hglobal howned (shared.heap.sameExcept_write node cur)
    exact ⟨hrole, hbelow, habove, hlink, by simp⟩
  | cas =>
    simp only [linkStep] at hstep
    split at hstep <;> cases hstep
    · rename_i heap hcas
      obtain ⟨hread, rfl⟩ := Heap.cas_eq_some hcas
      exact keeps_link hglobal hrole hbelow habove hlink.1 hlink.2 hread
    · exact keeps_of_threadInv hglobal ⟨hrole, trivial⟩

theorem deleteStep_keeps {key : Int} {cur : NodeAddr} {next : Option NodeAddr}
    {deletePc : DeletePc} (hglobal : GlobalInv shared ghost)
    (hinv : ThreadInv thread shared ghost (.delete key prev cur next deletePc))
    (hstep : deleteStep thread shared key prev cur next deletePc = (shared', pc')) :
    Keeps thread shared ghost shared' pc' := by
  obtain ⟨hrole, hbelow, hreach, hdelete⟩ := hinv
  cases deletePc with
  | mark =>
    simp only [deleteStep] at hstep
    split at hstep <;> cases hstep
    · rename_i heap hcas
      obtain ⟨hnext, rfl⟩ := Heap.casMark_eq_some hcas
      exact keeps_mark hglobal hrole hbelow hreach hdelete hnext
    · exact keeps_of_threadInv hglobal ⟨hrole, trivial⟩
  | unlink =>
    simp only [deleteStep] at hstep
    split at hstep <;> cases hstep
    · rename_i heap hcas
      obtain ⟨hread, rfl⟩ := Heap.cas_eq_some hcas
      exact keeps_delete_unlink hglobal hbelow hread hdelete hreach hrole
    · exact keeps_of_threadInv hglobal ⟨hrole, trivial⟩
  | retire =>
    cases hstep
    exact keeps_retire hglobal hrole ⟨hrole.retire, trivial⟩

theorem allocated_threadInv {key : Int} {node : Option NodeAddr}
    (hrole : Role thread shared.toLife ghost.toAccount true node none (.pending (.insert key))) :
    ThreadInv thread shared ghost (allocated key node) := by
  cases node with
  | none | some node => exact ⟨hrole, trivial⟩

theorem advance_keeps (hglobal : GlobalInv shared ghost) (hinv : ThreadInv thread shared ghost pc)
    (hstep : advance thread shared pc = some (shared', pc')) :
    Keeps thread shared ghost shared' pc' := by
  cases pc with
  | idle | freeNode result node => simp [advance] at hstep
  | alloc key allocPc =>
    obtain ⟨hrole, _⟩ := hinv
    cases allocPc with
    | newNode | retryNewNode => simp [advance] at hstep
    | enter node =>
      cases hstep
      exact keeps_enter hglobal (allocated_threadInv hrole.enter)
    | retryExit =>
      cases hstep
      exact keeps_exit hglobal ⟨hrole.exit, trivial⟩
    | retryUpdateEpoch =>
      cases hstep
      exact keeps_of_threadInv hglobal ⟨hrole, trivial⟩
    | retryEnter =>
      cases hstep
      exact keeps_enter hglobal ⟨hrole.enter, trivial⟩
  | enter task =>
    cases hstep
    exact keeps_enter hglobal (Walking.restart hinv.1.enter)
  | walk task walkPc => exact walkStep_keeps hglobal hinv (Option.some.inj hstep)
  | link key node prev cur linkPc => exact linkStep_keeps hglobal hinv (Option.some.inj hstep)
  | delete key prev cur next deletePc =>
    exact deleteStep_keeps hglobal hinv (Option.some.inj hstep)
  | exit result unused =>
    cases unused with
    | none | some node =>
      cases hstep
      exact keeps_exit hglobal ⟨hinv.1.exit, trivial⟩
  | ret result =>
    cases hstep
    exact keeps_ret hglobal hinv.1

theorem keeps_afterNewNode {node : NodeAddr} {key : Int} {link : Link}
    (hglobal : GlobalInv shared ghost) (hinv : ThreadInv thread shared ghost pc)
    (hfree : shared.stage node = .free) (hstep : afterNewNode reclaimer pc (some node) = some pc') :
    Keeps thread shared ghost (shared.renew node (.owned thread) key link) pc' := by
  obtain ⟨hrole, _⟩ := hinv
  unfold afterNewNode at hstep
  split at hstep
  · obtain ⟨_, hpc⟩ := Option.ite_none_left_eq_some.mp hstep
    cases hpc
    exact keeps_newNode hglobal hfree ⟨hrole.newNode, trivial⟩
  · cases hstep
    exact keeps_newNode hglobal hfree (allocated_threadInv hrole.newNode)
  · simp at hstep

/-- Out of memory: the node is `NULL` and nothing has changed. -/
theorem threadInv_afterNewNode (hinv : ThreadInv thread shared ghost pc)
    (hstep : afterNewNode reclaimer pc none = some pc') : ThreadInv thread shared ghost pc' := by
  obtain ⟨hrole, _⟩ := hinv
  unfold afterNewNode at hstep
  split at hstep
  · obtain ⟨_, hpc⟩ := Option.ite_none_left_eq_some.mp hstep
    cases hpc
    exact ⟨hrole, trivial⟩
  · cases hstep
    exact ⟨hrole, trivial⟩
  · simp at hstep

theorem start_threadInv {op : Op} (hrole : Role thread shared.toLife ghost.toAccount false none none (.pending op)) :
    ThreadInv thread shared ghost (start op) := by
  cases op <;> exact ⟨hrole, trivial⟩

theorem code_keeps {choice : Choice} (hglobal : GlobalInv shared ghost) (hinv : ThreadInv thread shared ghost pc)
    (hreuse : ∀ node key link, choice = .reclaim node key link → shared.Expired node)
    (hcode : code reclaimer thread choice shared pc = some (shared', pc')) :
    Keeps thread shared ghost shared' pc' := by
  unfold code at hcode
  split at hcode
  · exact advance_keeps hglobal hinv hcode
  · split at hcode
    · cases hcode
      exact keeps_call hglobal hinv.1.progress (start_threadInv hinv.1.call)
    · simp at hcode
  · obtain ⟨next, hnext, heq⟩ := Option.map_eq_some_iff.mp hcode
    cases heq
    exact keeps_of_threadInv hglobal (threadInv_afterNewNode hinv hnext)
  · split at hcode
    · rename_i hfree
      obtain ⟨next, hnext, heq⟩ := Option.map_eq_some_iff.mp hcode
      cases heq
      exact keeps_afterNewNode hglobal hinv hfree hnext
    · simp at hcode
  · split at hcode
    · cases hcode
      exact keeps_freeNode hglobal (hinv.1.own _ rfl) ⟨hinv.1.freeNode, trivial⟩
    · simp at hcode
  · rename_i node key link
    split at hcode
    · simp at hcode
    · rename_i hretired
      cases hcode
      exact keeps_reclaim hglobal hinv (hreuse node key link rfl) hretired

variable {key : NodeAddr → Int} {next : NodeAddr → Link} {config : Config (Fin n) (Shared n) Pc}

theorem relyGuarantee : RelyGuarantee (code (n := n) reclaimer) NoEarlyReuse GlobalInv ThreadInv Rely where
  step config ghost thread choice shared priv hglobal hlocal hallowed hcode :=
    code_keeps hglobal (hlocal thread) (fun node key link hchoice => by subst hchoice; exact hallowed)
      hcode
  stable _ _ _ _ _ _ hinv hrely := hrely.threadInv hinv

def Ghost.init : Ghost n :=
  ⟨Account.fresh, []⟩

attribute [local simp] Life.fresh

theorem globalInv_init : GlobalInv (init (n := n) key next).shared Ghost.init where
  valid := ⟨rfl, List.Pairwise.nil⟩
  linked_iff := by simp [init, Ghost.init]
  marked := by simp [init]
  life := by
    refine ⟨?_, ?_, ?_, fun _ => .inl rfl, ?_⟩
    · simp [init]
    · simp [init, Life.Reaches, Sections.fresh]
    · simp [init]
    · simp [init]
  run := .nil

theorem threadInv_init (thread : Fin n) :
    ThreadInv thread (init key next).shared Ghost.init ((init key next).threads thread) :=
  ⟨⟨rfl, by simp [init, Pc.own], rfl, by simp [init, Pc.retiring], rfl⟩, trivial⟩

theorem invariants (hreach : ReachableVia (code reclaimer) NoEarlyReuse (init key next) config) :
    ∃ ghost, GlobalInv config.shared ghost ∧ ∀ thread, ThreadInv thread config.shared ghost (config.threads thread) :=
  relyGuarantee.invariant hreach Ghost.init globalInv_init threadInv_init

/-- The list of `list_lf_ebr.c` is a linearizable set, for any number of threads and any calls. -/
theorem listLfEbr_linearizable
    (hreach : ReachableVia (code .ebr) NoEarlyReuse (init key next) config) :
    Linearizable setSpec ∅ config.shared.history := by
  obtain ⟨ghost, hglobal, _⟩ := invariants hreach
  exact hglobal.run.linearizable

/-- The first thread inserts 5; the second searches it, and reads the node before the first thread
marks it. -/
def searchMeetsMark (first second : Fin n) : List (Fin n × Choice) :=
  [(first, .call (.insert 5)), (first, .newNode (some (7, 0, ⟨none, false⟩)))] ++
    List.replicate 8 (first, .go) ++
    (second, .call (.search 5)) :: List.replicate 4 (second, .go) ++
    (first, .call (.delete 5)) :: List.replicate 8 (first, .go) ++
    List.replicate 4 (second, .go)

def emptyList : Config (Fin n) (Shared n) Pc := init (fun _ => 0) fun _ => ⟨none, false⟩

/-- A search that returns only after the mark takes its effect before it. -/
theorem listLfEbr_linearizable_searchMeetsMark :
    ∃ config, ReachableVia (code (n := 2) .ebr) NoEarlyReuse emptyList config ∧
      config.shared.history = [.call 0 (.insert 5), .ret 0 true, .call 1 (.search 5),
        .call 0 (.delete 5), .ret 1 true] ∧
      Linearizable setSpec ∅ config.shared.history := by
  have hrun : (emptyList.runVia (code .ebr) NoEarlyReuse (searchMeetsMark (n := 2) 0 1)).any
      (fun config => decide (config.shared.history = [.call 0 (.insert 5), .ret 0 true,
        .call 1 (.search 5), .call 0 (.delete 5), .ret 1 true])) = true := by
    decide +kernel
  obtain ⟨config, hreach, hhistory⟩ := exists_reachableVia_of_run _ _ hrun
  exact ⟨config, hreach, of_decide_eq_true hhistory, listLfEbr_linearizable hreach⟩

/-- The list stands for an atomic set: the keys of its unmarked nodes, with the call of each thread as far as
its program counter says. -/
def RefinesSet (config : Config (Fin n) (Shared n) Pc) : Prop :=
  ∃ nodes, config.shared.heap.Valid nodes ∧ AtomicRun setSpec ∅ config.shared.history
    (config.shared.heap.keys nodes) fun thread => (config.threads thread).progress

theorem listLf_refines (hreach : ReachableVia (code reclaimer) NoEarlyReuse (init key next) config) :
    RefinesSet config := by
  obtain ⟨ghost, hglobal, hlocal⟩ := invariants hreach
  have hprogress := Account.hindsight fun thread => (hlocal thread).1.progress
  exact ⟨ghost.chain, hglobal.valid, hglobal.run.atomicRun hprogress⟩

theorem listLf_refines_searchMeetsMark : ∃ config, ReachableVia (code (n := 2) .dw) NoEarlyReuse emptyList config ∧
      config.shared.history.length = 5 ∧ RefinesSet config := by
  have hrun : (emptyList.runVia (code .dw) NoEarlyReuse (searchMeetsMark (n := 2) 0 1)).any
      (·.shared.history.length == 5) = true := by
    decide +kernel
  obtain ⟨config, hreach, hlength⟩ := exists_reachableVia_of_run _ _ hrun
  exact ⟨config, hreach, beq_iff_eq.mp hlength, listLf_refines hreach⟩

def Pc.deref : Pc → Option NodeAddr
  | .walk _ (.readNext _ cur) | .walk _ (.readKey _ cur _) | .delete _ _ cur _ .mark => some cur
  | .walk _ (.check (.next prev) _) | .walk _ (.unlink (.next prev) _ _)
  | .walk _ (.recheck (.next prev) _ _ _) | .link _ _ (.next prev) _ .cas | .delete _ (.next prev) _ _ .unlink =>
      some prev
  | .link _ node _ _ .writeKey | .link _ node _ _ .writeNext => some node
  | _ => none

/-- No access goes through a node that has been freed. -/
theorem listLf_inPlace {node : NodeAddr}
    (hreach : ReachableVia (code reclaimer) NoEarlyReuse (init key next) config)
    (hderef : (config.threads thread).deref = some node) : config.shared.stage node ≠ .free := by
  obtain ⟨ghost, hglobal, hlocal⟩ := invariants hreach
  obtain ⟨hrole, hpc⟩ := hlocal thread
  generalize config.threads thread = pc at *
  unfold Pc.deref at hderef
  split at hderef <;> cases hderef
  · exact hpc.2.ne_free
  · exact hpc.2.reaches.ne_free
  · exact hpc.2.1.ne_free
  · exact (hpc.1 _ rfl).1.ne_free
  · exact (hpc.1 _ rfl).1.ne_free
  · exact (hpc.1 _ rfl).1.ne_free
  · exact (hpc.1 _ rfl).1.ne_free
  · exact (hpc.1 _ rfl).1.ne_free
  · simp [hrole.own _ rfl]
  · simp [hrole.own _ rfl]

theorem listLf_inPlace_searchMeetsMark : ∃ config, ReachableVia (code (n := 2) .dw) NoEarlyReuse emptyList config ∧
      (config.threads 1).deref = some 7 ∧ config.shared.stage 7 ≠ .free := by
  have hrun : (emptyList.runVia (code .dw) NoEarlyReuse ((searchMeetsMark (n := 2) 0 1).take 24)).any
      (fun config => (config.threads 1).deref == some 7) = true := by
    decide +kernel
  obtain ⟨config, hreach, hderef⟩ := exists_reachableVia_of_run _ _ hrun
  exact ⟨config, hreach, beq_iff_eq.mp hderef, listLf_inPlace hreach (beq_iff_eq.mp hderef)⟩

/-! ### Retiring -/

/-- What is claimed of one node in one state: it is retired at most once; it is marked and out of the
list when it is passed to `free_node_later` and from then on; and a node that has been linked and is
out of the list has been retired by the thread that unlinked it, or this thread and no other is about
to do so. -/
structure RetiredRight (config : Config (Fin n) (Shared n) Pc) (node : NodeAddr) : Prop where
  once : (config.shared.retiredBy node).length ≤ 1
  unreachable : (config.shared.retiredBy node ≠ [] ∨
      ∃ thread, (config.threads thread).retiring = some node) →
    (config.shared.heap.next node).mark = true ∧ ¬ config.shared.heap.FromHead node
  unlinker : config.shared.stage node ≠ .free → (∀ thread, config.shared.stage node ≠ .owned thread) →
    ¬ config.shared.heap.FromHead node →
    ∃ unlinker openWhen, config.shared.stage node = .unlinked unlinker openWhen ∧
      (config.shared.retiredBy node = [unlinker] ∧
          (∀ thread, (config.threads thread).retiring ≠ some node) ∨
        config.shared.retiredBy node = [] ∧
          ∀ thread, (config.threads thread).retiring = some node ↔ thread = unlinker)

section Retiring

variable {node : NodeAddr}

theorem GlobalInv.linked_iff_fromHead (hglobal : GlobalInv shared ghost) :
    shared.stage node = .linked ↔ shared.heap.FromHead node := by
  rw [hglobal.valid.fromHead_iff, hglobal.linked_iff]

theorem exists_unlinked (hglobal : GlobalInv config.shared ghost)
    (hlocal : ∀ thread, ThreadInv thread config.shared ghost (config.threads thread))
    (hretire : config.shared.retiredBy node ≠ [] ∨ ∃ thread, (config.threads thread).retiring = some node) :
    ∃ unlinker openWhen, config.shared.stage node = .unlinked unlinker openWhen := by
  rcases hretire with hretired | ⟨thread, hretiring⟩
  · obtain ⟨unlinker, openWhen, hstage, _⟩ := (hglobal.life.retired node).resolve_left hretired
    exact ⟨unlinker, openWhen, hstage⟩
  · obtain ⟨openWhen, hstage, _⟩ := (hlocal thread).1.unretired node hretiring
    exact ⟨thread, openWhen, hstage⟩

theorem GlobalInv.not_fromHead (hglobal : GlobalInv shared ghost) {unlinker : Fin n}
    {openWhen : Fin n → Option Nat} (hstage : shared.stage node = .unlinked unlinker openWhen) :
    ¬ shared.heap.FromHead node := by
  rw [← hglobal.linked_iff_fromHead, hstage]
  simp

theorem retiredRight_of_invariants (hglobal : GlobalInv config.shared ghost)
    (hlocal : ∀ thread, ThreadInv thread config.shared ghost (config.threads thread)) :
    RetiredRight config node where
  once := by
    rcases hglobal.life.retired node with hnone | ⟨unlinker, openWhen, _, hretired⟩
    · simp [hnone]
    · simp [hretired]
  unreachable hretire := by
    obtain ⟨unlinker, openWhen, hstage⟩ := exists_unlinked hglobal hlocal hretire
    exact ⟨hglobal.marked node unlinker openWhen hstage, hglobal.not_fromHead hstage⟩
  unlinker hfree howned hfrom := by
    cases hstage : config.shared.stage node with
    | free => exact absurd hstage hfree
    | owned thread => exact absurd hstage (howned thread)
    | linked => exact absurd (hglobal.linked_iff_fromHead.mp hstage) hfrom
    | unlinked unlinker openWhen =>
      refine ⟨unlinker, openWhen, rfl, ?_⟩
      rcases hglobal.life.retired node with hnone | ⟨by', openWhen', hstage', hretired⟩
      · refine .inr ⟨hnone, fun thread => ⟨?_, ?_⟩⟩
        · intro hretiring
          obtain ⟨_, hother, _⟩ := (hlocal thread).1.unretired node hretiring
          rw [hstage] at hother
          exact (Stage.unlinked.inj hother).1.symm
        · rintro rfl
          exact (hlocal thread).1.retiring.symm.trans (hglobal.life.pending node thread openWhen hstage hnone)
      · rw [hstage] at hstage'
        obtain ⟨rfl, _⟩ := Stage.unlinked.inj hstage'
        refine .inl ⟨hretired, fun thread hretiring => ?_⟩
        obtain ⟨_, _, hnone⟩ := (hlocal thread).1.unretired node hretiring
        simp [hnone] at hretired

/-! An unlinked node stays so until its memory is freed. -/

variable {unlinker : Fin n} {openWhen : Fin n → Option Nat}

theorem unlinked_of_cas {cur : NodeAddr} {heap : Heap} {target : Option NodeAddr} {k : Int}
    (hglobal : GlobalInv shared ghost) (hbelow : Below thread shared k prev)
    (hcas : shared.heap.cas prev (some cur) target = some heap)
    (hstage : shared.stage node = .unlinked unlinker openWhen) :
    (shared.toLife.unlink thread cur).stage node = .unlinked unlinker openWhen := by
  rw [Life.stage_unlink_of_ne, hstage]
  rintro rfl
  have hlinked := hglobal.stage_of_read hbelow (Heap.cas_eq_some hcas).1
  simp [hstage] at hlinked

theorem unlinked_walkStep {task : Task} {walkPc : WalkPc} (hglobal : GlobalInv shared ghost)
    (hinv : ThreadInv thread shared ghost (.walk task walkPc))
    (hstage : shared.stage node = .unlinked unlinker openWhen) :
    (walkStep thread shared task walkPc).1.stage node = .unlinked unlinker openWhen := by
  obtain ⟨_, hpc⟩ := hinv
  cases walkPc with
  | unlink prev cur next =>
    simp only [walkStep]
    split
    · exact unlinked_of_cas hglobal hpc.1 ‹_› hstage
    · exact hstage
  | first | load | retire prev cur next | readKey prev cur next => exact hstage
  | check prev cur | readNext prev cur => simp only [walkStep]; split <;> exact hstage
  | recheck prev cur next ckey =>
    simp only [walkStep]
    split
    · exact hstage
    split
    · exact hstage
    split <;> exact hstage

theorem unlinked_linkStep {k : Int} {own : NodeAddr} {cur : Option NodeAddr} {linkPc : LinkPc}
    (hinv : ThreadInv thread shared ghost (.link k own prev cur linkPc))
    (hstage : shared.stage node = .unlinked unlinker openWhen) :
    (linkStep shared k own prev cur linkPc).1.stage node = .unlinked unlinker openWhen := by
  cases linkPc with
  | writeKey | writeNext => exact hstage
  | cas =>
    simp only [linkStep]
    split
    · have howned := hinv.1.own own rfl
      simp only
      rw [Life.stage_link_of_ne, hstage]
      rintro rfl
      simp [hstage] at howned
    · exact hstage

theorem unlinked_deleteStep {k : Int} {cur : NodeAddr} {target : Option NodeAddr}
    {deletePc : DeletePc} (hglobal : GlobalInv shared ghost)
    (hinv : ThreadInv thread shared ghost (.delete k prev cur target deletePc))
    (hstage : shared.stage node = .unlinked unlinker openWhen) :
    (deleteStep thread shared k prev cur target deletePc).1.stage node = .unlinked unlinker openWhen := by
  cases deletePc with
  | mark => simp only [deleteStep]; split <;> exact hstage
  | unlink =>
    simp only [deleteStep]
    split
    · exact unlinked_of_cas hglobal hinv.2.1 ‹_› hstage
    · exact hstage
  | retire => exact hstage

theorem unlinked_renew {other : NodeAddr} {stage : Stage (Fin n)} {k : Int} {link : Link}
    (hstage : shared.stage node = .unlinked unlinker openWhen) (hne : node ≠ other) :
    (shared.renew other stage k link).stage node = .unlinked unlinker openWhen := by
  rw [Shared.renew, Life.stage_renew_of_ne hne, hstage]

theorem stage_of_some {result : Shared n × Pc} (hcode : some result = some (shared', pc')) :
    shared'.stage node = result.1.stage node := by
  rw [Option.some.inj hcode]

theorem unlinked_advance (hglobal : GlobalInv shared ghost) (hinv : ThreadInv thread shared ghost pc)
    (hcode : advance thread shared pc = some (shared', pc'))
    (hstage : shared.stage node = .unlinked unlinker openWhen) :
    shared'.stage node = .unlinked unlinker openWhen := by
  cases pc with
  | idle | freeNode result own => simp [advance] at hcode
  | alloc key allocPc =>
    -- these calls change sections only
    cases allocPc <;> first
      | exact (stage_of_some hcode).trans hstage
      | simp [advance] at hcode
  | enter task | ret result => exact (stage_of_some hcode).trans hstage
  | walk task walkPc => exact (stage_of_some hcode).trans (unlinked_walkStep hglobal hinv hstage)
  | link key own prev cur linkPc => exact (stage_of_some hcode).trans (unlinked_linkStep hinv hstage)
  | delete key prev cur next deletePc =>
    exact (stage_of_some hcode).trans (unlinked_deleteStep hglobal hinv hstage)
  | exit result unused => cases unused <;> exact (stage_of_some hcode).trans hstage

theorem unlinked_code {choice : Choice} (hglobal : GlobalInv shared ghost)
    (hinv : ThreadInv thread shared ghost pc) (hkept : ∀ key link, choice ≠ .reclaim node key link)
    (hcode : code reclaimer thread choice shared pc = some (shared', pc'))
    (hstage : shared.stage node = .unlinked unlinker openWhen) :
    shared'.stage node = .unlinked unlinker openWhen := by
  unfold code at hcode
  split at hcode
  · exact unlinked_advance hglobal hinv hcode hstage
  · split at hcode
    · exact (stage_of_some hcode).trans hstage
    · simp at hcode
  · obtain ⟨_, _, heq⟩ := Option.map_eq_some_iff.mp hcode
    exact (stage_of_some (congrArg some heq)).trans hstage
  · split at hcode
    · rename_i hfree
      obtain ⟨_, _, heq⟩ := Option.map_eq_some_iff.mp hcode
      apply (stage_of_some (congrArg some heq)).trans (unlinked_renew hstage _)
      rintro rfl
      simp [hstage] at hfree
    · simp at hcode
  · split at hcode
    · have howned := hinv.1.own _ rfl
      apply (stage_of_some hcode).trans (unlinked_renew hstage _)
      rintro rfl
      simp [hstage] at howned
    · simp at hcode
  · split at hcode
    · simp at hcode
    · apply (stage_of_some hcode).trans (unlinked_renew hstage _)
      rintro rfl
      exact hkept _ _ rfl

end Retiring

def NotFreed (node : NodeAddr) (_ : Config (Fin n) (Shared n) Pc) (_ : Fin n) (choice : Choice) : Prop :=
  ∀ key next, choice ≠ .reclaim node key next

/-- For `list_lf_ebr.c` and `list_lf_dw.c`: every node is retired as it should be, and a node that has
been retired, or is about to be, never becomes reachable again before its memory is freed. -/
theorem listLf_retiredRight (hreach : ReachableVia (code reclaimer) NoEarlyReuse (init key next) config)
    (node : NodeAddr) :
    RetiredRight config node ∧
      ∀ later, ReachableVia (code reclaimer) (fun config thread choice =>
          NoEarlyReuse config thread choice ∧ NotFreed node config thread choice) config later →
        (config.shared.retiredBy node ≠ [] ∨
          ∃ thread, (config.threads thread).retiring = some node) →
        ¬ later.shared.heap.FromHead node := by
  obtain ⟨ghost, hglobal, hlocal⟩ := invariants hreach
  refine ⟨retiredRight_of_invariants hglobal hlocal, fun later hlater hretire => ?_⟩
  obtain ⟨unlinker, openWhen, hstage⟩ := exists_unlinked hglobal hlocal hretire
  -- along the run, the invariant holds and the node stays unlinked
  have hkept := hlater.invariant
    (fun config => ReachableVia (code reclaimer) NoEarlyReuse (init key next) config ∧
      config.shared.stage node = .unlinked unlinker openWhen) ⟨hreach, hstage⟩ ?_
  · obtain ⟨ghost', hglobal', _⟩ := invariants hkept.1
    exact hglobal'.not_fromHead hkept.2
  · rintro before after thread choice ⟨hbefore, hunlinked⟩ ⟨hallowed, hnotFreed⟩ hstep
    obtain ⟨ghost', hglobal', hlocal'⟩ := invariants hbefore
    obtain ⟨priv, hcode, _⟩ := Config.step_eq_some_iff.mp hstep
    exact ⟨hbefore.step hallowed hstep,
      unlinked_code hglobal' (hlocal' thread) hnotFreed hcode hunlinked⟩

/-- After the mark, a second search unlinks the node, and has yet to retire it. -/
def searchUnlinks (first second : Fin n) : List (Fin n × Choice) :=
  searchMeetsMark first second ++ (second, .call (.search 5)) :: List.replicate 5 (second, .go)

theorem listLf_retiredRight_searchUnlinks :
    ∃ config, ReachableVia (code (n := 2) .ebr) NoEarlyReuse emptyList config ∧
      (config.threads 1).retiring = some 7 ∧ RetiredRight config 7 := by
  have hrun : (emptyList.runVia (code .ebr) NoEarlyReuse (searchUnlinks (n := 2) 0 1)).any
      (fun config => decide ((config.threads 1).retiring = some 7)) = true := by
    decide +kernel
  obtain ⟨config, hreach, hretiring⟩ := exists_reachableVia_of_run _ _ hrun
  exact ⟨config, hreach, of_decide_eq_true hretiring, (listLf_retiredRight hreach 7).1⟩

end Lfmr.LockFreeList
