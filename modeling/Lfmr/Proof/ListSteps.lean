import Lfmr.Proof.ListInvariant

/-!
# The accesses of the lock-free list keep its invariant

One lemma for each kind of access: those that only read, where the thread may note the result its call
would have now; the three compare-and-swaps that link, mark and unlink a node; and what concerns the
allocator, the reclaimer and the history.
-/

namespace Lfmr.LockFreeList

open Lfmr.Concurrency Lfmr.MarkedList

variable {n : Nat} {shared shared' : Shared n} {ghost ghost' : Ghost n} {thread other : Fin n}
  {op : Op} {present : Bool} {task : Task} {prev : Loc} {cur node : NodeAddr}
  {next : Option NodeAddr} {pc : Pc} {key : Int}

abbrev Keeps (thread : Fin n) := Concurrency.Keeps GlobalInv ThreadInv Rely thread

theorem keeps_of_threadInv (hglobal : GlobalInv shared ghost) (hinv : ThreadInv thread shared ghost pc) :
    Keeps thread shared ghost shared pc :=
  ⟨ghost, hglobal, hinv, fun _ _ => .refl⟩

/-! ### Noting a result -/

def Ghost.noteNow (ghost : Ghost n) (shared : Shared n) (thread : Fin n) (op : Op) : Ghost n :=
  ghost.note thread op (decide (op.key ∈ shared.heap.keys ghost.chain))

theorem noted_noteNow_present (hmem : op.key ∈ shared.heap.keys ghost.chain) :
    Noted (ghost.noteNow shared thread op) thread op true := by
  rw [Ghost.noteNow, decide_eq_true hmem]
  exact noted_note ghost thread op true

theorem noted_noteNow_absent (hmem : op.key ∉ shared.heap.keys ghost.chain) :
    Noted (ghost.noteNow shared thread op) thread op false := by
  rw [Ghost.noteNow, decide_eq_false hmem]
  exact noted_note ghost thread op false

theorem GlobalInv.noteNow (hglobal : GlobalInv shared ghost) (hphase : ghost.phase thread = .pending op) :
    GlobalInv shared (ghost.noteNow shared thread op) :=
  hglobal.note hphase (by simp)

theorem Rely.noteNow (hrely : Rely other (shared, ghost) (shared', ghost')) (hne : other ≠ thread) :
    Rely other (shared, ghost) (shared', ghost'.noteNow shared' thread op) :=
  ⟨hrely.life, hrely.data, hrely.account.trans (same_note hne)⟩

theorem keeps_of_noteNow (hglobal : GlobalInv shared ghost) (hphase : ghost.phase thread = .pending op)
    (hinv : ThreadInv thread shared (ghost.noteNow shared thread op) pc) :
    Keeps thread shared ghost shared pc :=
  ⟨_, hglobal.noteNow hphase, hinv, fun _ hne => Rely.refl.noteNow hne⟩

abbrev Walking (thread : Fin n) (shared : Shared n) (ghost : Ghost n) (task : Task) : Prop :=
  Role thread shared.toLife ghost.toAccount true task.own none (.pending task.op)

section

variable (hrole : Walking thread shared ghost task)
include hrole

theorem Walking.restart : ThreadInv thread shared ghost (restart task) := by
  cases task <;> exact ⟨hrole, trivial⟩

theorem Walking.notFound {cur : Option NodeAddr}
    (hbelow : Below thread shared task.key prev) (habove : Above thread shared task.key cur)
    (hnoted : Noted ghost thread task.op false) :
    ThreadInv thread shared ghost (notFound task prev cur) := by
  cases task with
  | insert key node => exact ⟨hrole, hbelow, habove, trivial⟩
  | delete key | search key => exact ⟨hrole.settle (hnoted false rfl), trivial⟩

theorem Walking.found (hbelow : Below thread shared task.key prev) (hreach : shared.Reaches thread cur)
    (hkey : shared.heap.key cur = task.key) (hnoted : Noted ghost thread task.op true) :
    ThreadInv thread shared ghost (found task prev cur next) := by
  cases task with
  | insert key node => exact ⟨hrole.settle (hnoted false rfl), trivial⟩
  | delete key => exact ⟨hrole, hbelow, hreach, hkey⟩
  | search key => exact ⟨hrole.settle (hnoted true rfl), trivial⟩

theorem Walking.loop (hbelow : Below thread shared task.key prev)
    (hreach : ∀ node, next = some node → shared.Reaches thread node)
    (hnoted : next = none → Noted ghost thread task.op false) :
    ThreadInv thread shared ghost (loop task prev next) := by
  cases next with
  | none => exact hrole.notFound hbelow (by simp [Above]) (hnoted rfl)
  | some cur => exact ⟨hrole, hbelow, hreach cur rfl⟩

end

theorem below_head : Below thread shared key .head := by
  simp [Below]

section

variable (hglobal : GlobalInv shared ghost)
include hglobal

/-- A node that is reached and unmarked is linked: unlinked ones are marked. -/
theorem GlobalInv.mem_chain (hreach : shared.Reaches thread node)
    (hmark : (shared.heap.next node).mark = false) : node ∈ ghost.chain := by
  rw [hglobal.linked_iff]
  rcases hreach.cases with hlinked | ⟨unlinker, openWhen, hstage⟩
  · exact hlinked
  · rw [hglobal.marked node unlinker openWhen hstage] at hmark
    simp at hmark

theorem GlobalInv.mem_locs (hbelow : Below thread shared key prev)
    (hmark : (shared.heap.read prev).mark = false) : prev ∈ Heap.locs ghost.chain := by
  cases prev with
  | head => exact List.mem_cons_self
  | next node => exact Heap.next_mem_locs.mpr (hglobal.mem_chain (hbelow node rfl).1 hmark)

theorem GlobalInv.reaches_of_mem (hinside : shared.inside thread = true) (hmem : node ∈ ghost.chain) :
    shared.Reaches thread node :=
  Life.reaches_of_linked hinside ((hglobal.linked_iff node).mp hmem)

theorem keeps_load (hrole : Walking thread shared ghost task) :
    Keeps thread shared ghost shared (loop task .head shared.heap.head) := by
  apply keeps_of_noteNow hglobal hrole.progress
  apply Walking.loop (role_note hrole) below_head
  · intro node hhead
    exact hglobal.reaches_of_mem hrole.inside (hglobal.valid.mem_of_read List.mem_cons_self hhead)
  · intro hnone
    apply noted_noteNow_absent
    exact hglobal.valid.notMem_keys List.mem_cons_self hnone (by simp) (by simp)

theorem keeps_readNext (hrole : Walking thread shared ghost task)
    (hbelow : Below thread shared task.key prev) (hreach : shared.Reaches thread cur)
    (hmark : (shared.heap.next cur).mark = false) :
    Keeps thread shared ghost shared (.walk task (.readKey prev cur (shared.heap.next cur).addr)) := by
  have hmem := hglobal.mem_chain hreach hmark
  apply keeps_of_noteNow hglobal hrole.progress
  refine ⟨role_note hrole, hbelow, hreach, ?_, ?_, ?_⟩
  · exact fun node hnext => hglobal.life.reaches_next thread cur node hreach hnext
  · intro hkey
    apply noted_noteNow_present
    rw [Task.op_key]
    exact Heap.mem_keys.mpr ⟨cur, hmem, hmark, hkey⟩
  · intro hnone hlt
    apply noted_noteNow_absent
    rw [Task.op_key]
    apply hglobal.valid.notMem_keys (Heap.next_mem_locs.mpr hmem) hnone
    · rintro node heq
      obtain rfl := Loc.next.inj heq
      exact hlt
    · simp

theorem keeps_recheck_notFound (hrole : Walking thread shared ghost task) (hbelow : Below thread shared task.key prev)
    (hreach : shared.Reaches thread cur) (hread : shared.heap.read prev = ⟨some cur, false⟩)
    (hlt : task.key < shared.heap.key cur) :
    Keeps thread shared ghost shared (notFound task prev (some cur)) := by
  have habove : Above thread shared task.key (some cur) := by
    rintro node heq
    cases heq
    exact ⟨hreach, hlt⟩
  apply keeps_of_noteNow hglobal hrole.progress
  apply Walking.notFound (role_note hrole) hbelow habove
  apply noted_noteNow_absent
  rw [Task.op_key]
  apply hglobal.valid.notMem_keys (hglobal.mem_locs hbelow (by rw [hread])) (congrArg Link.addr hread)
  · exact fun node hprev => (hbelow node hprev).2
  · exact fun node hcur => (habove node hcur).2

end

/-! ### Changing a link of the list -/

theorem GlobalInv.dataSteady_write (hglobal : GlobalInv shared ghost) {old new : Option NodeAddr}
    (hmem : prev ∈ Heap.locs ghost.chain) (hread : shared.heap.read prev = ⟨old, false⟩)
    (hheap : shared'.heap = shared.heap.write prev new) : DataSteady other shared shared' where
  key node _ := by rw [hheap, Heap.write_key]
  frozen node _ hmark := by
    rw [hheap, Heap.next_write_of_ne]
    rintro rfl
    rw [Heap.read] at hread
    simp [hread] at hmark
  own_key node _ := by rw [hheap, Heap.write_key]
  own_next node howned := by
    rw [hheap, Heap.next_write_of_ne]
    rintro rfl
    rw [Heap.next_mem_locs, hglobal.linked_iff, howned] at hmem
    simp at hmem

def Shared.unlink (shared : Shared n) (thread : Fin n) (prev : Loc) (cur : NodeAddr)
    (next : Option NodeAddr) : Shared n :=
  { shared with
    toLife := shared.toLife.unlink thread cur
    heap := shared.heap.write prev next }

theorem GlobalInv.stage_of_read (hglobal : GlobalInv shared ghost)
    (hbelow : Below thread shared key prev) (hread : shared.heap.read prev = ⟨some cur, false⟩) :
    shared.stage cur = .linked := by
  have hmem := hglobal.mem_locs hbelow (by rw [hread])
  exact (hglobal.linked_iff cur).mp (hglobal.valid.mem_of_read hmem (congrArg Link.addr hread))

theorem prev_ne_next (hread : shared.heap.read prev = ⟨some cur, false⟩)
    (hnext : shared.heap.next cur = ⟨next, true⟩) : prev ≠ .next cur := by
  rintro rfl
  rw [Heap.read, hnext] at hread
  simp at hread

section Unlink

variable (hglobal : GlobalInv shared ghost) (hbelow : Below thread shared key prev)
  (hread : shared.heap.read prev = ⟨some cur, false⟩)
  (hnext : shared.heap.next cur = ⟨next, true⟩)

include hglobal hbelow hread

theorem GlobalInv.steady_unlink : Life.Steady other shared.toLife (shared.unlink thread prev cur next).toLife :=
  Life.steady_unlink (hglobal.stage_of_read hbelow hread)

theorem GlobalInv.dataSteady_unlink : DataSteady other shared (shared.unlink thread prev cur next) :=
  hglobal.dataSteady_write (hglobal.mem_locs hbelow (by rw [hread])) hread rfl

theorem GlobalInv.rely_unlink (hne : other ≠ thread) {chain : List NodeAddr} :
    Rely other (shared, ghost) (shared.unlink thread prev cur next,
      ⟨ghost.toAccount.toRetire thread (some cur), chain⟩) where
  life := hglobal.steady_unlink hbelow hread
  data := hglobal.dataSteady_unlink hbelow hread
  account := Account.same_toRetire hne

include hnext

/-- Whoever swings the link in front of a marked node takes the node out of the list, and has to
retire it. -/
theorem GlobalInv.unlink (hretiring : ghost.retiring thread = none) :
    ∃ chain, GlobalInv (shared.unlink thread prev cur next) ⟨ghost.toAccount.toRetire thread (some cur), chain⟩ ∧
      prev ∈ Heap.locs chain := by
  have hmem := hglobal.mem_locs hbelow (by rw [hread])
  have hlinked := hglobal.stage_of_read hbelow hread
  have hne := prev_ne_next hread hnext
  obtain ⟨chain, hvalid, hmembers, hkeys⟩ := hglobal.valid.unlink hmem hread hnext
  refine ⟨chain, ⟨hvalid, ?_, ?_, ?_, ?_⟩, ?_⟩
  · intro node
    rw [hmembers, hglobal.linked_iff]
    by_cases heq : node = cur
    · simp [Shared.unlink, Life.unlink, heq]
    · simp [Shared.unlink, Life.unlink, heq]
  · intro node unlinker openWhen hstage
    rw [Shared.unlink, Heap.mark_write hread]
    by_cases heq : node = cur
    · rw [heq, hnext]
    · rw [Shared.unlink, Life.stage_unlink_of_ne heq] at hstage
      exact hglobal.marked node unlinker openWhen hstage
  · apply hglobal.life.unlink hlinked hretiring
    · intro node
      by_cases heq : prev = .next node
      · subst heq
        right
        rw [Heap.read] at hread
        simp [Shared.unlink, hread, hnext]
      · left
        rw [Shared.unlink, Heap.next_write_of_ne heq]
    · intro node hnode hnodeNe hsucc
      have hchain : node ∈ chain := (hmembers node).mpr ⟨hnodeNe, (hglobal.linked_iff node).mpr hnode⟩
      have hcur := hvalid.mem_of_read (Heap.next_mem_locs.mpr hchain) hsucc
      exact ((hmembers cur).mp hcur).1 rfl
  · have hrun := hglobal.run
    rwa [← hkeys] at hrun
  · cases prev with
    | head => exact List.mem_cons_self
    | next node =>
      rw [Heap.next_mem_locs, hmembers]
      exact ⟨fun heq => hne (congrArg Loc.next heq), Heap.next_mem_locs.mp hmem⟩

theorem GlobalInv.after_unlink (hreach : shared.Reaches thread cur) :
    Below thread (shared.unlink thread prev cur next) key prev ∧
      (shared.unlink thread prev cur next).Reaches thread cur ∧
      (shared.unlink thread prev cur next).heap.next cur = ⟨next, true⟩ := by
  have hlife : Life.Steady thread shared.toLife (shared.unlink thread prev cur next).toLife :=
    hglobal.steady_unlink hbelow hread
  have hdata : DataSteady thread shared (shared.unlink thread prev cur next) :=
    hglobal.dataSteady_unlink hbelow hread
  exact ⟨hbelow.steady hlife hdata, hlife.reaches cur hreach, (hdata.frozen cur hreach (by rw [hnext])).trans hnext⟩

theorem keeps_delete_unlink (hreach : shared.Reaches thread cur)
    (hrole : Role thread shared.toLife ghost.toAccount true none none (.done true)) :
    Keeps thread shared ghost (shared.unlink thread prev cur next) (.delete key prev cur next .retire) := by
  obtain ⟨chain, hglobal', _⟩ := hglobal.unlink hbelow hread hnext hrole.retiring
  have hrole' := hrole.unlink hglobal.life (hglobal.stage_of_read hbelow hread)
  exact ⟨_, hglobal', ⟨hrole', hglobal.after_unlink hbelow hread hnext hreach⟩,
    fun other hne => hglobal.rely_unlink hbelow hread hne⟩

end Unlink

section

variable (hglobal : GlobalInv shared ghost)
include hglobal

theorem keeps_walk_unlink (hrole : Walking thread shared ghost task)
    (hbelow : Below thread shared task.key prev) (hreach : shared.Reaches thread cur)
    (hread : shared.heap.read prev = ⟨some cur, false⟩)
    (hnext : shared.heap.next cur = ⟨next, true⟩) :
    Keeps thread shared ghost (shared.unlink thread prev cur next) (.walk task (.retire prev cur next)) := by
  obtain ⟨chain, hglobal', hmem⟩ := hglobal.unlink hbelow hread hnext hrole.retiring
  obtain ⟨hbelow', hreach', hnext'⟩ := hglobal.after_unlink hbelow hread hnext hreach
  have hrole' := hrole.unlink hglobal.life (hglobal.stage_of_read hbelow hread)
  refine ⟨_, hglobal'.noteNow hrole.progress, ⟨role_note hrole', hbelow', hreach', hnext', fun hnone => ?_⟩,
    fun other hne => (hglobal.rely_unlink hbelow hread hne).noteNow hne⟩
  have hlast : ((shared.unlink thread prev cur next).heap.read prev).addr = none := by
    simp [Shared.unlink, Heap.read_write, hnone]
  apply noted_noteNow_absent
  rw [Task.op_key]
  apply hglobal'.valid.notMem_keys hmem hlast
  · exact fun node hprev => (hbelow' node hprev).2
  · simp

/-! ### Linking and marking -/

theorem GlobalInv.notMem_of_owned (howned : shared.stage node = .owned thread) : node ∉ ghost.chain := by
  rw [hglobal.linked_iff, howned]
  simp

/-- The compare-and-swap of `insert`: between `prev` and `cur` there is room for the key. -/
theorem keeps_link {cur : Option NodeAddr}
    (hrole : Role thread shared.toLife ghost.toAccount true (some node) none (.pending (.insert key)))
    (hbelow : Below thread shared key prev) (habove : Above thread shared key cur)
    (hkey : shared.heap.key node = key) (hnext : shared.heap.next node = ⟨cur, false⟩)
    (hread : shared.heap.read prev = ⟨cur, false⟩) :
    Keeps thread shared ghost { shared with
        toLife := shared.toLife.link node, heap := shared.heap.write prev (some node) }
      (.exit true none) := by
  subst hkey
  have howned := hrole.own node rfl
  have hnew := hglobal.notMem_of_owned howned
  have hmem := hglobal.mem_locs hbelow (by rw [hread])
  have hbelow' := fun p hprev => (hbelow p hprev).2
  have habove' := fun p hcur => (habove p hcur).2
  have habsent := hglobal.valid.notMem_keys hmem (congrArg Link.addr hread) hbelow' habove'
  obtain ⟨chain, hvalid, hmembers, hkeys⟩ :=
    hglobal.valid.insert hmem hread hbelow' habove' hnew hnext
  have hrun := hglobal.run.effect thread _ hrole.phase_eq
  simp only [setSpec, habsent, not_false_eq_true, decide_true, ← hkeys] at hrun
  refine ⟨⟨ghost.toAccount.effect thread true, chain⟩, ⟨hvalid, ?_, ?_, ?_, hrun⟩, ⟨hrole.link.effect, trivial⟩, ?_⟩
  · intro other
    rw [hmembers, Life.stage_link_eq_linked, hglobal.linked_iff]
  · intro other unlinker openWhen hstage
    rw [Heap.mark_write hread]
    apply hglobal.marked other unlinker openWhen
    rw [← hstage, Life.stage_link_of_ne]
    rintro rfl
    simp [Life.link] at hstage
  · apply hglobal.life.link howned
    · intro succ hsucc
      rw [hnext] at hsucc
      have hread' : (shared.heap.read prev).addr = some succ := by rw [hread]; exact hsucc
      exact (hglobal.linked_iff succ).mp (hglobal.valid.mem_of_read hmem hread')
    · intro other
      by_cases heq : prev = .next other
      · subst heq
        refine .inr ⟨?_, by simp⟩
        rintro rfl
        exact hnew (Heap.next_mem_locs.mp hmem)
      · exact .inl (by rw [Heap.next_write_of_ne heq])
  · intro other hne
    exact ⟨Life.steady_link howned hne, hglobal.dataSteady_write hmem hread rfl, Account.same_effect hne⟩

/-- The mark of `delete` takes the key out of the set. -/
theorem keeps_mark (hrole : Role thread shared.toLife ghost.toAccount true none none (.pending (.delete key)))
    (hbelow : Below thread shared key prev) (hreach : shared.Reaches thread cur)
    (hkey : shared.heap.key cur = key) (hnext : shared.heap.next cur = ⟨next, false⟩) :
    Keeps thread shared ghost { shared with heap := shared.heap.setMark cur next }
      (.delete key prev cur next .unlink) := by
  subst hkey
  have hmem := hglobal.mem_chain hreach (by rw [hnext])
  have hpresent : shared.heap.key cur ∈ shared.heap.keys ghost.chain :=
    Heap.mem_keys.mpr ⟨cur, hmem, by rw [hnext], rfl⟩
  have hkeys : (shared.heap.setMark cur next).keys ghost.chain =
      (shared.heap.keys ghost.chain).erase (shared.heap.key cur) := hglobal.valid.keys_mark hmem
  have hrun := hglobal.run.effect thread _ hrole.phase_eq
  simp only [setSpec, hpresent, decide_true, ← hkeys] at hrun
  refine ⟨⟨ghost.toAccount.effect thread true, ghost.chain⟩,
    ⟨hglobal.valid.mark hnext, hglobal.linked_iff, ?_, ?_, hrun⟩,
    ⟨hrole.effect, hbelow, hreach, by simp [DeleteInv, Heap.setMark]⟩, ?_⟩
  · intro node unlinker openWhen hstage
    have hmark := hglobal.marked node unlinker openWhen hstage
    by_cases heq : node = cur
    · simp [Heap.setMark, heq]
    · simpa [Heap.setMark, heq] using hmark
  · have hlife := hglobal.life
    simp only [Heap.addr_setMark hnext]
    exact hlife
  · intro other hne
    refine ⟨.refl, ⟨fun _ _ => rfl, ?_, fun _ _ => rfl, ?_⟩, Account.same_effect hne⟩
    · intro node _ hmark
      apply Function.update_of_ne
      rintro rfl
      simp [hnext] at hmark
    · intro node howned
      apply Function.update_of_ne
      rintro rfl
      exact hglobal.notMem_of_owned howned hmem

/-! ### The reclaimer -/

theorem keeps_retire {isInside : Bool} {owns : Option NodeAddr} {shown : Phase Op Bool}
    (hrole : Role thread shared.toLife ghost.toAccount isInside owns (some cur) shown)
    (hinv : ThreadInv thread (shared.retire thread cur) ⟨ghost.toAccount.toRetire thread none, ghost.chain⟩ pc) :
    Keeps thread shared ghost (shared.retire thread cur) pc := by
  obtain ⟨openWhen, hstage, hretired⟩ := hrole.unretired cur rfl
  refine ⟨⟨ghost.toAccount.toRetire thread none, ghost.chain⟩,
    { hglobal with life := hglobal.life.retire hstage hretired }, hinv, ?_⟩
  intro other hne
  exact ⟨Life.steady_retire hstage hne, .of_heap_eq rfl, Account.same_toRetire hne⟩

theorem keeps_enter (hinv : ThreadInv thread (shared.enter thread) ghost pc) :
    Keeps thread shared ghost (shared.enter thread) pc :=
  ⟨ghost, { hglobal with life := hglobal.life.enter thread },
    hinv, fun _ hne => ⟨Life.steady_enter hne, .of_heap_eq rfl, .refl⟩⟩

theorem keeps_exit (hinv : ThreadInv thread (shared.exit thread) ghost pc) :
    Keeps thread shared ghost (shared.exit thread) pc :=
  ⟨ghost, { hglobal with life := hglobal.life.exit thread },
    hinv, fun _ hne => ⟨Life.steady_exit hne, .of_heap_eq rfl, .refl⟩⟩

end

/-! ### Nodes outside the list -/

variable {stage : Stage (Fin n)} {link : Link} {isInside : Bool} {shown : Phase Op Bool}

theorem GlobalInv.renew (hglobal : GlobalInv shared ghost) (hlinked : shared.stage node ≠ .linked)
    (hexpired : shared.Expired node) (hhidden : stage.Hidden) :
    GlobalInv (shared.renew node stage key link) ghost := by
  have hnotMem : node ∉ ghost.chain := by rwa [hglobal.linked_iff]
  have hsame := shared.heap.sameExcept_scribble node key link
  refine ⟨hglobal.valid.sameExcept hsame hnotMem, ?_, ?_, ?_, ?_⟩
  · intro other
    by_cases heq : other = node
    · subst heq
      cases stage <;> simp_all [Shared.renew, Life.renew, Stage.Hidden]
    · rw [Shared.renew, Life.stage_renew_of_ne heq, hglobal.linked_iff]
  · intro other unlinker openWhen hstage
    have hne : other ≠ node := by
      rintro rfl
      cases stage <;> simp_all [Shared.renew, Life.renew, Stage.Hidden]
    rw [Shared.renew, Life.stage_renew_of_ne hne] at hstage
    rw [Shared.renew, hsame.next other hne]
    exact hglobal.marked other unlinker openWhen hstage
  · apply hglobal.life.renew hlinked hexpired hhidden
    exact fun other hne => congrArg Link.addr (hsame.next other hne)
  · have hrun := hglobal.run
    rwa [← hsame.keys_eq hnotMem] at hrun

theorem rely_renew (hexpired : shared.Expired node) (howned : shared.stage node ≠ .owned thread)
    (hretired : ∀ openWhen, shared.stage node = .unlinked thread openWhen → shared.retiredBy node ≠ []) :
    Rely thread (shared, ghost) (shared.renew node stage key link, ghost) where
  life := Life.steady_renew hexpired howned hretired
  data := .of_sameExcept (shared.heap.sameExcept_scribble node key link) (hexpired thread) howned
  account := .refl

theorem expired_of_free (hfree : shared.stage node = .free) : shared.Expired node :=
  fun _ => Life.not_reaches_of_free hfree

theorem expired_of_owned (howned : shared.stage node = .owned thread) : shared.Expired node :=
  fun _ => Life.not_reaches_of_owned howned

section

variable (hglobal : GlobalInv shared ghost)
include hglobal

theorem keeps_newNode (hfree : shared.stage node = .free)
    (hinv : ThreadInv thread (shared.renew node (.owned thread) key link) ghost pc) :
    Keeps thread shared ghost (shared.renew node (.owned thread) key link) pc :=
  ⟨ghost, hglobal.renew (by simp [hfree]) (expired_of_free hfree) trivial, hinv,
    fun _ _ => rely_renew (expired_of_free hfree) (by simp [hfree]) (by simp [hfree])⟩

theorem keeps_freeNode (howned : shared.stage node = .owned thread)
    (hinv : ThreadInv thread (shared.renew node .free key link) ghost pc) :
    Keeps thread shared ghost (shared.renew node .free key link) pc := by
  refine ⟨ghost, hglobal.renew (by simp [howned]) (expired_of_owned howned) trivial, hinv, ?_⟩
  intro other hne
  exact rely_renew (expired_of_owned howned) (by simp [howned, hne.symm]) (by simp [howned])

theorem keeps_reclaim (hinv : ThreadInv thread shared ghost pc)
    (hexpired : shared.Expired node) (hretired : shared.retiredBy node ≠ []) :
    Keeps thread shared ghost (shared.renew node .free key link) pc := by
  obtain ⟨unlinker, openWhen, hstage, _⟩ := (hglobal.life.retired node).resolve_left hretired
  have hrely : ∀ reader, Rely reader (shared, ghost) (shared.renew node .free key link, ghost) :=
    fun reader => rely_renew hexpired (by simp [hstage]) fun _ _ => hretired
  exact ⟨ghost, hglobal.renew (by simp [hstage]) hexpired trivial, (hrely thread).threadInv hinv,
    fun other _ => hrely other⟩

theorem keeps_private {heap : Heap}
    (howned : shared.stage node = .owned thread) (hsame : Heap.SameExcept node shared.heap heap)
    (hinv : ThreadInv thread { shared with heap := heap } ghost pc) :
    Keeps thread shared ghost { shared with heap := heap } pc := by
  have hnotMem := hglobal.notMem_of_owned howned
  refine ⟨ghost, ⟨hglobal.valid.sameExcept hsame hnotMem, hglobal.linked_iff, ?_, ?_, ?_⟩, hinv, ?_⟩
  · intro other unlinker openWhen hstage
    have hne : other ≠ node := by
      rintro rfl
      simp [howned] at hstage
    rw [hsame.next other hne]
    exact hglobal.marked other unlinker openWhen hstage
  · apply hglobal.life.congr_next
    intro other hother
    have hne : other ≠ node := by
      rintro rfl
      rcases hother with hlinked | ⟨reader, hreach⟩
      · simp [howned] at hlinked
      · exact Life.not_reaches_of_owned howned hreach
    rw [hsame.next other hne]
  · have hrun := hglobal.run
    rwa [← hsame.keys_eq hnotMem] at hrun
  · intro other hne
    exact ⟨.refl, .of_sameExcept hsame (Life.not_reaches_of_owned howned) (by simp [howned, hne.symm]), .refl⟩

end

/-! ### The history -/

theorem keeps_call (hglobal : GlobalInv shared ghost) (hidle : ghost.phase thread = .idle)
    (hinv : ThreadInv thread (shared.log (.call thread op)) ⟨ghost.toAccount.call thread op, ghost.chain⟩ pc) :
    Keeps thread shared ghost (shared.log (.call thread op)) pc := by
  refine ⟨⟨ghost.toAccount.call thread op, ghost.chain⟩,
    { hglobal with run := hglobal.run.call thread op hidle }, hinv, ?_⟩
  exact fun other hne => ⟨.refl, .of_heap_eq rfl, Account.same_call hne⟩

theorem keeps_ret (hglobal : GlobalInv shared ghost) {result : Bool}
    (hrole : Role thread shared.toLife ghost.toAccount false none none (.done result)) :
    Keeps thread shared ghost (shared.log (.ret thread result)) .idle := by
  refine ⟨⟨ghost.toAccount.ret thread, ghost.chain⟩,
    { hglobal with run := hglobal.run.ret thread result hrole.progress }, ⟨hrole.ret, trivial⟩, ?_⟩
  exact fun other hne => ⟨.refl, .of_heap_eq rfl, Account.same_ret hne⟩

end Lfmr.LockFreeList
