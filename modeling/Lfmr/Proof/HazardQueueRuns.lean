import Lfmr.Proof.HazardQueueSteps

/-!
# The runs of the queue with hazard pointers
-/

namespace Lfmr.HazardQueue

open Function Lfmr.Concurrency Lfmr.Concurrency.Hazards Lfmr.Smr

variable {n : Nat} {shared shared' : Shared n} {ghost : Ghost} {thread : Fin n} {off : Bool}
  {node t h next : NodeAddr} {key data : Int} {mine : ThisThread} {pc : Pc} {priv : Priv}
  {choice : Choice}

structure Enqueuing (thread : Fin n) (shared : Shared n) (mine : ThisThread) (key : Int)
    (node : NodeAddr) : Prop where
  holds : shared.Holds thread mine.rlist
  owns : shared.Owns thread node
  filled : FilledIn shared key node

theorem Enqueuing.threadInv (henqueuing : Enqueuing thread shared mine key node)
    {enqueuePc : EnqueuePc} (hinv : EnqueueInv thread shared ghost key node enqueuePc) :
    ThreadInv thread shared ghost ⟨mine, .enqueue key node enqueuePc⟩ := by
  refine ⟨holds_of_pending_eq_nil henqueuing.holds rfl, fun found hown => ?_, hinv⟩
  have hfound : found = node := by
    cases enqueuePc <;> simp_all [Pc.own]
  rw [hfound]
  exact henqueuing.owns

theorem enqueue_protect_keeps (hglobal : GlobalInv shared ghost) (henqueuing : Enqueuing thread shared mine key node) :
    Keeps thread shared ghost (shared.announce (slot thread false) (some t)) ⟨mine, .enqueue key node (.check t)⟩ := by
  have hsteady : Steady thread (fun _ => False) (fun _ => True) shared.toHazards ghost.guard
      (shared.announce (slot thread false) (some t)).toHazards
      (update ghost.guard (slot thread false) none) :=
    steady_announce id
  have henqueuing' : Enqueuing thread (shared.announce (slot thread false) (some t)) mine key node :=
    ⟨henqueuing.holds.steady hsteady fun _ _ => trivial, henqueuing.owns.steady hsteady trivial, henqueuing.filled⟩
  apply keeps_announce hglobal
  exact henqueuing'.threadInv ⟨henqueuing.filled, update_self _ _ _⟩

/-- The tail is linked, so it is guarded when it is found to be what has been announced. -/
theorem enqueue_check_keeps (hglobal : GlobalInv shared ghost) (henqueuing : Enqueuing thread shared mine key node)
    (hpointer : shared.pointer (slot thread false) = some shared.memory.tail) :
    Keeps thread shared ghost (shared.see thread (some shared.memory.tail))
      ⟨mine, .enqueue key node (.readNext shared.memory.tail)⟩ := by
  have hsteady : Steady thread (fun _ => True) (fun _ => True) shared.toHazards ghost.guard
      (shared.see thread (some shared.memory.tail)).toHazards ghost.guard :=
    Steady.refl.see
  have henqueuing' : Enqueuing thread (shared.see thread (some shared.memory.tail)) mine key node :=
    ⟨henqueuing.holds.steady hsteady fun _ _ => trivial, henqueuing.owns.steady hsteady trivial, henqueuing.filled⟩
  apply keeps_confirm hglobal hpointer hglobal.tail_linked
  exact henqueuing'.threadInv ⟨henqueuing.filled, update_self _ _ _, current_see_self⟩

theorem follows_load (hnext : shared.memory.next node = some next) :
    Follows thread (shared.load thread (some next)) node next :=
  ⟨hnext, fun _ => current_see_self⟩

theorem enqueueStep_keeps {enqueuePc : EnqueuePc} (hglobal : GlobalInv shared ghost)
    (hinv : ThreadInv thread shared ghost ⟨mine, .enqueue key node enqueuePc⟩)
    (hstep : enqueueStep thread shared key node enqueuePc = (shared', pc)) :
    Keeps thread shared ghost shared' ⟨mine, pc⟩ := by
  have hpc := hinv.pc
  have hholds := hinv.holds.left
  cases enqueuePc with
  | writeKey =>
    cases hstep
    have howns := hinv.owns node rfl
    refine keeps_private hglobal howns.owned (shared.memory.sameExcept_setKey node key) ⟨hinv.holds, hinv.owns, ?_⟩
    exact update_self _ _ _
  | writeNext =>
    cases hstep
    have howns := hinv.owns node rfl
    refine keeps_private hglobal howns.owned (shared.memory.sameExcept_setNext node none)
      ⟨hinv.holds, hinv.owns, hpc, ?_⟩
    exact update_self _ _ _
  | loadTail =>
    cases hstep
    exact keeps_load hglobal ⟨hinv.holds, hinv.owns, hpc⟩
  | protect t =>
    cases hstep
    exact enqueue_protect_keeps hglobal ⟨hholds, hinv.owns node rfl, hpc⟩
  | check t =>
    cases hstep
    have henqueuing : Enqueuing thread shared mine key node := ⟨hholds, hinv.owns node rfl, hpc.1⟩
    split
    · exact keeps_see hglobal (henqueuing.threadInv hpc.1)
    · rename_i htail
      obtain rfl := not_not.mp htail
      exact enqueue_check_keeps hglobal henqueuing hpc.2
  | readNext t =>
    cases hstep
    have henqueuing : Enqueuing thread shared mine key node := ⟨hholds, hinv.owns node rfl, hpc.1⟩
    split
    · rename_i next hnext
      rw [hnext]
      have hinv' : ThreadInv thread (shared.load thread (some next)) ghost
          ⟨mine, .enqueue key node (.readNext t)⟩ := rely_load.threadInv hglobal hinv
      apply keeps_load_self hglobal
      exact ⟨hinv'.holds, hinv'.owns, hinv'.pc.1, hinv'.pc.2, follows_load hnext⟩
    · exact keeps_load hglobal (henqueuing.threadInv hpc)
  | helpTail t next =>
    cases hstep
    obtain ⟨hfilled, _, hfollows⟩ := hpc
    apply keeps_casTail hglobal hfollows.next
    refine ⟨hinv.holds, hinv.owns, ?_⟩
    unfold Memory.casTail
    split <;> exact hfilled
  | link t =>
    simp only [enqueueStep] at hstep
    split at hstep
    · rename_i hnext
      cases hstep
      exact keeps_link hglobal hinv hnext
    · cases hstep
      exact keeps_of_threadInv hglobal ⟨hinv.holds, hinv.owns, hpc.1⟩
  | swingTail t =>
    cases hstep
    exact keeps_casTail hglobal hpc.2.next ⟨hinv.holds, by simp [Pc.own], trivial⟩

theorem dequeuing (hholds : shared.Holds thread mine.rlist) {dequeuePc : DequeuePc}
    (hinv : DequeueInv thread shared ghost dequeuePc) :
    ThreadInv thread shared ghost ⟨mine, .dequeue dequeuePc⟩ :=
  ⟨holds_of_pending_eq_nil hholds rfl, by simp [Pc.own], hinv⟩

section

variable (hglobal : GlobalInv shared ghost)
include hglobal

theorem dequeue_protect_keeps (hholds : shared.Holds thread mine.rlist) :
    Keeps thread shared ghost (shared.announce (slot thread false) (some h)) ⟨mine, .dequeue (.check h)⟩ := by
  have hsteady : Steady thread (fun _ => False) (fun _ => True) shared.toHazards ghost.guard
      (shared.announce (slot thread false) (some h)).toHazards
      (update ghost.guard (slot thread false) none) :=
    steady_announce id
  apply keeps_announce hglobal
  exact dequeuing (hholds.steady hsteady fun _ _ => trivial) (update_self _ _ _)

theorem dequeue_check_keeps (hholds : shared.Holds thread mine.rlist)
    (hpointer : shared.pointer (slot thread false) = some shared.memory.head) :
    Keeps thread shared ghost (shared.see thread (some shared.memory.head))
      ⟨mine, .dequeue (.loadTail shared.memory.head)⟩ := by
  have hsteady : Steady thread (fun _ => True) (fun _ => True) shared.toHazards ghost.guard
      (shared.see thread (some shared.memory.head)).toHazards ghost.guard :=
    Steady.refl.see
  apply keeps_confirm hglobal hpointer hglobal.head_linked
  refine dequeuing (hholds.steady hsteady fun _ _ => trivial) ⟨⟨?_, current_see_self⟩, .inl rfl⟩
  exact update_self _ _ _

/-- The head has not moved since the tail was read, so a tail other than the head has left it. -/
theorem dequeue_loadTail_keeps (hinv : ThreadInv thread shared ghost ⟨mine, .dequeue (.loadTail h)⟩) :
    Keeps thread shared ghost (shared.load thread (some shared.memory.tail))
      ⟨mine, .dequeue (.readNext h shared.memory.tail)⟩ := by
  obtain ⟨hguards, hseen⟩ := hinv.pc
  refine keeps_load hglobal (dequeuing hinv.holds.left ⟨hguards, fun hne => ?_⟩)
  rcases hseen with hhead | hunlinked
  · exact .inl ⟨hhead, hne.symm⟩
  · exact .inr hunlinked

theorem dequeue_readNext_keeps (hinv : ThreadInv thread shared ghost ⟨mine, .dequeue (.readNext h t)⟩) :
    Keeps thread shared ghost (shared.load thread (shared.memory.next h))
      ⟨mine, .dequeue (.protectNext h t (shared.memory.next h))⟩ := by
  have hinv' : ThreadInv thread (shared.load thread (shared.memory.next h)) ghost
      ⟨mine, .dequeue (.readNext h t)⟩ := rely_load.threadInv hglobal hinv
  obtain ⟨hguards, hpassed⟩ := hinv'.pc
  apply keeps_load_self hglobal
  refine dequeuing hinv'.holds.left ⟨hguards, hpassed, fun succ hsucc => ?_⟩
  rw [hsucc]
  exact follows_load hsucc

theorem dequeue_protectNext_keeps {succ : Option NodeAddr}
    (hinv : ThreadInv thread shared ghost ⟨mine, .dequeue (.protectNext h t succ)⟩) :
    Keeps thread shared ghost (shared.announce (slot thread true) succ) ⟨mine, .dequeue (.recheck h t succ)⟩ := by
  obtain ⟨hguards, hpassed, hfollows⟩ := hinv.pc
  have hsteady : Steady thread (fun _ => False) (fun _ => True) shared.toHazards ghost.guard
      (shared.announce (slot thread true) succ).toHazards
      (update ghost.guard (slot thread true) none) :=
    steady_announce id
  apply keeps_announce hglobal
  refine dequeuing (hinv.holds.left.steady hsteady fun _ _ => trivial)
    ⟨hguards.of_second id, hpassed, fun found hfound => ?_, update_self _ _ _⟩
  exact ⟨(hfollows found hfound).next, (hfollows found hfound).current⟩

/-- The head is still the head, so its successor is linked and guarded by the second slot. -/
theorem dequeue_recheck_keeps (hinv : ThreadInv thread shared ghost ⟨mine, .dequeue (.recheck h t (some next))⟩)
    (hhead : shared.memory.head = h) :
    Keeps thread shared ghost (shared.see thread (some h))
      ⟨mine, if h = t then .dequeue (.helpTail t next) else .dequeue (.readKey h next)⟩ := by
  subst hhead
  obtain ⟨hguards, hpassed, hfollows, hpointer⟩ := hinv.pc
  have hfollows := hfollows next rfl
  have hlinked := hglobal.next_linked hglobal.head_linked hfollows.next
  have hcurrent := hfollows.current hglobal.head_linked
  have hsteady : Steady thread (fun _ => True) (fun _ => True) shared.toHazards ghost.guard
      (shared.see thread (some shared.memory.head)).toHazards ghost.guard :=
    Steady.refl.see
  have hsee : ∀ node, shared.Current thread node → (shared.see thread (some shared.memory.head)).Current thread node :=
    fun node hnode => hnode.see thread _
  have hguards' : Guards thread (shared.see thread (some shared.memory.head))
      ⟨ghost.rest, update ghost.guard (slot thread true) (some next)⟩ false
      shared.memory.head := hguards.of_second (hsee _)
  have hfollows' : Follows thread (shared.see thread (some shared.memory.head)) shared.memory.head
      next := ⟨hfollows.next, fun _ => hsee next hcurrent⟩
  have hnext : Guards thread (shared.see thread (some shared.memory.head))
      ⟨ghost.rest, update ghost.guard (slot thread true) (some next)⟩ true next :=
    ⟨update_self _ _ _, hsee next hcurrent⟩
  apply keeps_confirm hglobal hpointer hlinked
  have hholds := hinv.holds.left.steady hsteady fun _ _ => trivial
  split
  · rename_i heq
    subst heq
    exact dequeuing hholds ⟨hguards', hfollows', hnext⟩
  · rename_i hne
    exact dequeuing hholds ⟨hguards', hpassed hne, hfollows', hnext⟩

theorem dequeueStep_keeps {dequeuePc : DequeuePc} (hinv : ThreadInv thread shared ghost ⟨mine, .dequeue dequeuePc⟩)
    (hstep : dequeueStep thread shared dequeuePc = (shared', pc)) :
    Keeps thread shared ghost shared' ⟨mine, pc⟩ := by
  have hholds := hinv.holds.left
  have hretry : ThreadInv thread shared ghost ⟨mine, .dequeue .loadHead⟩ := dequeuing hholds trivial
  cases dequeuePc with
  | loadHead =>
    cases hstep
    exact keeps_load hglobal (dequeuing hholds trivial)
  | protect h =>
    cases hstep
    exact dequeue_protect_keeps hglobal hholds
  | check h =>
    cases hstep
    split
    · exact keeps_see hglobal hretry
    · rename_i hhead
      obtain rfl := not_not.mp hhead
      exact dequeue_check_keeps hglobal hholds hinv.pc
  | loadTail h =>
    cases hstep
    exact dequeue_loadTail_keeps hglobal hinv
  | readNext h t =>
    cases hstep
    exact dequeue_readNext_keeps hglobal hinv
  | protectNext h t next =>
    cases hstep
    exact dequeue_protectNext_keeps hglobal hinv
  | recheck h t next =>
    cases hstep
    split
    · exact keeps_see hglobal hretry
    · rename_i hhead
      obtain rfl := not_not.mp hhead
      cases next with
      | none =>
        exact keeps_see hglobal ⟨holds_of_pending_eq_nil hholds rfl, by simp [Pc.own], trivial⟩
      | some next => exact dequeue_recheck_keeps hglobal hinv rfl
  | helpTail t next =>
    cases hstep
    exact keeps_casTail hglobal hinv.pc.2.1.next ⟨hinv.holds, by simp [Pc.own], trivial⟩
  | readKey h next =>
    cases hstep
    obtain ⟨hguards, hpassed, hfollows, hnext⟩ := hinv.pc
    exact keeps_of_threadInv hglobal (dequeuing hholds ⟨hguards, hpassed, hfollows, hnext, rfl⟩)
  | swingHead h next data =>
    simp only [dequeueStep] at hstep
    split at hstep
    · rename_i hhead
      cases hstep
      exact keeps_unlink hglobal hinv hhead
    · cases hstep
      exact keeps_of_threadInv hglobal hretry

end

theorem keeps_clear (hglobal : GlobalInv shared ghost)
    (hholds : shared.Holds thread (mine.rlist ++ pc.pending)) (hown : pc.own = none)
    (hpc : ∀ shared ghost rlist, PcInv (n := n) thread shared ghost rlist pc) :
    Keeps thread shared ghost (shared.announce (slot thread off) none) ⟨mine, pc⟩ := by
  have hsteady : Steady thread (fun _ => False) (fun _ => True) shared.toHazards ghost.guard
      (shared.announce (slot thread off) none).toHazards
      (update ghost.guard (slot thread off) none) :=
    steady_announce id
  apply keeps_announce hglobal
  exact ⟨hholds.steady hsteady fun _ _ => trivial, by simp [hown], hpc _ _ _⟩

theorem advance_keeps (hglobal : GlobalInv shared ghost) (hinv : ThreadInv thread shared ghost ⟨mine, pc⟩)
    (hstep : advance thread shared mine pc = some (shared', priv)) :
    Keeps thread shared ghost shared' priv := by
  cases pc with
  | enqueue key node enqueuePc =>
    cases hstep
    exact enqueueStep_keeps hglobal hinv rfl
  | dequeue dequeuePc =>
    cases hstep
    exact dequeueStep_keeps hglobal hinv rfl
  | clear1 retired result =>
    cases hstep
    refine keeps_clear hglobal ?_ rfl fun _ _ _ => trivial
    cases retired <;> exact hinv.holds
  | clear0 retired result =>
    cases hstep
    cases retired with
    | none | some node => exact keeps_clear hglobal hinv.holds rfl fun _ _ _ => trivial
  | retire node result =>
    cases hstep
    exact keeps_retire hglobal hinv
  | scan scanPc back =>
    simp only [advance] at hstep
    split at hstep
    · cases hstep
      apply keeps_of_threadInv hglobal
      cases back with
      | ret result | drain => exact ⟨holds_of_pending_eq_nil hinv.holds.left rfl, by simp [Back.pc, Pc.own], trivial⟩
    · simp only [Option.map_eq_some_iff, Prod.mk.injEq] at hstep
      obtain ⟨⟨mine', scanPc'⟩, hscan, rfl, rfl⟩ := hstep
      exact keeps_scanStep hglobal hinv hscan
  | ret result =>
    cases hstep
    exact keeps_of_threadInv hglobal ⟨hinv.holds, by simp [Pc.own], trivial⟩
  | exit i =>
    simp only [advance] at hstep
    split at hstep
    · rename_i hlt
      cases hstep
      obtain ⟨off, rfl⟩ := exists_off_of_lt hlt
      exact keeps_clear hglobal hinv.holds rfl fun _ _ _ => trivial
    · cases hstep
      exact keeps_of_threadInv hglobal ⟨hinv.holds, by simp [Pc.own], trivial⟩
  | drain =>
    simp only [advance] at hstep
    split at hstep
    · cases hstep
      exact keeps_of_threadInv hglobal ⟨hinv.holds, by simp [Pc.own], (scanInv_start : ScanInv n _ _ _)⟩
    · cases hstep
      exact keeps_of_threadInv hglobal ⟨hinv.holds, by simp [Pc.own], trivial⟩
  | idle | newNode key | gone => simp [advance] at hstep

theorem code_keeps (hglobal : GlobalInv shared ghost) (hinv : ThreadInv thread shared ghost priv)
    {priv' : Priv} (hstep : code thread choice shared priv = some (shared', priv')) :
    Keeps thread shared ghost shared' priv' := by
  obtain ⟨mine, pc⟩ := priv
  simp only [code] at hstep
  split at hstep
  · exact advance_keeps hglobal hinv hstep
  · rename_i op
    cases hstep
    apply keeps_of_threadInv hglobal
    cases op with
    | enqueue key | dequeue => exact ⟨hinv.holds, by simp [start, Pc.own], trivial⟩
  · cases hstep
    exact keeps_of_threadInv hglobal ⟨hinv.holds, by simp [Pc.own], trivial⟩
  · split at hstep
    · rename_i hfree
      cases hstep
      exact keeps_newNode hglobal hinv hfree
    · simp at hstep
  · simp only [Option.map_eq_some_iff, Prod.mk.injEq] at hstep
    obtain ⟨⟨node, scanPc'⟩, hunneeded, rfl, rfl⟩ := hstep
    exact keeps_sweep hglobal hinv hunneeded
  · simp at hstep

theorem relyGuarantee : RelyGuarantee (code (n := n)) (fun _ _ _ => True) GlobalInv
    (fun thread shared ghost priv => ThreadInv thread shared ghost priv) Rely where
  step _ _ thread _ _ _ hglobal hlocal _ hcode := code_keeps hglobal (hlocal thread) hcode
  stable _ _ _ _ hglobal _ hinv hrely := hrely.threadInv hglobal hinv

variable {config : Config (Fin n) (Shared n) Priv} {dummy : NodeAddr} {initKey : NodeAddr → Int}
  {initNext : NodeAddr → Option NodeAddr}

attribute [local simp] Hazards.assign

theorem invariants (hreach : Reachable code (init dummy initKey initNext) config) :
    ∃ ghost, GlobalInv config.shared ghost ∧
      ∀ thread, ThreadInv thread config.shared ghost (config.threads thread) := by
  refine relyGuarantee.invariant hreach ⟨[], fun _ => none⟩ ⟨⟨?_, by simp, by simp [init], rfl⟩, ?_, ?_, ?_, by simp⟩ ?_
  · simp [init]
  · intro node
    by_cases heq : node = dummy
    · simp [init, heq]
    · simp [init, Hazards.fresh, heq]
  · intro node thread hunlinked
    by_cases heq : node = dummy
    · simp [init, heq] at hunlinked
    · simp [init, Hazards.fresh, heq] at hunlinked
  · exact valid_fresh.assign (by simp [Hazards.fresh, Custody.InUse])
  · exact fun _ => ⟨holds_nil, by simp [init, Pc.own], trivial⟩

/-! ### The nodes a thread uses -/

theorem GlobalInv.inPlace (hglobal : GlobalInv shared ghost) (hguards : Guards thread shared ghost off node) :
    shared.custody node ≠ .free ∧ shared.Current thread node := by
  refine ⟨fun hfree => ?_, hguards.current⟩
  have hinUse := hglobal.hazards.inUse _ node hguards.guard
  simp [hfree, Custody.InUse] at hinUse

attribute [local simp] Pc.deref

theorem ThreadInv.inPlace (hglobal : GlobalInv shared ghost)
    (hinv : ThreadInv thread shared ghost ⟨mine, pc⟩) (hderef : pc.deref = some node) :
    shared.custody node ≠ .free ∧ shared.Current thread node := by
  obtain ⟨hholds, howns, hpc⟩ := hinv
  have howned : pc.own = some node → shared.custody node ≠ .free ∧ shared.Current thread node :=
    fun hown => ⟨by simp [(howns node hown).owned], (howns node hown).current⟩
  have hheld : node ∈ pc.pending → shared.custody node ≠ .free ∧ shared.Current thread node :=
    fun hmem => ⟨by simp [hholds.unlinked node (List.mem_append_right _ hmem)],
      hholds.current node (List.mem_append_right _ hmem)⟩
  cases pc with
  | enqueue key own enqueuePc =>
    cases enqueuePc with
    | writeKey | writeNext => exact howned hderef
    | readNext t | link t => exact Option.some.inj hderef ▸ hglobal.inPlace hpc.2
    | _ => simp at hderef
  | dequeue dequeuePc =>
    cases dequeuePc with
    | readNext h t => exact Option.some.inj hderef ▸ hglobal.inPlace hpc.1
    | readKey h next => exact Option.some.inj hderef ▸ hglobal.inPlace hpc.2.2.2
    | _ => simp at hderef
  | retire retired result =>
    cases hderef
    exact hheld (by simp [Pc.pending])
  | scan scanPc back =>
    cases scanPc with
    | sweep plist tmplist =>
      cases tmplist with
      | nil => simp at hderef
      | cons cur rest =>
        cases hderef
        exact hheld (by simp [Pc.pending, ScanPc.tmplist])
    | test i plist | copy i plist => simp at hderef
  | _ => simp at hderef

theorem ThreadInv.noAba (hglobal : GlobalInv shared ghost)
    (hinv : ThreadInv thread shared ghost ⟨mine, pc⟩) (hcas : CasSucceeds shared pc)
    (hmem : node ∈ pc.casNodes) : shared.Current thread node := by
  obtain ⟨_, howns, hpc⟩ := hinv
  cases pc with
  | enqueue key own enqueuePc =>
    cases enqueuePc with
    | helpTail t next =>
      obtain ⟨_, hguards, hfollows⟩ := hpc
      subst hcas
      rcases List.mem_pair.mp hmem with rfl | rfl
      · exact hguards.current
      · exact hfollows.current hglobal.tail_linked
    | link t =>
      rcases List.mem_pair.mp hmem with rfl | rfl
      · exact hpc.2.current
      · exact (howns node rfl).current
    | swingTail t =>
      obtain ⟨hguards, hfollows⟩ := hpc
      subst hcas
      rcases List.mem_pair.mp hmem with rfl | rfl
      · exact hguards.current
      · exact hfollows.current hglobal.tail_linked
    | _ => exact hcas.elim
  | dequeue dequeuePc =>
    cases dequeuePc with
    | helpTail t next =>
      obtain ⟨hguards, _, hnext⟩ := hpc
      rcases List.mem_pair.mp hmem with rfl | rfl
      · exact hguards.current
      · exact hnext.current
    | swingHead h next data =>
      obtain ⟨hguards, _, _, hnext, _⟩ := hpc
      rcases List.mem_pair.mp hmem with rfl | rfl
      · exact hguards.current
      · exact hnext.current
    | _ => exact hcas.elim
  | _ => exact hcas.elim

/-! ### The values that are returned -/

def Returns (shared : Shared n) (pc : Pc) (shared' : Shared n) (pc' : Pc) : Prop :=
  shared'.memory.unlinkedKeys = shared.memory.unlinkedKeys ∧ (pc'.value = none ∨ pc'.value = pc.value) ∨
    ∃ data, shared'.memory.unlinkedKeys = shared.memory.unlinkedKeys ++ [data] ∧ pc'.value = some data

theorem returns_enqueueStep (key : Int) (enqueuePc : EnqueuePc) :
    Returns shared pc (enqueueStep thread shared key node enqueuePc).1 (enqueueStep thread shared key node enqueuePc).2 := by
  left
  cases enqueuePc <;> simp only [enqueueStep, Memory.casTail] <;> (repeat' split) <;> exact ⟨rfl, .inl rfl⟩

theorem returns_dequeueStep (dequeuePc : DequeuePc) :
    Returns shared pc (dequeueStep thread shared dequeuePc).1 (dequeueStep thread shared dequeuePc).2 := by
  cases dequeuePc with
  | swingHead h next data =>
    simp only [dequeueStep]
    split
    · exact .inr ⟨data, rfl, rfl⟩
    · exact .inl ⟨rfl, .inl rfl⟩
  | _ =>
    left
    dsimp only [dequeueStep, Memory.casTail]
    (repeat' split) <;> exact ⟨rfl, .inl rfl⟩

theorem returns_code (hcode : code thread choice shared priv = some (shared', priv')) :
    Returns shared priv.pc shared' priv'.pc := by
  obtain ⟨mine, pc⟩ := priv
  simp only [code] at hcode
  split at hcode
  · cases pc with
    | enqueue key node enqueuePc =>
      cases hcode
      exact returns_enqueueStep key enqueuePc
    | dequeue dequeuePc =>
      cases hcode
      exact returns_dequeueStep dequeuePc
    | scan scanPc back =>
      simp only [advance] at hcode
      split at hcode
      · cases hcode
        cases back <;> exact .inl ⟨rfl, .inr rfl⟩
      · obtain ⟨result, -, hresult⟩ := Option.map_eq_some_iff.mp hcode
        cases hresult
        cases back <;> exact .inl ⟨rfl, .inr rfl⟩
    | clear0 retired result =>
      cases hcode
      cases retired <;> exact .inl ⟨rfl, .inr rfl⟩
    | retire node result =>
      cases hcode
      refine .inl ⟨rfl, .inr ?_⟩
      unfold afterPush
      split <;> rfl
    | clear1 retired result =>
      cases hcode
      exact .inl ⟨rfl, .inr rfl⟩
    | exit i | drain =>
      simp only [advance] at hcode
      split at hcode <;> cases hcode <;> exact .inl ⟨rfl, .inl rfl⟩
    | ret result =>
      cases hcode
      exact .inl ⟨rfl, .inl rfl⟩
    | _ => cases hcode
  · cases hcode
    refine .inl ⟨rfl, .inl ?_⟩
    unfold start
    split <;> rfl
  · cases hcode
    exact .inl ⟨rfl, .inl rfl⟩
  · split at hcode <;> cases hcode
    exact .inl ⟨rfl, .inl rfl⟩
  · rename_i scanPc back
    obtain ⟨result, -, hresult⟩ := Option.map_eq_some_iff.mp hcode
    cases hresult
    cases back <;> exact .inl ⟨rfl, .inr rfl⟩
  · cases hcode

/-- `slot` says where the value that a thread is going to return stands among those that have left. -/
structure Delivers (config : Config (Fin n) (Shared n) Priv) (slot : Fin n → Nat) : Prop where
  value : ∀ thread data, (config.threads thread).pc.value = some data →
    config.shared.memory.unlinkedKeys[slot thread]? = some data
  once : ∀ thread other, thread ≠ other → (config.threads thread).pc.value ≠ none →
    (config.threads other).pc.value ≠ none → slot thread ≠ slot other

/-- No access goes through a free node, a successful compare-and-swap is about nodes that have not been
freed since the thread last saw a pointer to them, and values leave in the order in which they came. The values
that calls of `dequeue` are going to return have left, each of them for one call. -/
structure HazardSafe (config : Config (Fin n) (Shared n) Priv) : Prop where
  inPlace : ∀ thread node, (config.threads thread).pc.deref = some node →
    config.shared.custody node ≠ .free ∧ config.shared.Current thread node
  noAba : ∀ thread, CasSucceeds config.shared (config.threads thread).pc →
    ∀ node ∈ (config.threads thread).pc.casNodes, config.shared.Current thread node
  ordered : config.shared.memory.unlinkedKeys <+: config.shared.memory.linkedKeys
  delivers : ∃ slot, Delivers config slot

theorem Delivers.step {slot : Fin n → Nat} {next : Config (Fin n) (Shared n) Priv} (hdelivers : Delivers config slot)
    (hstep : config.step code thread choice = some next) : ∃ slot', Delivers next slot' := by
  obtain ⟨priv, hcode, hthreads⟩ := Config.step_eq_some_iff.mp hstep
  obtain ⟨hvalue, honce⟩ := hdelivers
  have hlt : ∀ other, (config.threads other).pc.value ≠ none → slot other < config.shared.memory.unlinkedKeys.length := by
    intro other hother
    obtain ⟨data, hdata⟩ := Option.ne_none_iff_exists'.mp hother
    exact (List.getElem?_eq_some_iff.mp (hvalue other data hdata)).1
  rcases returns_code hcode with ⟨hkeys, hsame⟩ | ⟨data, hkeys, hdata⟩
  · -- a thread that is going to return a value was so before, with the same value
    have hbefore : ∀ other, (next.threads other).pc.value ≠ none →
        (next.threads other).pc.value = (config.threads other).pc.value := by
      intro other hother
      rw [hthreads] at hother ⊢
      by_cases heq : other = thread
      · subst heq
        rw [update_self] at hother ⊢
        exact hsame.resolve_left hother
      · rw [update_of_ne heq]
    refine ⟨slot, fun other data hother => ?_, fun first second hne hfirst hsecond => ?_⟩
    · rw [hkeys]
      exact hvalue other data (hbefore other (hother ▸ nofun) ▸ hother)
    · exact honce first second hne (hbefore first hfirst ▸ hfirst) (hbefore second hsecond ▸ hsecond)
  · -- the value of the thread is the last that has left
    have hother : ∀ other, other ≠ thread → next.threads other = config.threads other := by
      intro other hne
      rw [hthreads, update_of_ne hne]
    have hself : (next.threads thread).pc.value = some data := by rw [hthreads, update_self, hdata]
    refine ⟨update slot thread config.shared.memory.unlinkedKeys.length, fun other found hfound => ?_,
      fun first second hne hfirst hsecond => ?_⟩
    · by_cases heq : other = thread
      · subst heq
        simp [hkeys, ← hfound, hself]
      · rw [hother other heq] at hfound
        rw [update_of_ne heq, hkeys, List.getElem?_append_left (hlt other (hfound ▸ nofun))]
        exact hvalue other found hfound
    · have hnew : ∀ other, other ≠ thread → (next.threads other).pc.value ≠ none →
          slot other ≠ config.shared.memory.unlinkedKeys.length :=
        fun other hne hvalue => Nat.ne_of_lt (hlt other (hother other hne ▸ hvalue))
      by_cases hf : first = thread
      · rw [hf, update_self, update_of_ne (hf ▸ hne.symm)]
        exact (hnew second (hf ▸ hne.symm) hsecond).symm
      by_cases hs : second = thread
      · rw [hs, update_self, update_of_ne hf]
        exact hnew first hf hfirst
      rw [update_of_ne hf, update_of_ne hs]
      exact honce first second hne (hother first hf ▸ hfirst) (hother second hs ▸ hsecond)

theorem queueLfSmr_hazardSafe (hreach : Reachable code (init dummy initKey initNext) config) :
    HazardSafe config := by
  obtain ⟨ghost, hglobal, hlocal⟩ := invariants hreach
  refine ⟨fun thread node hderef => ThreadInv.inPlace hglobal (hlocal thread) hderef,
    fun thread hcas node hmem => ThreadInv.noAba hglobal (hlocal thread) hcas hmem, ?_, ?_⟩
  · rw [hglobal.valid.keys]
    exact List.prefix_append _ _
  · refine hreach.invariant (fun config => ∃ slot, Delivers config slot) ⟨fun _ => 0, nofun, ?_⟩ ?_
    · exact fun _ _ _ hvalue => absurd rfl hvalue
    · rintro config next thread choice ⟨slot, hdelivers⟩ - hstep
      exact hdelivers.step hstep

/-- The first thread links 5 and has not moved the tail. The second one helps it and is about to move
the head. -/
def helpAndDequeue (first second : Fin n) : List (Fin n × Choice) :=
  (first, .call (.enqueue 5)) :: (first, .newNode 9 0 none) :: List.replicate 7 (first, .go) ++
    (second, .call .dequeue) :: List.replicate 16 (second, .go)

theorem queueLfSmr_hazardSafe_helpAndDequeue :
    ∃ config, Reachable code (init (n := 2) 0 (fun _ => 0) (fun _ => none)) config ∧
      config.shared.memory.linkedKeys = [5] ∧ (config.threads 1).pc.casNodes = [0, 9] ∧
      HazardSafe config := by
  have hrun : ((init 0 (fun _ => 0) (fun _ => none)).run code (helpAndDequeue (n := 2) 0 1)).any
      (fun config => decide (config.shared.memory.linkedKeys = [5] ∧
        (config.threads 1).pc.casNodes = [0, 9])) = true := by
    decide +kernel
  obtain ⟨config, hreach, hcheck⟩ := exists_reachable_of_run _ _ hrun
  obtain ⟨hkeys, hnodes⟩ := of_decide_eq_true hcheck
  exact ⟨config, hreach, hkeys, hnodes, queueLfSmr_hazardSafe hreach⟩

end Lfmr.HazardQueue
