import Lfmr.Proof.EncoreQueueInvariant

/-!
# The Encore queue is FIFO

Every access keeps the invariant, and the order of the values follows from it.
-/

namespace Lfmr.EncoreQueue

open List Function Lfmr.Concurrency

variable {n : Nat} {shared shared' : Shared n} {ghost : Ghost n} {thread other : Fin n}
  {node : NodeAddr} {pc : Pc}

def Ghost.move (ghost : Ghost n) (thread : Fin n) (pc : Pc) : Ghost n :=
  { ghost with
    own := Function.update ghost.own thread pc.own
    roots := Function.update ghost.roots thread pc.roots }

abbrev Keeps (thread : Fin n) := Concurrency.Keeps GlobalInv ThreadInv Rely thread

theorem keeps_of_eq {result : Shared n × Pc} (hresult : result = (shared', pc))
    (hkeeps : Keeps thread shared ghost result.1 result.2) : Keeps thread shared ghost shared' pc := by
  rwa [hresult] at hkeeps

/-! ### Accesses after which a thread owns what it owned or less -/

def Releases (ghost : Ghost n) (thread : Fin n) (pc : Pc) : Prop :=
  ∀ node, pc.own = some node → ghost.own thread = some node

theorem own_of_move (hreleases : Releases ghost thread pc)
    (hown : (ghost.move thread pc).own other = some node) : ghost.own other = some node := by
  by_cases heq : other = thread
  · subst heq
    exact hreleases node (by simpa [Ghost.move] using hown)
  · simpa [Ghost.move, heq] using hown

theorem GlobalInv.move (hglobal : GlobalInv shared ghost) (hreleases : Releases ghost thread pc) :
    GlobalInv shared (ghost.move thread pc) where
  linked := hglobal.linked
  nodup := hglobal.nodup
  last := hglobal.last
  values := hglobal.values
  own_notMem _ _ hown := hglobal.own_notMem _ _ (own_of_move hreleases hown)
  own_inj _ _ _ hown hother :=
    hglobal.own_inj _ _ _ (own_of_move hreleases hown) (own_of_move hreleases hother)

theorem ThreadInv.move (hinv : PcInv thread shared ghost pc) : ThreadInv thread shared (ghost.move thread pc) pc where
  own := update_self ..
  roots := update_self ..
  pcInv := by
    cases pc with
    | enqueue x node enqueuePc => cases enqueuePc <;> exact hinv
    | dequeue dequeuePc => cases dequeuePc <;> exact hinv
    | _ => exact hinv

theorem Rely.move {state : Shared n × Ghost n} (hne : other ≠ thread)
    (hrely : Rely other state (shared, ghost)) : Rely other state (shared, ghost.move thread pc) where
  own := (update_of_ne hne _ _).trans hrely.own
  roots := (update_of_ne hne _ _).trans hrely.roots
  chain := hrely.chain
  seen := hrely.seen
  elem := hrely.elem
  next := hrely.next
  own_elem := hrely.own_elem
  own_next := hrely.own_next
  taken := hrely.taken
  slot := hrely.slot
  metEmpty := hrely.metEmpty

/-- It is enough to account for the memory: the thread's own entries follow its place in the code. -/
theorem keeps_of_ghost (ghost' : Ghost n) (hglobal : GlobalInv shared' ghost')
    (hreleases : Releases ghost' thread pc) (hinv : PcInv thread shared' ghost' pc)
    (hrely : ∀ other, other ≠ thread → Rely other (shared, ghost) (shared', ghost')) :
    Keeps thread shared ghost shared' pc :=
  ⟨ghost'.move thread pc, hglobal.move hreleases, .move hinv, fun other hne => (hrely other hne).move hne⟩

theorem keeps_local (hglobal : GlobalInv shared ghost) (hreleases : Releases ghost thread pc)
    (hinv : PcInv thread shared ghost pc) : Keeps thread shared ghost shared pc :=
  keeps_of_ghost ghost hglobal hreleases hinv fun _ _ => .refl

theorem releases_none (hnone : pc.own = none) : Releases ghost thread pc := by
  intro node hown
  rw [hnone] at hown
  cases hown

theorem releases_own (hown : ghost.own thread = some node) (heq : pc.own = some node) :
    Releases ghost thread pc := fun _ h => hown.trans (heq.symm.trans h)

/-! ### Accesses that change the memory -/

section

variable (hglobal : GlobalInv shared ghost)
include hglobal

theorem keeps_writeElem {x : Int} (hown : ghost.own thread = some node) (hnext : shared.next node = none) :
    Keeps thread shared ghost { shared with elem := update shared.elem node x } (.enqueue x node .speculateLast) := by
  have hnode := hglobal.own_notMem thread node hown
  have helem : ∀ other ∈ chain shared ghost, update shared.elem node x other = shared.elem other :=
    fun other hmem => update_of_ne (ne_of_mem_of_not_mem hmem hnode) _ _
  have hvalues : shared.tried = shared.taken ++ ghost.rest.map (update shared.elem node x) := by
    refine hglobal.values.trans (congrArg _ (map_congr_left fun other hmem => ?_))
    exact (helem other (mem_append_right _ (mem_cons_of_mem _ hmem))).symm
  have hglobal' : GlobalInv { shared with elem := update shared.elem node x } ghost :=
    { hglobal with values := hvalues }
  apply keeps_of_ghost ghost hglobal' (releases_own hown rfl)
  · exact ⟨update_self .., hnext⟩
  · intro other hne
    refine ⟨rfl, rfl, fun _ _ h => h, fun _ _ h => h, fun target _ hmem => helem target hmem,
      fun _ _ _ _ h => h, fun target htarget => ?_, fun _ _ => rfl, prefix_refl _, rfl, rfl⟩
    refine update_of_ne (fun heq => hne ?_) _ _
    exact hglobal.own_inj other thread node (heq ▸ htarget) hown

section

variable {x : Int} {oldLast : NodeAddr} (hown : ghost.own thread = some node) (hmem : oldLast ∈ chain shared ghost)
  (hready : Ready shared x node) (hnext : shared.next oldLast = none)
include hown hmem hready hnext

theorem GlobalInv.link : GlobalInv (shared.link oldLast node x)
      { ghost with rest := ghost.rest ++ [node], own := update ghost.own thread none } := by
  have hnode := hglobal.own_notMem thread node hown
  have hchain : chain (shared.link oldLast node x)
      { ghost with rest := ghost.rest ++ [node], own := update ghost.own thread none } =
        chain shared ghost ++ [node] := by simp [chain, Shared.link]
  have hnodup : (chain shared ghost ++ [node]).Nodup := by
    rw [← concat_eq_append]
    exact hglobal.nodup.concat hnode
  constructor
  case linked =>
    obtain ⟨front, hfront⟩ := hglobal.chain_eq hmem hnext
    have hlinked := hglobal.linked
    rw [hfront] at hlinked hnodup
    have hlinked' := hlinked.concat (by simpa using hnodup) hready.2
    rw [hchain, hfront, append_assoc]
    exact hlinked'.start_eq ▸ hlinked'
  case nodup => rwa [hchain]
  case last =>
    rw [hchain]
    exact mem_append_left _ hglobal.last
  case values =>
    change shared.tried ++ [x] = shared.taken ++ (ghost.rest ++ [node]).map shared.elem
    rw [hglobal.values, map_append, append_assoc, map_singleton, hready.1]
  case own_notMem =>
    intro other target hother
    have hne : other ≠ thread := fun heq => by simp [heq] at hother
    simp only [update_of_ne hne] at hother
    rw [hchain, mem_append, mem_singleton, not_or]
    refine ⟨hglobal.own_notMem other target hother, fun heq => hne ?_⟩
    exact hglobal.own_inj other thread node (heq ▸ hother) hown
  case own_inj =>
    intro one other target hone hother
    have hne : one ≠ thread := fun heq => by simp [heq] at hone
    have hne' : other ≠ thread := fun heq => by simp [heq] at hother
    simp only [update_of_ne hne, update_of_ne hne'] at hone hother
    exact hglobal.own_inj one other target hone hother

theorem keeps_link :
    Keeps thread shared ghost (shared.link oldLast node x) (.enqueue x node (.catRead oldLast true)) := by
  apply keeps_of_ghost _ (hglobal.link hown hmem hready hnext) (releases_none rfl)
  · refine ⟨?_, fun h => by cases h⟩
    simpa [chain, Shared.link, or_assoc] using Or.inl (mem_append.mp hmem)
  · intro other hne
    constructor
    case own => exact update_of_ne hne _ _
    case roots => rfl
    case chain =>
      intro target _ htarget
      simpa [chain, Shared.link, or_assoc] using Or.inl (mem_append.mp htarget)
    case seen => exact fun _ _ htarget => htarget
    case elem => exact fun _ _ _ => rfl
    case next =>
      intro source _ _ target htarget
      have hsource : source ≠ oldLast := fun heq => by simp [heq, hnext] at htarget
      exact (update_of_ne hsource _ _).trans htarget
    case own_elem => exact fun _ _ => rfl
    case own_next =>
      intro target htarget
      have hne := ne_of_mem_of_not_mem hmem (hglobal.own_notMem other target htarget)
      exact update_of_ne hne.symm _ _
    case taken => exact prefix_refl _
    case slot => rfl
    case metEmpty => rfl

end

theorem keeps_casLast {x : Int} {oldLast next : NodeAddr} {done : Bool}
    (hmem : next ∈ chain shared ghost) (hown : done = false → ghost.own thread = some node)
    (hready : done = false → Ready shared x node) :
    Keeps thread shared ghost (shared.casLast oldLast next) (afterCat x node done) := by
  have hglobal' : GlobalInv { shared with last := next } ghost := { hglobal with last := hmem }
  have hrely : ∀ other, Rely other (shared, ghost) ({ shared with last := next }, ghost) :=
    fun _ => { Rely.refl with }
  unfold Shared.casLast
  cases done with
  | true =>
    split
    · exact keeps_of_ghost ghost hglobal' (releases_none rfl) trivial fun other _ => hrely other
    · exact keeps_local hglobal (releases_none rfl) trivial
  | false =>
    split
    · exact keeps_of_ghost ghost hglobal' (releases_own (hown rfl) rfl) (hready rfl) fun other _ => hrely other
    · exact keeps_local hglobal (releases_own (hown rfl) rfl) (hready rfl)

theorem keeps_unlink {next : NodeAddr} (hnext : shared.next shared.first = some next) :
    Keeps thread shared ghost (shared.unlink thread next) (.dequeue (.readElem next)) := by
  rw [hglobal.next_first, head?_eq_some_iff] at hnext
  obtain ⟨rest, hrest⟩ := hnext
  have hchain : chain (shared.unlink thread next) { ghost with before := seen shared ghost, rest := rest } =
      chain shared ghost := by simp [chain, seen, Shared.unlink, hrest]
  have hvalues := hglobal.values
  rw [hrest] at hvalues
  apply keeps_of_ghost { ghost with before := seen shared ghost, rest := rest } _ (releases_none rfl)
  · refine ⟨?_, ?_⟩
    · rw [hchain]
      simp [chain, hrest]
    · simp [Shared.unlink]
  · intro other hne
    refine ⟨rfl, rfl, fun _ _ hmem => hchain ▸ hmem, fun _ _ hmem => mem_append_left _ hmem,
      fun _ _ _ => rfl, fun _ _ _ _ h => h, fun _ _ => rfl, fun _ _ => rfl, prefix_append _ _,
      update_of_ne hne _ _, rfl⟩
  · constructor
    case linked => exact hchain ▸ hglobal.linked
    case nodup => exact hchain ▸ hglobal.nodup
    case last => exact hchain ▸ hglobal.last
    case values => simpa [Shared.unlink] using hvalues
    case own_notMem => exact hchain ▸ hglobal.own_notMem
    case own_inj => exact hglobal.own_inj

theorem keeps_note {met : Bool} (hnone : pc.own = none)
    (hinv : PcInv thread { shared with metEmpty := update shared.metEmpty thread met } ghost pc) :
    Keeps thread shared ghost { shared with metEmpty := update shared.metEmpty thread met } pc :=
  keeps_of_ghost ghost { hglobal with } (releases_none hnone) hinv
    fun _ hne => { Rely.refl with metEmpty := update_of_ne hne _ _ }

theorem keeps_meet_written {oldFirst : NodeAddr} (hmem : oldFirst ∈ seen shared ghost) :
    Keeps thread shared ghost (shared.meet thread) (.dequeue (.speculateLast oldFirst)) := by
  unfold Shared.meet
  split
  · exact keeps_note hglobal rfl hmem
  · exact keeps_local hglobal (releases_none rfl) hmem

theorem keeps_meet_unwritten {oldFirst : NodeAddr}
    (hmem : oldFirst ∈ seen shared ghost) (hnext : shared.next oldFirst = none) :
    Keeps thread shared ghost (shared.meet thread) (.ret .empty) := by
  have hvalues := hglobal.values
  rw [hglobal.rest_eq_nil hmem hnext, map_nil, append_nil] at hvalues
  rw [Shared.meet, if_pos hvalues]
  exact keeps_note hglobal rfl (update_self ..)

end

section NewNode

variable {config : Config (Fin n) (Shared n) Pc}
  (hlocal : ∀ other, ThreadInv other config.shared ghost (config.threads other))
include hlocal

theorem referenced_of_mem_roots (hmem : node ∈ ghost.roots other) : Referenced config node :=
  .root ((hlocal other).roots ▸ hmem)

theorem referenced_of_own (hown : ghost.own other = some node) : Referenced config node :=
  .root (Pc.mem_roots_of_own ((hlocal other).own ▸ hown))

theorem keeps_newNode {x : Int} (hglobal : GlobalInv config.shared ghost) (hnode : ¬ Referenced config node) :
    Keeps thread config.shared ghost (config.shared.allocate node) (.enqueue x node .writeElem) := by
  obtain ⟨dropped, kept, hbefore, hfresh, hdropped⟩ := hglobal.exists_cut hnode
  have hchain : chain config.shared ghost = dropped ++ (kept ++ config.shared.first :: ghost.rest) := by
    simp [chain, hbefore]
  have hkept : ∀ target, Referenced config target → target ∈ chain config.shared ghost →
      target ∈ kept ++ config.shared.first :: ghost.rest := by
    intro target htarget hmem
    rw [hchain] at hmem
    exact (mem_append.mp hmem).resolve_left (hdropped target htarget)
  have hne : ∀ target, Referenced config target → target ≠ node :=
    fun target htarget heq => hnode (heq ▸ htarget)
  apply keeps_of_ghost { ghost with before := kept, own := update ghost.own thread (some node) }
  case hglobal =>
    constructor
    case linked =>
      have hlinked := hglobal.linked
      rw [hchain] at hlinked
      exact hlinked.suffix.congr fun target hmem =>
        update_of_ne (ne_of_mem_of_not_mem hmem hfresh) _ _
    case nodup =>
      have hnodup := hglobal.nodup
      rw [hchain] at hnodup
      exact (nodup_append.mp hnodup).2.1
    case last => exact hkept _ .last hglobal.last
    case values =>
      refine hglobal.values.trans (congrArg _ (map_congr_left fun target hmem => ?_))
      have hne' := ne_of_mem_of_not_mem (mem_append_right kept (mem_cons_of_mem _ hmem)) hfresh
      exact (update_of_ne hne' _ _).symm
    case own_notMem =>
      intro other target (hown : update ghost.own thread (some node) other = some target)
      by_cases heq : other = thread
      · subst heq
        rw [update_self, Option.some.injEq] at hown
        exact hown ▸ hfresh
      · rw [update_of_ne heq] at hown
        intro hmem
        refine hglobal.own_notMem other target hown ?_
        rw [hchain]
        exact mem_append_right _ hmem
    case own_inj =>
      intro one other target (hone : update ghost.own thread (some node) one = some target)
        (hother : update ghost.own thread (some node) other = some target)
      by_cases hthread : one = thread <;> by_cases hthread' : other = thread
      · exact hthread.trans hthread'.symm
      · subst hthread
        rw [update_self, Option.some.injEq] at hone
        rw [update_of_ne hthread'] at hother
        exact absurd hone.symm (hne target (referenced_of_own hlocal hother))
      · subst hthread'
        rw [update_self, Option.some.injEq] at hother
        rw [update_of_ne hthread] at hone
        exact absurd hother.symm (hne target (referenced_of_own hlocal hone))
      · rw [update_of_ne hthread] at hone
        rw [update_of_ne hthread'] at hother
        exact hglobal.own_inj one other target hone hother
  case hreleases => exact releases_own (update_self ..) rfl
  case hinv => exact update_self ..
  case hrely =>
    intro other hother
    constructor
    case own => exact update_of_ne hother _ _
    case roots => rfl
    case chain => exact fun target hmem => hkept target (referenced_of_mem_roots hlocal hmem)
    case seen =>
      intro target hmem hseen
      have htarget := hdropped target (referenced_of_mem_roots hlocal hmem)
      simpa [seen, hbefore, htarget, Shared.allocate] using hseen
    case elem =>
      exact fun target hmem _ => update_of_ne (hne target (referenced_of_mem_roots hlocal hmem)) _ _
    case next =>
      intro source hmem _ target htarget
      exact (update_of_ne (hne source (referenced_of_mem_roots hlocal hmem)) _ _).trans htarget
    case own_elem =>
      exact fun target hown => update_of_ne (hne target (referenced_of_own hlocal hown)) _ _
    case own_next =>
      exact fun target hown => update_of_ne (hne target (referenced_of_own hlocal hown)) _ _
    case taken => exact prefix_refl _
    case slot => rfl
    case metEmpty => rfl

end NewNode

theorem enqueueStep_keeps {x : Int} {enqueuePc : EnqueuePc} (hglobal : GlobalInv shared ghost)
    (hinv : ThreadInv thread shared ghost (.enqueue x node enqueuePc)) :
    Keeps thread shared ghost (enqueueStep shared x node enqueuePc).1 (enqueueStep shared x node enqueuePc).2 := by
  have hown := hinv.own
  have hpc := hinv.pcInv
  cases enqueuePc with
  | writeElem => exact keeps_writeElem hglobal hown hpc
  | speculateLast => exact keeps_local hglobal (releases_own hown rfl) ⟨hglobal.last, hpc⟩
  | tryRead oldLast =>
    simp only [enqueueStep]
    split
    · exact keeps_local hglobal (releases_own hown rfl) hpc
    · exact keeps_local hglobal (releases_own hown rfl) ⟨hpc.1, fun _ => hpc.2⟩
  | tryCas oldLast =>
    simp only [enqueueStep]
    split
    · next hnext => exact keeps_link hglobal hown hpc.1 hpc.2 hnext
    · exact keeps_local hglobal (releases_own hown rfl) ⟨hpc.1, fun _ => hpc.2⟩
  | catRead oldLast done =>
    simp only [enqueueStep]
    split
    · rename_i next hnext
      refine keeps_local hglobal ?_ ⟨hglobal.next_mem hpc.1 hnext, hpc.2⟩
      cases done with
      | true => exact releases_none rfl
      | false => exact releases_own hown rfl
    · cases done with
      | true => exact keeps_local hglobal (releases_none rfl) trivial
      | false => exact keeps_local hglobal (releases_own hown rfl) (hpc.2 rfl)
  | catCas oldLast next done =>
    refine keeps_casLast hglobal hpc.1 (fun hdone => ?_) hpc.2
    subst hdone
    exact hown

theorem dequeueStep_keeps {dequeuePc : DequeuePc} (hglobal : GlobalInv shared ghost)
    (hinv : ThreadInv thread shared ghost (.dequeue dequeuePc)) :
    Keeps thread shared ghost (dequeueStep thread shared dequeuePc).1 (dequeueStep thread shared dequeuePc).2 := by
  have hpc := hinv.pcInv
  cases dequeuePc with
  | speculateFirst =>
    exact keeps_local hglobal (releases_none rfl) (mem_append_right _ mem_cons_self)
  | isStable oldFirst =>
    simp only [dequeueStep]
    split
    · exact keeps_meet_written hglobal hpc
    · next hnext => exact keeps_meet_unwritten hglobal hpc hnext
  | speculateLast oldFirst => exact keeps_local hglobal (releases_none rfl) hpc
  | catRead oldFirst oldLast =>
    simp only [dequeueStep]
    split
    · next next hnext => exact keeps_local hglobal (releases_none rfl) ⟨hpc, hnext⟩
    · exact keeps_local hglobal (releases_none rfl) trivial
  | catCas oldFirst oldLast next =>
    simp only [dequeueStep]
    split
    · next hfirst => exact keeps_unlink hglobal (hfirst ▸ hpc.2)
    · exact keeps_local hglobal (releases_none rfl) trivial
  | readElem next => exact keeps_local hglobal (releases_none rfl) hpc.2

theorem code_keeps {config : Config (Fin n) (Shared n) Pc} {choice : Choice} (hglobal : GlobalInv config.shared ghost)
    (hlocal : ∀ other, ThreadInv other config.shared ghost (config.threads other))
    (hallowed : NoReuse config thread choice)
    (hcode : code thread choice config.shared (config.threads thread) = some (shared', pc)) :
    Keeps thread config.shared ghost shared' pc := by
  have hinv := hlocal thread
  unfold code at hcode
  split at hcode
  · rename_i op _
    refine keeps_of_eq (Option.some.inj hcode) ?_
    cases op with
    | enqueue x => exact keeps_local hglobal (releases_none rfl) trivial
    | dequeue => exact keeps_note hglobal rfl trivial
  · cases hcode
    exact keeps_newNode hlocal hglobal hallowed
  · rename_i hpc
    rw [hpc] at hinv
    exact keeps_of_eq (Option.some.inj hcode) (enqueueStep_keeps hglobal hinv)
  · rename_i hpc
    rw [hpc] at hinv
    exact keeps_of_eq (Option.some.inj hcode) (dequeueStep_keeps hglobal hinv)
  · cases hcode
    exact keeps_local hglobal (releases_none rfl) trivial
  · cases hcode

theorem relyGuarantee : RelyGuarantee (code (n := n)) NoReuse GlobalInv ThreadInv Rely where
  step _ _ _ _ _ _ hglobal hlocal hallowed hcode := code_keeps hglobal hlocal hallowed hcode
  stable _ _ _ _ _ _ hlocal hrely := hrely.threadInv hlocal

variable {dummy : NodeAddr} {elem : NodeAddr → Int} {next : NodeAddr → Option NodeAddr}
  {config : Config (Fin n) (Shared n) Pc}

def Ghost.init : Ghost n :=
  ⟨[], [], fun _ => none, fun _ => []⟩

theorem globalInv_init : GlobalInv (init (n := n) dummy elem next).shared Ghost.init where
  linked := ⟨rfl, update_self ..⟩
  nodup := nodup_singleton dummy
  last := mem_cons_self
  values := rfl
  own_notMem _ _ hown := by cases hown
  own_inj _ _ _ hown := by cases hown

theorem queue_fifo (hreach : ReachableVia code NoReuse (init dummy elem next) config) : Fifo config := by
  obtain ⟨ghost, hglobal, hlocal⟩ :=
    relyGuarantee.invariant hreach Ghost.init globalInv_init fun _ => ⟨rfl, rfl, trivial⟩
  refine ⟨⟨_, hglobal.values.symm⟩, fun thread value hret => ?_, fun thread hret => ?_⟩ <;>
    · have hpc := (hlocal thread).pcInv
      rw [hret] at hpc
      exact hpc

/-! ### A run in which `first` overtakes `last` -/

def emptyQueue : Config (Fin n) (Shared n) Pc := init 0 (fun _ => 0) fun _ => none

def enqueueCalled (thread : Fin n) : Config (Fin n) (Shared n) Pc where
  shared := emptyQueue.shared
  threads := Function.update emptyQueue.threads thread (.newNode 5)

def nodeAllocated (thread : Fin n) : Config (Fin n) (Shared n) Pc where
  shared := emptyQueue.shared.allocate 9
  threads := Function.update (enqueueCalled thread).threads thread (.enqueue 5 9 .writeElem)

theorem eq_zero_of_referenced (hnode : Referenced (enqueueCalled thread) node) : node = 0 := by
  induction hnode with
  | first => rfl
  | last => rfl
  | @root other node hmem =>
    have hnone : ((enqueueCalled thread).threads other).roots = [] := by
      by_cases heq : other = thread
      · simp [enqueueCalled, heq, Pc.roots]
      · simp [enqueueCalled, heq, emptyQueue, init, Pc.roots]
    simp [hnone] at hmem
  | next _ hnext => simp [enqueueCalled, emptyQueue, init] at hnext

theorem reachable_nodeAllocated : ReachableVia code NoReuse emptyQueue (nodeAllocated thread) := by
  have hcall : NoReuse emptyQueue thread (.call (.enqueue 5)) := trivial
  have hcalled : emptyQueue.step code thread (.call (.enqueue 5)) = some (enqueueCalled thread) := rfl
  have hnew : NoReuse (enqueueCalled thread) thread (.newNode 9) := fun hnode =>
    absurd (eq_zero_of_referenced hnode) (by decide)
  refine (ReachableVia.refl.step hcall hcalled).step hnew ?_
  simp [Config.step, code, enqueueCalled, nodeAllocated]

/-- The first thread links 5 and does not move `last`. The second one dequeues 5, and then finds the queue
empty. -/
def overtake (first second : Fin n) : List (Fin n × Choice) :=
  List.replicate 4 (first, .go) ++ (second, .call .dequeue) :: List.replicate 7 (second, .go) ++
    (second, .call .dequeue) :: List.replicate 2 (second, .go)

theorem queue_fifo_overtake :
    ∃ config : Config (Fin 2) (Shared 2) Pc, ReachableVia code NoReuse emptyQueue config ∧
      config.shared.last = 0 ∧ config.shared.taken = [5] ∧ config.threads 1 = .ret .empty ∧
      Fifo config := by
  have hrun : ((nodeAllocated 0).runVia code (fun _ _ choice => choice = .go ∨ choice = .call .dequeue)
      (overtake 0 1)).any (fun config => decide (config.shared.last = 0 ∧ config.shared.taken = [5] ∧
        config.threads (1 : Fin 2) = .ret .empty)) = true := by
    decide +kernel
  obtain ⟨config, hreach, hcheck⟩ := exists_reachableVia_of_run _ _ hrun
  have hreach' : ReachableVia code NoReuse emptyQueue config := by
    refine reachable_nodeAllocated.trans (hreach.mono fun _ _ choice hchoice => ?_)
    rcases hchoice with rfl | rfl <;> trivial
  obtain ⟨hlast, htaken, hret⟩ := of_decide_eq_true hcheck
  exact ⟨config, hreach', hlast, htaken, hret, queue_fifo hreach'⟩

end Lfmr.EncoreQueue
