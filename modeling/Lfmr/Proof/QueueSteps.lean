import Lfmr.Proof.QueueInvariant

/-!
# The accesses of the lock-free queue keep its invariant
-/

namespace Lfmr.LockFreeQueue

open Function Lfmr.Concurrency

variable {n : Nat} {shared shared' : Shared n} {ghost ghost' : Ghost n} {thread other : Fin n}
  {node t h next : NodeAddr} {key data : Int} {pc : Pc}

abbrev Keeps (thread : Fin n) := Concurrency.Keeps GlobalInv ThreadInv Rely thread

section

variable (hglobal : GlobalInv shared ghost)
include hglobal

theorem keeps_of_threadInv (hinv : ThreadInv thread shared ghost pc) : Keeps thread shared ghost shared pc :=
  ⟨ghost, hglobal, hinv, fun _ _ => .refl⟩

theorem GlobalInv.head_linked : shared.stage shared.head = .linked :=
  (hglobal.linked_iff shared.head).mp List.mem_cons_self

theorem GlobalInv.next_ne_head (hlinked : shared.stage node = .linked) : shared.next node ≠ some shared.head := by
  intro hnext
  have hmem := hglobal.linked.next_mem ((hglobal.linked_iff node).mpr hlinked) hnext
  exact (List.nodup_cons.mp hglobal.nodup).1 hmem

/-- `NULL` is read from linked nodes only: unlinked ones have a successor. -/
theorem GlobalInv.linked_of_next_eq_none (hreach : shared.Reaches thread node) (hnext : shared.next node = none) :
    shared.stage node = .linked := by
  rcases hreach.cases with hlinked | ⟨unlinker, openWhen, hstage⟩
  · exact hlinked
  · exact absurd hnext (hglobal.unlinked_next node unlinker openWhen hstage)

theorem GlobalInv.not_isUnlinked_head : ¬ IsUnlinked shared shared.head := by
  rintro ⟨unlinker, openWhen, hstage⟩
  simp [hglobal.head_linked] at hstage

theorem GlobalInv.rest_eq_nil_iff : ghost.rest = [] ↔ shared.next shared.head = none := by
  have hlinked := hglobal.linked
  constructor
  · intro hrest
    rwa [hrest, linked_nil] at hlinked
  · intro hnext
    rwa [hnext, linked_none_iff] at hlinked

end

theorem meet_of_nonempty (hnext : shared.next shared.head ≠ none) : shared.meet thread = shared := by
  simp [Shared.meet, hnext]

attribute [local simp] Shared.link

section

variable (hglobal : GlobalInv shared ghost)
include hglobal

theorem keeps_readNext (hrole : Role thread shared.toLife ghost.toAccount true none none (.pending .dequeue))
    (hreach : shared.Reaches thread h) (hseen : HeadSeen shared h) (hpassed : h ≠ t → Passed shared h) :
    Keeps thread shared ghost (shared.meet thread) (.dequeue (.checkHead h t (shared.next h))) := by
  by_cases hempty : shared.next shared.head = none
  · have hstate : shared.meet thread = { shared with metEmpty := update shared.metEmpty thread true } := by
      simp [Shared.meet, hempty]
    have hspec : queueSpec .dequeue (ghost.rest.map shared.key) = (ghost.rest.map shared.key, .empty) := by
      rw [hglobal.rest_eq_nil_iff.mpr hempty]
      rfl
    have hrun := hglobal.run.note thread .dequeue .empty hrole.phase_eq hspec
    rw [hstate]
    refine ⟨⟨ghost.toAccount.note thread .empty, ghost.rest⟩, { hglobal with run := hrun },
      ⟨hrole.note, hreach, hpassed, fun _ hsucc => hsucc, ?_⟩, ?_⟩
    · exact fun _ => ⟨by simp [Account.note], update_self _ _ _⟩
    · intro other hne
      exact ⟨.refl, .of_eq rfl rfl, .of_eq .refl rfl rfl, Account.same_note hne, update_of_ne hne _ _⟩
  · rw [meet_of_nonempty hempty]
    apply keeps_of_threadInv hglobal
    refine ⟨hrole, hreach, hpassed, fun _ hsucc => hsucc, fun hnone => ?_⟩
    have hlinked := hglobal.linked_of_next_eq_none hreach hnone
    rcases hseen with rfl | ⟨unlinker, openWhen, hstage⟩
    · exact absurd hnone hempty
    · simp [hlinked] at hstage

theorem keeps_casTail (hnext : shared.next t = some next) (hinv : ThreadInv thread (shared.casTail t next) ghost pc) :
    Keeps thread shared ghost (shared.casTail t next) pc := by
  unfold Shared.casTail at hinv ⊢
  split
  · rename_i htail
    subst htail
    rw [if_pos rfl] at hinv
    have hlinked := hglobal.life.linked_next shared.tail next hglobal.tail_linked hnext
    refine ⟨ghost, { hglobal with tail_linked := hlinked }, hinv, fun other hne => ?_⟩
    refine ⟨.refl, .of_eq rfl rfl, ⟨fun _ _ hseen => hseen, fun h _ hpassed => ?_⟩, .refl, rfl⟩
    rcases hpassed with ⟨rfl, _⟩ | hunlinked
    · refine .inl ⟨rfl, ?_⟩
      rintro rfl
      exact hglobal.next_ne_head hglobal.tail_linked hnext
    · exact .inr hunlinked
  · rename_i htail
    rw [if_neg htail] at hinv
    exact keeps_of_threadInv hglobal hinv

theorem GlobalInv.notMem_of_owned (howned : shared.stage node = .owned thread) : node ∉ shared.head :: ghost.rest := by
  rw [hglobal.linked_iff, howned]
  simp

/-- The compare-and-swap of `enqueue` finds `NULL` in the last node only. -/
theorem keeps_link (hrole : Role thread shared.toLife ghost.toAccount true (some node) none (.pending (.enqueue key)))
    (hreach : shared.Reaches thread t) (hkey : shared.key node = key) (hnode : shared.next node = none)
    (hnext : shared.next t = none) :
    Keeps thread shared ghost (shared.link t node key) (.enqueue key node (.swingTail t)) := by
  subst hkey
  have howned := hrole.own node rfl
  have hnew := hglobal.notMem_of_owned howned
  have hlinked := hglobal.linked_of_next_eq_none hreach hnext
  have hmem := (hglobal.linked_iff t).mpr hlinked
  have hlast := hglobal.linked.getLastD_eq hmem hnext
  have hne : t ≠ node := fun heq => hnew (heq ▸ hmem)
  have hnodup : (shared.head :: (ghost.rest ++ [node])).Nodup := by
    rw [← List.cons_append]
    exact List.Nodup.append hglobal.nodup (List.nodup_singleton node) (by simpa using hnew)
  have hsnoc := hglobal.linked.snoc hnodup hnode
  rw [hlast] at hsnoc
  have hrun := hglobal.run.effect thread _ hrole.phase_eq
  refine ⟨⟨ghost.toAccount.effect thread .enqueued, ghost.rest ++ [node]⟩,
    ⟨hsnoc, hnodup, ?_, ?_, ?_, ?_, ?_, ?_⟩, ⟨hrole.link.effect, ⟨?_, ?_⟩, trivial⟩, ?_⟩
  · intro other
    rw [Shared.link, Life.stage_link_eq_linked, ← hglobal.linked_iff]
    simp only [List.mem_cons, List.mem_append, List.not_mem_nil, or_false]
    tauto
  · exact Life.stage_link_eq_linked.mpr (.inr hglobal.tail_linked)
  · intro other unlinker openWhen hstage
    have hother : other ≠ node := by
      rintro rfl
      simp [Life.link] at hstage
    rw [Shared.link, Life.stage_link_of_ne hother] at hstage
    have hsome := hglobal.unlinked_next other unlinker openWhen hstage
    by_cases heq : other = t
    · simp [heq]
    · simpa [heq] using hsome
  · apply hglobal.life.link howned
    · simp [hnode]
    · intro other
      by_cases heq : other = t
      · exact .inr ⟨heq ▸ hne, by simp [heq]⟩
      · exact .inl (by simp [heq])
  · simp [hglobal.keys]
  · rw [List.map_append]
    exact hrun
  · exact Life.reaches_link hreach
  · exact update_self _ _ _
  · intro other hother
    have hlife : Life.Steady other shared.toLife (shared.link t node (shared.key node)).toLife :=
      Life.steady_link howned hother
    refine ⟨hlife, ⟨fun _ _ => rfl, ?_, fun _ _ => rfl, ?_⟩, .of_eq hlife rfl rfl, Account.same_effect hother, rfl⟩
    · intro cell succ _ hsucc
      refine (update_of_ne ?_ _ _).trans hsucc
      rintro rfl
      simp [hnext] at hsucc
    · intro cell hcell
      apply update_of_ne
      rintro rfl
      simp [hlinked] at hcell

/-- The head moves to its successor while the tail is not behind. -/
theorem keeps_unlink (hrole : Role thread shared.toLife ghost.toAccount true none none (.pending .dequeue))
    (hpassed : Passed shared h) (hnext : shared.next h = some next) (hkey : shared.key next = data)
    (hhead : shared.head = h) :
    Keeps thread shared ghost (shared.unlink thread h next data) (.dequeue (.retire h data)) := by
  subst hhead hkey
  have htail : shared.tail ≠ shared.head := by
    rcases hpassed with ⟨_, hne⟩ | hunlinked
    · exact hne
    · exact absurd hunlinked hglobal.not_isUnlinked_head
  have hlinked := hglobal.linked
  rw [hnext] at hlinked
  obtain ⟨rest, hrest⟩ : ∃ rest, ghost.rest = next :: rest := by
    cases hcase : ghost.rest with
    | nil => simp [hcase] at hlinked
    | cons first rest =>
      rw [hcase, linked_cons] at hlinked
      exact ⟨rest, by rw [Option.some.inj hlinked.1]⟩
  have hnodup := hglobal.nodup
  have hkeys := hglobal.keys
  have hrun := hglobal.run.effect thread _ hrole.phase_eq
  have hmembers := hglobal.linked_iff
  rw [hrest] at hlinked hnodup hkeys hrun
  simp only [hrest] at hmembers
  refine ⟨⟨(ghost.toAccount.toRetire thread (some shared.head)).effect thread (.value (shared.key next)),
      rest⟩, ⟨(linked_cons.mp hlinked).2, hnodup.of_cons, ?_, ?_, ?_, ?_, ?_, ?_⟩,
    ⟨(hrole.unlink hglobal.life hglobal.head_linked).effect, trivial⟩, ?_⟩
  · intro node
    by_cases heq : node = shared.head
    · subst heq
      simpa [Shared.unlink, Life.unlink] using (List.nodup_cons.mp hnodup).1
    · rw [Shared.unlink, Life.stage_unlink_of_ne heq, ← hmembers, List.mem_cons (b := shared.head)]
      simp [heq]
  · rw [Shared.unlink, Life.stage_unlink_of_ne htail]
    exact hglobal.tail_linked
  · intro node unlinker openWhen hstage
    by_cases heq : node = shared.head
    · simp [Shared.unlink, heq, hnext]
    · rw [Shared.unlink, Life.stage_unlink_of_ne heq] at hstage
      exact hglobal.unlinked_next node unlinker openWhen hstage
  · exact hglobal.life.unlink hglobal.head_linked hrole.retiring (fun _ => .inl rfl)
      fun node hnode _ => hglobal.next_ne_head hnode
  · simp [Shared.unlink, hkeys]
  · exact hrun
  · intro other hne
    have hlife : Life.Steady other shared.toLife (shared.unlink thread shared.head next (shared.key next)).toLife :=
      Life.steady_unlink hglobal.head_linked
    have hgone : IsUnlinked (shared.unlink thread shared.head next (shared.key next)) shared.head :=
      ⟨thread, shared.snapshot, by simp [Shared.unlink, Life.unlink]⟩
    refine ⟨hlife, .of_eq rfl rfl, ⟨fun h hreach hseen => ?_, fun h hreach hpassed => ?_⟩,
      (Account.same_toRetire hne).trans (Account.same_effect hne), rfl⟩
    · rcases hseen with rfl | hunlinked
      · exact .inr hgone
      · exact .inr (hunlinked.steady hlife hreach)
    · rcases hpassed with ⟨rfl, _⟩ | hunlinked
      · exact .inr hgone
      · exact .inr (hunlinked.steady hlife hreach)

structure SameExcept (node : NodeAddr) (shared shared' : Shared n) : Prop where
  head : shared'.head = shared.head
  tail : shared'.tail = shared.tail
  key : ∀ other, other ≠ node → shared'.key other = shared.key other
  next : ∀ other, other ≠ node → shared'.next other = shared.next other
  history : shared'.history = shared.history
  linkedKeys : shared'.linkedKeys = shared.linkedKeys
  unlinkedKeys : shared'.unlinkedKeys = shared.unlinkedKeys
  metEmpty : shared'.metEmpty = shared.metEmpty

theorem GlobalInv.sameExcept (hsame : SameExcept node shared shared') (hnotMem : node ∉ shared.head :: ghost.rest)
    (hlinked : ∀ other, shared'.stage other = .linked ↔ shared.stage other = .linked)
    (hunlinked : ∀ other unlinker openWhen, shared'.stage other = .unlinked unlinker openWhen →
      other ≠ node ∧ shared.stage other = .unlinked unlinker openWhen)
    (hlife : shared'.toLife.Valid shared'.next ghost.retiring) : GlobalInv shared' ghost := by
  have hne : ∀ other ∈ shared.head :: ghost.rest, other ≠ node :=
    fun other hother heq => hnotMem (heq ▸ hother)
  have hmap : ghost.rest.map shared'.key = ghost.rest.map shared.key :=
    List.map_congr_left fun other hother => hsame.key other (hne other (List.mem_cons_of_mem _ hother))
  refine ⟨?_, ?_, ?_, ?_, ?_, hlife, ?_, ?_⟩
  · rw [hsame.head, hsame.next shared.head (hne _ List.mem_cons_self)]
    apply hglobal.linked.congr
    exact fun other hother => hsame.next other (hne other (List.mem_cons_of_mem _ hother))
  · rw [hsame.head]
    exact hglobal.nodup
  · intro other
    rw [hsame.head, hlinked, hglobal.linked_iff]
  · rw [hsame.tail, hlinked]
    exact hglobal.tail_linked
  · intro other unlinker openWhen hstage
    obtain ⟨hother, hbefore⟩ := hunlinked other unlinker openWhen hstage
    rw [hsame.next other hother]
    exact hglobal.unlinked_next other unlinker openWhen hbefore
  · rw [hsame.linkedKeys, hsame.unlinkedKeys, hmap, hglobal.keys]
  · rw [hsame.history, hmap]
    exact hglobal.run

end

theorem SameExcept.rely (hsame : SameExcept node shared shared')
    (hlife : Life.Steady thread shared.toLife shared'.toLife) (hreach : ¬ shared.Reaches thread node)
    (howned : shared.stage node ≠ .owned thread) : Rely thread (shared, ghost) (shared', ghost) where
  life := hlife
  data :=
    { key := fun other hother => hsame.key other fun heq => hreach (heq ▸ hother)
      next := fun other _ hother hsucc =>
        (hsame.next other fun heq => hreach (heq ▸ hother)).trans hsucc
      own_key := fun other hother => hsame.key other fun heq => howned (heq ▸ hother)
      own_next := fun other hother => hsame.next other fun heq => howned (heq ▸ hother) }
  ends := .of_eq hlife hsame.head hsame.tail
  account := .refl
  metEmpty := congrFun hsame.metEmpty thread

variable {stage : Stage (Fin n)} {succ : Option NodeAddr}

theorem sameExcept_renew : SameExcept node shared (shared.renew node stage key succ) :=
  ⟨rfl, rfl, fun _ hne => update_of_ne hne _ _, fun _ hne => update_of_ne hne _ _, rfl, rfl, rfl, rfl⟩

section

variable (hglobal : GlobalInv shared ghost)
include hglobal

theorem GlobalInv.renew (hlinked : shared.stage node ≠ .linked)
    (hexpired : shared.Expired node) (hhidden : stage.Hidden) :
    GlobalInv (shared.renew node stage key succ) ghost := by
  apply hglobal.sameExcept sameExcept_renew
  · rwa [hglobal.linked_iff]
  · intro other
    by_cases heq : other = node
    · subst heq
      cases stage <;> simp_all [Shared.renew, Life.renew, Stage.Hidden]
    · rw [Shared.renew, Life.stage_renew_of_ne heq]
  · intro other unlinker openWhen hstage
    have hne : other ≠ node := by
      rintro rfl
      cases stage <;> simp_all [Shared.renew, Life.renew, Stage.Hidden]
    rw [Shared.renew, Life.stage_renew_of_ne hne] at hstage
    exact ⟨hne, hstage⟩
  · apply hglobal.life.renew hlinked hexpired hhidden
    exact fun other hne => update_of_ne hne _ _

theorem keeps_newNode (hfree : shared.stage node = .free)
    (hinv : ThreadInv thread (shared.renew node (.owned thread) key succ) ghost pc) :
    Keeps thread shared ghost (shared.renew node (.owned thread) key succ) pc := by
  have hexpired : shared.Expired node := fun _ => Life.not_reaches_of_free hfree
  refine ⟨ghost, hglobal.renew (by simp [hfree]) hexpired trivial, hinv, fun other _ => ?_⟩
  have hlife : Life.Steady other shared.toLife (shared.renew node (.owned thread) key succ).toLife :=
    Life.steady_renew hexpired (by simp [hfree]) (by simp [hfree])
  exact sameExcept_renew.rely hlife (hexpired other) (by simp [hfree])

theorem keeps_reclaim (hinv : ThreadInv thread shared ghost pc)
    (hexpired : shared.Expired node) (hretired : shared.retiredBy node ≠ []) :
    Keeps thread shared ghost (shared.renew node .free key succ) pc := by
  obtain ⟨unlinker, openWhen, hstage, _⟩ := (hglobal.life.retired node).resolve_left hretired
  have hrely : ∀ reader, Rely reader (shared, ghost) (shared.renew node .free key succ, ghost) := by
    intro reader
    have hlife : Life.Steady reader shared.toLife (shared.renew node .free key succ).toLife :=
      Life.steady_renew hexpired (by simp [hstage]) fun _ _ => hretired
    exact sameExcept_renew.rely hlife (hexpired reader) (by simp [hstage])
  exact ⟨ghost, hglobal.renew (by simp [hstage]) hexpired trivial,
    (hrely thread).threadInv hglobal hinv, fun other _ => hrely other⟩

theorem keeps_private (howned : shared.stage node = .owned thread)
    (hlife : shared'.toLife = shared.toLife) (hsame : SameExcept node shared shared')
    (hinv : ThreadInv thread shared' ghost pc) : Keeps thread shared ghost shared' pc := by
  have hreach : ∀ reader, ¬ shared.Reaches reader node := fun _ => Life.not_reaches_of_owned howned
  have hne : ∀ other, shared.stage other ≠ .owned thread → other ≠ node := by
    rintro other hother rfl
    exact hother howned
  refine ⟨ghost, hglobal.sameExcept hsame (hglobal.notMem_of_owned howned) ?_ ?_ ?_, hinv, ?_⟩
  · simp [hlife]
  · intro other unlinker openWhen hstage
    rw [hlife] at hstage
    exact ⟨hne other (by simp [hstage]), hstage⟩
  · rw [hlife]
    apply hglobal.life.congr_next
    rintro other (hlinked | ⟨reader, hother⟩)
    · exact hsame.next other (hne other (by simp [hlinked]))
    · exact hsame.next other fun heq => hreach reader (heq ▸ hother)
  · intro other hother
    exact hsame.rely (hlife ▸ .refl) (hreach other) (by simp [howned, hother.symm])

end

theorem rely_of_life {account : Account (Fin n) NodeAddr Op Result}
    (hlife : Life.Steady thread shared.toLife shared'.toLife)
    (hsame : shared' = { shared with toLife := shared'.toLife })
    (haccount : Account.Same thread ghost.toAccount account) :
    Rely thread (shared, ghost) (shared', ⟨account, ghost.rest⟩) := by
  rw [hsame] at hlife ⊢
  exact ⟨hlife, .of_eq rfl rfl, .of_eq hlife rfl rfl, haccount, rfl⟩

section

variable (hglobal : GlobalInv shared ghost)
include hglobal

theorem keeps_retire {isInside : Bool} {owns : Option NodeAddr} {shown : Phase Op Result}
    (hrole : Role thread shared.toLife ghost.toAccount isInside owns (some h) shown)
    (hinv : ThreadInv thread (shared.retire thread h) ⟨ghost.toAccount.toRetire thread none, ghost.rest⟩ pc) :
    Keeps thread shared ghost (shared.retire thread h) pc := by
  obtain ⟨openWhen, hstage, hretired⟩ := hrole.unretired h rfl
  refine ⟨⟨ghost.toAccount.toRetire thread none, ghost.rest⟩, { hglobal with
      life := hglobal.life.retire hstage hretired }, hinv, ?_⟩
  exact fun other hne => rely_of_life (Life.steady_retire hstage hne) rfl (Account.same_toRetire hne)

theorem keeps_enter (hinv : ThreadInv thread (shared.enter thread) ghost pc) :
    Keeps thread shared ghost (shared.enter thread) pc :=
  ⟨ghost, { hglobal with life := hglobal.life.enter thread }, hinv,
    fun _ hne => rely_of_life (Life.steady_enter hne) rfl .refl⟩

theorem keeps_exit (hinv : ThreadInv thread (shared.exit thread) ghost pc) :
    Keeps thread shared ghost (shared.exit thread) pc :=
  ⟨ghost, { hglobal with life := hglobal.life.exit thread }, hinv,
    fun _ hne => rely_of_life (Life.steady_exit hne) rfl .refl⟩

theorem keeps_call {op : Op} (hidle : ghost.phase thread = .idle)
    (hinv : ThreadInv thread (shared.call thread op) ⟨ghost.toAccount.call thread op, ghost.rest⟩ pc) :
    Keeps thread shared ghost (shared.call thread op) pc := by
  refine ⟨⟨ghost.toAccount.call thread op, ghost.rest⟩,
    { hglobal with run := hglobal.run.call thread op hidle }, hinv, fun other hne => ?_⟩
  exact ⟨.refl, .of_eq rfl rfl, .of_eq .refl rfl rfl, Account.same_call hne, update_of_ne hne _ _⟩

theorem keeps_ret {result : Result} (hrole : Role thread shared.toLife ghost.toAccount false none none (.done result)) :
    Keeps thread shared ghost (shared.log (.ret thread result)) .idle := by
  refine ⟨⟨ghost.toAccount.ret thread, ghost.rest⟩,
    { hglobal with run := hglobal.run.ret thread result hrole.progress },
    ⟨hrole.ret, trivial⟩, fun other hne => ?_⟩
  exact ⟨.refl, .of_eq rfl rfl, .of_eq .refl rfl rfl, Account.same_ret hne, rfl⟩

end

end Lfmr.LockFreeQueue
