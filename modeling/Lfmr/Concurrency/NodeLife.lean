import Lfmr.Concurrency.Sections

/-!
# The life of the nodes of a linked structure

A node is allocated by a thread, linked into a structure that all threads walk inside critical
sections, unlinked again, retired and at last freed. This follows each node through these stages, and
keeps for an unlinked one the sections that were open when it was unlinked: they are the ones that
could have reached it.

If no node is freed while such a section is open, whatever a thread has walked to in its section is
still in place: `Life.Valid.reaches_next` for its steps, `Steady` for what others do meanwhile.
-/

namespace Lfmr.Concurrency

open Function

variable {Tid Node : Type}

inductive Stage (Tid : Type)
  | free
  | owned (thread : Tid)
  | linked
  | unlinked (thread : Tid) (openWhen : Tid → Option Nat)

def Stage.ReachedIn (thread : Tid) (k : Nat) : Stage Tid → Prop
  | .linked => True
  | .unlinked _ openWhen => openWhen thread = some k
  | _ => False

instance (thread : Tid) (k : Nat) : DecidablePred (Stage.ReachedIn thread k)
  | .linked => .isTrue trivial
  | .unlinked _ openWhen => inferInstanceAs (Decidable (openWhen thread = some k))
  | .free | .owned _ => .isFalse id

def Stage.Hidden : Stage Tid → Prop
  | .free => True
  | .owned _ => True
  | _ => False

structure Life (Tid Node : Type) extends Sections Tid where
  stage : Node → Stage Tid
  retiredBy : Node → List Tid

namespace Life

def fresh : Life Tid Node :=
  { Sections.fresh with stage := fun _ => .free, retiredBy := fun _ => [] }

def Reaches (life : Life Tid Node) (thread : Tid) (node : Node) : Prop :=
  life.inside thread = true ∧ (life.stage node).ReachedIn thread (life.entered thread)

instance (life : Life Tid Node) (thread : Tid) (node : Node) :
    Decidable (life.Reaches thread node) :=
  inferInstanceAs (Decidable (_ ∧ _))

def Expired (life : Life Tid Node) (node : Node) : Prop :=
  ∀ thread, ¬ life.Reaches thread node

section Sections

variable [DecidableEq Tid]

def enter (life : Life Tid Node) (thread : Tid) : Life Tid Node :=
  { life with toSections := life.toSections.enter thread }

def exit (life : Life Tid Node) (thread : Tid) : Life Tid Node :=
  { life with toSections := life.toSections.exit thread }

end Sections

section Nodes

variable [DecidableEq Node]

def renew (life : Life Tid Node) (node : Node) (stage : Stage Tid) : Life Tid Node :=
  { life with
    stage := Function.update life.stage node stage
    retiredBy := Function.update life.retiredBy node [] }

def link (life : Life Tid Node) (node : Node) : Life Tid Node :=
  { life with stage := Function.update life.stage node .linked }

def unlink (life : Life Tid Node) (thread : Tid) (node : Node) : Life Tid Node :=
  { life with stage := Function.update life.stage node (.unlinked thread life.snapshot) }

def retire (life : Life Tid Node) (thread : Tid) (node : Node) : Life Tid Node :=
  { life with
    retiredBy := Function.update life.retiredBy node (life.retiredBy node ++ [thread]) }

end Nodes

/-- The links `next` lead from nodes in place to nodes in place, and an unlinked node is retired once,
by the thread that unlinked it; `retiring` says which node a thread has yet to retire. -/
structure Valid (life : Life Tid Node) (next : Node → Option Node) (retiring : Tid → Option Node) :
    Prop where
  linked_next : ∀ node target, life.stage node = .linked → next node = some target →
    life.stage target = .linked
  reaches_next : ∀ thread node target, life.Reaches thread node → next node = some target →
    life.Reaches thread target
  recorded : ∀ node unlinker openWhen, life.stage node = .unlinked unlinker openWhen →
    ∀ thread k, openWhen thread = some k → k ≤ life.entered thread
  retired : ∀ node, life.retiredBy node = [] ∨
    ∃ unlinker openWhen, life.stage node = .unlinked unlinker openWhen ∧
      life.retiredBy node = [unlinker]
  pending : ∀ node unlinker openWhen, life.stage node = .unlinked unlinker openWhen →
    life.retiredBy node = [] → retiring unlinker = some node

structure Steady (thread : Tid) (life life' : Life Tid Node) : Prop where
  inside : life'.inside thread = life.inside thread
  entered : life'.entered thread = life.entered thread
  reaches : ∀ node, life.Reaches thread node → life'.Reaches thread node
  unlinked : ∀ node unlinker openWhen, life.Reaches thread node →
    life.stage node = .unlinked unlinker openWhen → life'.stage node = .unlinked unlinker openWhen
  owned : ∀ node, life.stage node = .owned thread → life'.stage node = .owned thread
  retiring : ∀ node openWhen, life.stage node = .unlinked thread openWhen →
    life.retiredBy node = [] →
    life'.stage node = .unlinked thread openWhen ∧ life'.retiredBy node = []

theorem Steady.refl {thread : Tid} {life : Life Tid Node} : Steady thread life life :=
  ⟨rfl, rfl, fun _ h => h, fun _ _ _ _ h => h, fun _ h => h, fun _ _ hstage hretired => ⟨hstage, hretired⟩⟩

variable {life life' : Life Tid Node} {next next' : Node → Option Node}
  {retiring : Tid → Option Node} {thread other : Tid} {node : Node}

theorem reaches_of_linked (hinside : life.inside thread = true) (hlinked : life.stage node = .linked) :
    life.Reaches thread node := by
  refine ⟨hinside, ?_⟩
  rw [hlinked]
  trivial

attribute [local simp] Stage.ReachedIn

theorem Reaches.ne_free (hreaches : life.Reaches thread node) : life.stage node ≠ .free := by
  intro hfree
  simp [Reaches, hfree] at hreaches

theorem Reaches.cases (hreach : life.Reaches thread node) : life.stage node = .linked ∨
      ∃ unlinker openWhen, life.stage node = .unlinked unlinker openWhen := by
  have hstage := hreach.2
  cases hcase : life.stage node with
  | linked => exact .inl rfl
  | unlinked unlinker openWhen => exact .inr ⟨unlinker, openWhen, rfl⟩
  | free | owned owner => simp [hcase] at hstage

theorem not_reaches_of_free (hfree : life.stage node = .free) : ¬ life.Reaches thread node := by
  intro hreach
  simp [Reaches, hfree] at hreach

theorem not_reaches_of_owned (howned : life.stage node = .owned other) : ¬ life.Reaches thread node := by
  intro hreach
  simp [Reaches, howned] at hreach

theorem Valid.congr_next (hvalid : life.Valid next retiring)
    (hsame : ∀ node, (life.stage node = .linked ∨ ∃ thread, life.Reaches thread node) →
      next' node = next node) : life.Valid next' retiring where
  linked_next node target hlinked hnext :=
    hvalid.linked_next node target hlinked (hsame node (.inl hlinked) ▸ hnext)
  reaches_next thread node target hreach hnext :=
    hvalid.reaches_next thread node target hreach (hsame node (.inr ⟨thread, hreach⟩) ▸ hnext)
  recorded := hvalid.recorded
  retired := hvalid.retired
  pending := hvalid.pending

section Sections

variable [DecidableEq Tid]

theorem reaches_enter_of_ne (hne : other ≠ thread) :
    (life.enter thread).Reaches other node ↔ life.Reaches other node := by
  simp [Reaches, enter, Sections.enter, hne]

theorem reaches_exit_of_ne (hne : other ≠ thread) :
    (life.exit thread).Reaches other node ↔ life.Reaches other node := by
  simp [Reaches, exit, Sections.exit, hne]

/-- A thread that has just entered reaches the linked nodes only: the sections recorded for the
unlinked ones are older than its own. -/
theorem Valid.linked_of_reaches_enter (hvalid : life.Valid next retiring)
    (hreach : (life.enter thread).Reaches thread node) : life.stage node = .linked := by
  have hstage := hreach.2
  cases hcase : life.stage node with
  | linked => rfl
  | unlinked unlinker openWhen =>
    have hle := hvalid.recorded node unlinker openWhen hcase thread (life.entered thread + 1)
    simp [enter, Sections.enter, hcase] at hstage
    exact absurd (hle hstage) (by omega)
  | free | owned owner => simp [enter, hcase] at hstage

theorem Valid.enter (hvalid : life.Valid next retiring) (thread : Tid) : (life.enter thread).Valid next retiring where
  linked_next := hvalid.linked_next
  reaches_next reader node target hreach hnext := by
    by_cases heq : reader = thread
    · subst heq
      have hlinked := hvalid.linked_of_reaches_enter hreach
      exact reaches_of_linked hreach.1 (hvalid.linked_next node target hlinked hnext)
    · rw [reaches_enter_of_ne heq] at hreach ⊢
      exact hvalid.reaches_next reader node target hreach hnext
  recorded node unlinker openWhen hstage reader k hopen :=
    Nat.le_trans (hvalid.recorded node unlinker openWhen hstage reader k hopen)
      (Sections.entered_le_enter life.toSections thread reader)
  retired := hvalid.retired
  pending := hvalid.pending

theorem Valid.exit (hvalid : life.Valid next retiring) (thread : Tid) : (life.exit thread).Valid next retiring where
  linked_next := hvalid.linked_next
  reaches_next reader node target hreach hnext := by
    by_cases heq : reader = thread
    · subst heq
      simp [Reaches, Life.exit] at hreach
    · rw [reaches_exit_of_ne heq] at hreach ⊢
      exact hvalid.reaches_next reader node target hreach hnext
  recorded := hvalid.recorded
  retired := hvalid.retired
  pending := hvalid.pending

theorem steady_enter (hne : other ≠ thread) : Steady other life (life.enter thread) where
  inside := Sections.enter_inside_of_ne hne
  entered := by simp [enter, Sections.enter, hne]
  reaches _ := (reaches_enter_of_ne hne).mpr
  unlinked _ _ _ _ := id
  owned _ := id
  retiring _ _ hstage hretired := ⟨hstage, hretired⟩

theorem steady_exit (hne : other ≠ thread) : Steady other life (life.exit thread) where
  inside := Sections.exit_inside_of_ne hne
  entered := rfl
  reaches _ := (reaches_exit_of_ne hne).mpr
  unlinked _ _ _ _ := id
  owned _ := id
  retiring _ _ hstage hretired := ⟨hstage, hretired⟩

end Sections

section Nodes

variable [DecidableEq Node] {target : Node} {stage : Stage Tid}

/-! ### Allocation and freeing -/

theorem stage_renew_of_ne (hne : node ≠ target) : (life.renew target stage).stage node = life.stage node := by
  simp [renew, hne]

theorem reaches_renew_of_ne (hne : node ≠ target) :
    (life.renew target stage).Reaches thread node ↔ life.Reaches thread node := by
  simp [Reaches, renew, hne]

theorem ne_of_reaches_renew (hhidden : stage.Hidden)
    (hreach : (life.renew target stage).Reaches thread node) : node ≠ target := by
  rintro rfl
  have hstage := hreach.2
  cases stage <;> simp_all [renew, Stage.Hidden]

attribute [local simp] Life.renew

theorem Valid.renew (hvalid : life.Valid next retiring) (hlinked : life.stage target ≠ .linked)
    (hexpired : life.Expired target) (hhidden : stage.Hidden)
    (hsame : ∀ node, node ≠ target → next' node = next node) :
    (life.renew target stage).Valid next' retiring where
  linked_next node succ hnode hnext := by
    have hne : node ≠ target := by
      rintro rfl
      cases stage <;> simp_all [Stage.Hidden]
    rw [stage_renew_of_ne hne] at hnode
    have hsucc := hvalid.linked_next node succ hnode (hsame node hne ▸ hnext)
    rw [stage_renew_of_ne]
    · exact hsucc
    · rintro rfl
      exact hlinked hsucc
  reaches_next reader node succ hreach hnext := by
    have hne := ne_of_reaches_renew hhidden hreach
    rw [reaches_renew_of_ne hne] at hreach
    have hsucc := hvalid.reaches_next reader node succ hreach (hsame node hne ▸ hnext)
    rw [reaches_renew_of_ne]
    · exact hsucc
    · rintro rfl
      exact hexpired reader hsucc
  recorded node unlinker openWhen hstage := by
    have hne : node ≠ target := by
      rintro rfl
      cases stage <;> simp_all [Stage.Hidden]
    rw [stage_renew_of_ne hne] at hstage
    exact hvalid.recorded node unlinker openWhen hstage
  retired node := by
    by_cases heq : node = target
    · subst heq
      simp
    · simpa [heq] using hvalid.retired node
  pending node unlinker openWhen hstage hretired := by
    have hne : node ≠ target := by
      rintro rfl
      cases stage <;> simp_all [Stage.Hidden]
    rw [stage_renew_of_ne hne] at hstage
    apply hvalid.pending node unlinker openWhen hstage
    simpa [hne] using hretired

theorem Steady.of_node (hsections : life'.toSections = life.toSections)
    (hstage : ∀ node, node ≠ target → life'.stage node = life.stage node)
    (hretiredBy : ∀ node, node ≠ target → life'.retiredBy node = life.retiredBy node)
    (hreaches : life.Reaches thread target → life'.Reaches thread target)
    (hunlinked : ∀ unlinker openWhen, life.Reaches thread target → life.stage target = .unlinked unlinker openWhen →
      life'.stage target = .unlinked unlinker openWhen)
    (howned : life.stage target ≠ .owned thread)
    (hretiring : ∀ openWhen, life.stage target = .unlinked thread openWhen →
      life.retiredBy target ≠ []) : Steady thread life life' where
  inside := by rw [hsections]
  entered := by rw [hsections]
  reaches node hreach := by
    by_cases heq : node = target
    · exact heq ▸ hreaches (heq ▸ hreach)
    · simpa only [Reaches, hsections, hstage node heq] using hreach
  unlinked node unlinker openWhen hreach hnode := by
    by_cases heq : node = target
    · exact heq ▸ hunlinked unlinker openWhen (heq ▸ hreach) (heq ▸ hnode)
    · rwa [hstage node heq]
  owned node hnode := by
    rw [hstage node]
    · exact hnode
    · rintro rfl
      exact howned hnode
  retiring node openWhen hnode hretired := by
    have hne : node ≠ target := by
      rintro rfl
      exact hretiring openWhen hnode hretired
    rw [hstage node hne, hretiredBy node hne]
    exact ⟨hnode, hretired⟩

theorem steady_renew (hexpired : life.Expired target) (howned : life.stage target ≠ .owned thread)
    (hretiring : ∀ openWhen, life.stage target = .unlinked thread openWhen →
      life.retiredBy target ≠ []) : Steady thread life (life.renew target stage) := by
  apply Steady.of_node
  · rfl
  · exact fun node hne => stage_renew_of_ne hne
  · exact fun node hne => update_of_ne hne _ _
  · exact fun hreach => absurd hreach (hexpired thread)
  · exact fun _ _ hreach => absurd hreach (hexpired thread)
  · exact howned
  · exact hretiring

/-! ### Linking, unlinking and retiring -/

theorem stage_link_of_ne (hne : node ≠ target) : (life.link target).stage node = life.stage node := by
  simp [link, hne]

theorem stage_link_eq_linked : (life.link target).stage node = .linked ↔ node = target ∨ life.stage node = .linked := by
  by_cases heq : node = target <;> simp [link, heq]

theorem reaches_link (hreach : life.Reaches thread node) : (life.link target).Reaches thread node := by
  by_cases heq : node = target
  · subst heq
    exact reaches_of_linked hreach.1 (stage_link_eq_linked.mpr (.inl rfl))
  · simpa [Reaches, link, heq] using hreach

/-- A node that the thread owns is linked behind nodes in place, and in front of such. -/
theorem Valid.link (hvalid : life.Valid next retiring) (howned : life.stage target = .owned thread)
    (htarget : ∀ succ, next target = some succ → life.stage succ = .linked)
    (hnext : ∀ node, next' node = next node ∨ node ≠ target ∧ next' node = some target) :
    (life.link target).Valid next' retiring where
  linked_next node succ hnode hsucc := by
    rw [stage_link_eq_linked] at hnode ⊢
    rcases hnext node with hsame | ⟨_, hnew⟩
    · rw [hsame] at hsucc
      rcases hnode with rfl | hlinked
      · exact .inr (htarget succ hsucc)
      · exact .inr (hvalid.linked_next node succ hlinked hsucc)
    · exact .inl (Option.some.inj (hsucc.symm.trans hnew))
  reaches_next reader node succ hreach hsucc := by
    rcases hnext node with hsame | ⟨_, hnew⟩
    · rw [hsame] at hsucc
      by_cases heq : node = target
      · subst heq
        exact reaches_of_linked hreach.1 (stage_link_eq_linked.mpr (.inr (htarget succ hsucc)))
      · have hbefore : life.Reaches reader node := by simpa [Reaches, Life.link, heq] using hreach
        exact reaches_link (hvalid.reaches_next reader node succ hbefore hsucc)
    · obtain rfl : target = succ := Option.some.inj (hnew.symm.trans hsucc)
      exact reaches_of_linked hreach.1 (stage_link_eq_linked.mpr (.inl rfl))
  recorded node unlinker openWhen hstage := by
    have hne : node ≠ target := by
      rintro rfl
      simp [Life.link] at hstage
    rw [stage_link_of_ne hne] at hstage
    exact hvalid.recorded node unlinker openWhen hstage
  retired node := by
    rcases hvalid.retired node with hnone | ⟨unlinker, openWhen, hstage, hretired⟩
    · exact .inl hnone
    · refine .inr ⟨unlinker, openWhen, ?_, hretired⟩
      rw [stage_link_of_ne, hstage]
      rintro rfl
      simp [howned] at hstage
  pending node unlinker openWhen hstage hretired := by
    have hne : node ≠ target := by
      rintro rfl
      simp [Life.link] at hstage
    rw [stage_link_of_ne hne] at hstage
    exact hvalid.pending node unlinker openWhen hstage hretired

theorem steady_link (howned : life.stage target = .owned other) (hne : thread ≠ other) :
    Steady thread life (life.link target) := by
  apply Steady.of_node
  · rfl
  · exact fun node hnode => stage_link_of_ne hnode
  · exact fun _ _ => rfl
  · exact reaches_link
  · simp [howned]
  · rw [howned]
    simpa using hne.symm
  · simp [howned]

theorem stage_unlink_of_ne (hne : node ≠ target) : (life.unlink other target).stage node = life.stage node := by
  simp [unlink, hne]

theorem reaches_unlink_self (hinside : life.inside thread = true) :
    (life.unlink other target).Reaches thread target := by
  refine ⟨hinside, ?_⟩
  simp [unlink, Sections.snapshot, hinside]

theorem reaches_unlink (hlinked : life.stage target = .linked) :
    (life.unlink other target).Reaches thread node ↔ life.Reaches thread node := by
  by_cases heq : node = target
  · subst heq
    constructor
    · exact fun hreach => reaches_of_linked hreach.1 hlinked
    · exact fun hreach => reaches_unlink_self hreach.1
  · simp [Reaches, unlink, heq]

theorem Valid.unlink [DecidableEq Tid] (hvalid : life.Valid next retiring) (hlinked : life.stage target = .linked)
    (hretiring : retiring other = none)
    (hnext : ∀ node, next' node = next node ∨ next node = some target ∧ next' node = next target)
    (hgone : ∀ node, life.stage node = .linked → node ≠ target → next' node ≠ some target) :
    (life.unlink other target).Valid next' (update retiring other (some target)) where
  linked_next node succ hnode hsucc := by
    have hne : node ≠ target := by
      rintro rfl
      simp [Life.unlink] at hnode
    rw [stage_unlink_of_ne hne] at hnode
    rw [stage_unlink_of_ne]
    · rcases hnext node with hsame | ⟨hold, hnew⟩
      · exact hvalid.linked_next node succ hnode (hsame ▸ hsucc)
      · exact hvalid.linked_next target succ hlinked (hnew ▸ hsucc)
    · rintro rfl
      exact hgone node hnode hne hsucc
  reaches_next reader node succ hreach hsucc := by
    rw [reaches_unlink hlinked] at hreach ⊢
    rcases hnext node with hsame | ⟨hold, hnew⟩
    · exact hvalid.reaches_next reader node succ hreach (hsame ▸ hsucc)
    · exact hvalid.reaches_next reader target succ (hvalid.reaches_next reader node target hreach hold) (hnew ▸ hsucc)
  recorded node unlinker openWhen hstage reader k hopen := by
    by_cases heq : node = target
    · subst heq
      simp only [Life.unlink, update_self, Stage.unlinked.injEq] at hstage
      rw [← hstage.2, Sections.snapshot_eq_some] at hopen
      exact Nat.le_of_eq hopen.2.symm
    · rw [stage_unlink_of_ne heq] at hstage
      exact hvalid.recorded node unlinker openWhen hstage reader k hopen
  retired node := by
    rcases hvalid.retired node with hnone | ⟨unlinker, openWhen, hstage, hretired⟩
    · exact .inl hnone
    · refine .inr ⟨unlinker, openWhen, ?_, hretired⟩
      rw [stage_unlink_of_ne, hstage]
      rintro rfl
      simp [hlinked] at hstage
  pending node unlinker openWhen hstage hretired := by
    by_cases heq : node = target
    · subst heq
      simp only [Life.unlink, update_self, Stage.unlinked.injEq] at hstage
      rw [← hstage.1, update_self]
    · rw [stage_unlink_of_ne heq] at hstage
      have hpending := hvalid.pending node unlinker openWhen hstage hretired
      rw [update_of_ne]
      · exact hpending
      · rintro rfl
        simp [hretiring] at hpending

theorem steady_unlink (hlinked : life.stage target = .linked) : Steady thread life (life.unlink other target) := by
  apply Steady.of_node
  · rfl
  · exact fun node hne => stage_unlink_of_ne hne
  · exact fun _ _ => rfl
  · exact (reaches_unlink hlinked).mpr
  · simp [hlinked]
  · simp [hlinked]
  · simp [hlinked]

theorem Valid.retire [DecidableEq Tid] (hvalid : life.Valid next retiring) {openWhen : Tid → Option Nat}
    (hstage : life.stage target = .unlinked other openWhen) (hretired : life.retiredBy target = []) :
    (life.retire other target).Valid next (update retiring other none) where
  linked_next := hvalid.linked_next
  reaches_next := hvalid.reaches_next
  recorded := hvalid.recorded
  retired node := by
    by_cases heq : node = target
    · subst heq
      exact .inr ⟨other, openWhen, hstage, by simp [Life.retire, hretired]⟩
    · simpa [Life.retire, heq] using hvalid.retired node
  pending node unlinker openWhen' hnode hnone := by
    have hne : node ≠ target := by
      rintro rfl
      simp [Life.retire] at hnone
    have hpending := hvalid.pending node unlinker openWhen' hnode (by simpa [Life.retire, hne] using hnone)
    rw [update_of_ne]
    · exact hpending
    · rintro rfl
      have htarget := hvalid.pending target unlinker openWhen hstage hretired
      exact hne (Option.some.inj (hpending.symm.trans htarget))

theorem steady_retire {openWhen : Tid → Option Nat}
    (hstage : life.stage target = .unlinked other openWhen) (hne : thread ≠ other) :
    Steady thread life (life.retire other target) := by
  apply Steady.of_node
  · rfl
  · exact fun _ _ => rfl
  · exact fun node hnode => update_of_ne hnode _ _
  · exact id
  · exact fun _ _ _ => id
  · simp [hstage]
  · simp [hstage, hne.symm]

end Nodes

end Life

end Lfmr.Concurrency
