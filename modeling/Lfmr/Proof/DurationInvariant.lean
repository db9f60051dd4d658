import Lfmr.ClosingOrder
import Lfmr.Concurrency.Linked
import Lfmr.DurationWindow
import Mathlib.Data.Fintype.Card

/-!
# What a duration reclaimer keeps

The memory of `dw.c` is tied to the windows of `ClosingOrder`: the durations in the queue are the
closed windows in the order of their closing, `current_d` is the current one, and the counters of a
duration say how many threads owe it. A ghost value names what the memory leaves implicit: who is
closing, who is collecting, and which part of the queue is linked already.
-/

namespace Lfmr.DurationWindow

open Lfmr.Concurrency Lfmr.ClosingOrder

variable {n : Nat} {Heap Op : Type}

/-- `chain` is what the queue holds behind its `dummy`, `limbo` a duration closed and not yet linked,
`spare` one that is allocated and not yet current. `count` is how many threads a duration was closed
with, and the `setter` of a duration made its last exit and has yet to mark it as collectible. -/
structure Ghost (n : Nat) where
  order : Order Addr (Fin n)
  dummy : Addr
  chain : List Addr
  limbo : Option Addr
  spare : Option Addr
  count : Addr → Nat
  setter : Addr → Option (Fin n)
  closer : Option (Fin n)
  collector : Option (Fin n)

def Ghost.last (ghost : Ghost n) : Addr := ghost.chain.getLastD ghost.dummy

def Ghost.live (ghost : Ghost n) : List Addr :=
  ghost.dummy :: (ghost.order.closed ++ ghost.order.current :: ghost.spare.toList)

/-! ### The runs to be considered -/

def AbaFits (scheme : Scheme n Heap Op) (shared : Shared n Heap) : Prop :=
  (shared.aba + 1) % scheme.abaSize = shared.aba + 1

/-- The accesses of a run that keeps the grace period. No addition to `aba` may wrap around; the Encore
file, with an unbounded `aba`, makes no other accesses. In the root file the field `entry` of a closed
duration, which nobody has written, must not be too small, and a load of it after the addition to `exit`
must give what was there at the addition. -/
def Regular (scheme : Scheme n Heap Op) (config : Config (Fin n) (Shared n Heap) Pc)
    (thread : Fin n) (_ : Choice Op) : Prop :=
  match config.threads thread with
  | .close _ _ (.cas aba) => config.shared.aba = aba → AbaFits scheme config.shared
  | .close _ _ (.addAba _) => AbaFits scheme config.shared
  | .close _ myD (.readEntry d) => scheme.variant = .root →
      (config.shared.durations d).entry = 0 ∨
        config.shared.entry + (if d ≠ myD then 1 else 0) ≤ (config.shared.durations d).entry
  | .settle d _ (.late _ entryThen) => scheme.variant = .root →
      (config.shared.durations d).entry = entryThen
  | _ => True

instance (scheme : Scheme n Heap Op) (config : Config (Fin n) (Shared n Heap) Pc) (thread : Fin n)
    (choice : Choice Op) : Decidable (Regular scheme config thread choice) := by
  unfold Regular AbaFits
  split <;> infer_instance

theorem regular_of_unbounded {scheme : Scheme n Heap Op} (hvariant : scheme.variant = .encore) (haba : scheme.abaSize = 0)
    (config : Config (Fin n) (Shared n Heap) Pc) (thread : Fin n) (choice : Choice Op) :
    Regular scheme config thread choice := by
  unfold Regular AbaFits
  split <;> simp [hvariant, haba]

/-! ### Program points -/

def ClosePc.joined : ClosePc → Option Addr
  | .pushRead d | .pushHead d _ | .pushNext d _ | .addAba d | .lateHead d => some d
  | _ => none

def ClosePc.closing : ClosePc → Bool
  | .loadAba | .cas _ | .lateHead _ => false
  | _ => true

def Pc.owed : Pc → List Addr
  | .entry _ (.storeDuration d) | .inside _ d => [d]
  | .outside | .entry _ _ => []
  | .close _ myD pc =>
      match pc.joined with
      | some d => if d ≠ myD then [d, myD] else [myD]
      | none => [myD]
  | .settle d rest .start | .settle d rest (.add _) => d :: rest.toList
  | .settle _ rest _ | .collect rest _ => rest.toList

def Pc.isInside : Pc → Bool
  | .inside _ _ => true
  | _ => false

def Pc.closing : Pc → Bool
  | .close _ _ pc => pc.closing
  | _ => false

def Pc.collecting : Pc → Bool
  | .collect _ .addPending | .collect _ .casLock => false
  | .collect _ _ => true
  | _ => false

def Pc.setting : Pc → Option Addr
  | .settle d _ .store => some d
  | .settle d _ (.late exit entryThen) => if exit + 1 = entryThen then some d else none
  | _ => none

theorem owed_settleBoth (myD d : Addr) : (settleBoth myD d).owed = if d ≠ myD then [d, myD] else [myD] := by
  unfold settleBoth
  split <;> rfl

@[simp]
theorem owed_settleRest (rest : Option Addr) : (settleRest rest).owed = rest.toList := by
  cases rest <;> rfl

@[simp]
theorem flags_settleBoth (myD d : Addr) : (settleBoth myD d).isInside = false ∧ (settleBoth myD d).closing = false ∧
      (settleBoth myD d).collecting = false ∧ (settleBoth myD d).setting = none := by
  unfold settleBoth
  split <;> exact ⟨rfl, rfl, rfl, rfl⟩

@[simp]
theorem flags_settleRest (rest : Option Addr) : (settleRest rest).isInside = false ∧ (settleRest rest).closing = false ∧
      (settleRest rest).collecting = false ∧ (settleRest rest).setting = none := by
  cases rest <;> exact ⟨rfl, rfl, rfl, rfl⟩

/-! ### Facts about the memory -/

/-- The number in `entry` stands for the threads a duration was closed with. The Encore file stores
it; in the root file it may be zero or too large, and the duration is then never collected. -/
def Sound (variant : Variant) (entry count : Nat) : Prop :=
  match variant with
  | .encore => entry = count
  | .root => entry = 0 ∨ count ≤ entry

theorem Sound.le {variant : Variant} {entry count : Nat} (hsound : Sound variant entry count)
    (hpos : 0 < entry) : count ≤ entry := by
  cases variant with
  | encore => exact Nat.le_of_eq hsound.symm
  | root =>
    rcases hsound with hzero | hle
    · omega
    · exact hle

structure Counted (variant : Variant) (duration : Duration n) (owing : Finset (Fin n)) (count : Nat)
    (setter : Option (Fin n)) : Prop where
  balance : duration.exit + owing.card = count
  bounded : count ≤ n
  sound : Sound variant duration.entry count
  collectible : duration.collectible = true → owing = ∅ ∧ setter = none
  setter : setter ≠ none → owing = ∅
  stw : duration.stw = false

structure Blank (duration : Duration n) : Prop where
  exit : duration.exit = 0
  collectible : duration.collectible = false
  stw : duration.stw = false
  next : duration.next = none

structure Owned (shared : Shared n Heap) (live : List Addr) : Prop where
  nodup : live.Nodup
  allocated : ∀ d ∈ live, shared.allocated d = true
  pooled : ∀ thread, ∀ d ∈ shared.durationPool thread, shared.allocated d = true ∧ d ∉ live
  pool_nodup : ∀ thread, (shared.durationPool thread).Nodup
  pool_disjoint : ∀ thread other d, d ∈ shared.durationPool thread →
    d ∈ shared.durationPool other → thread = other

structure Tidy (shared : Shared n Heap) (ghost : Ghost n) : Prop where
  queueHead : shared.queueHead = ghost.last
  limbo : ghost.limbo = none
  spare : ghost.spare = none

def EntryCounts (shared : Shared n Heap) (ghost : Ghost n) : Prop :=
  shared.entry = (ghost.order.owing shared.currentD).card

structure GlobalInv (variant : Variant) (shared : Shared n Heap) (ghost : Ghost n) : Prop where
  order : ghost.order.Valid shared.toSections fun d => (shared.durations d).openWhen
  current : ghost.order.current = shared.currentD
  closed : ghost.order.closed = ghost.chain ++ ghost.limbo.toList
  owned : Owned shared ghost.live
  linked : Linked (fun d => (shared.durations d).next) (shared.durations ghost.dummy).next ghost.chain
  limbo : ∀ d ∈ ghost.limbo, (shared.durations d).next = none
  blank : ∀ d ∈ shared.currentD :: ghost.spare.toList, Blank (shared.durations d)
  counted : ∀ d ∈ ghost.order.closed,
    Counted variant (shared.durations d) (ghost.order.owing d) (ghost.count d) (ghost.setter d)
  setter : ∀ d, ghost.setter d ≠ none → d ∈ ghost.order.closed
  parity : shared.aba % 2 = if ghost.closer = none then 0 else 1
  lock : shared.lock = ghost.collector.isSome
  rest : ghost.closer = none → Tidy shared ghost ∧ EntryCounts shared ghost
  tail : ghost.collector = none → shared.queueTail = ghost.dummy

/-! ### Facts about one thread -/

def EntryInv (shared : Shared n Heap) : EntryPc → Prop
  | .loadAba | .storeDuration _ => True
  | .readCurrent aba => aba % 2 = 0 ∧ aba ≤ shared.aba
  | .loadEntry aba d | .cas aba _ d =>
      aba % 2 = 0 ∧ aba ≤ shared.aba ∧ (shared.aba = aba → d = shared.currentD)

/-- How many threads the duration is going to be closed with: those in it, and the closing thread if
it is in another one. -/
def closingCount (ghost : Ghost n) (myD d : Addr) : Nat :=
  (ghost.order.owing d).card + if d ≠ myD then 1 else 0

def CloseInv (variant : Variant) (shared : Shared n Heap) (ghost : Ghost n) (myD : Addr) :
    ClosePc → Prop
  | .loadAba => True
  | .cas aba => aba % 2 = 0
  | .readCurrent => Tidy shared ghost ∧ EntryCounts shared ghost
  | .readEntry d => d = shared.currentD ∧ Tidy shared ghost ∧ EntryCounts shared ghost
  | .zeroEntry d => d = shared.currentD ∧ Tidy shared ghost ∧
      Sound variant (shared.durations d).entry (closingCount ghost myD d)
  | .storeEntry d entry => d = shared.currentD ∧ Tidy shared ghost ∧ shared.entry = 0 ∧
      variant = .encore ∧ entry = (ghost.order.owing d).card
  | .readCount d => d = shared.currentD ∧ Tidy shared ghost ∧ shared.entry = 0 ∧
      variant = .encore ∧ d ≠ myD ∧ (shared.durations d).entry = (ghost.order.owing d).card
  | .storeCount d entry => d = shared.currentD ∧ Tidy shared ghost ∧ shared.entry = 0 ∧
      variant = .encore ∧ d ≠ myD ∧ entry = (ghost.order.owing d).card
  | .storeHead d | .new d => d = shared.currentD ∧ Tidy shared ghost ∧ shared.entry = 0 ∧
      Sound variant (shared.durations d).entry (closingCount ghost myD d)
  | .storeCurrent d new => d = shared.currentD ∧ shared.queueHead = ghost.last ∧
      ghost.limbo = none ∧ ghost.spare = some new ∧ shared.entry = 0 ∧
      Sound variant (shared.durations d).entry (closingCount ghost myD d)
  | .pushRead d => ghost.limbo = some d ∧ ghost.spare = none ∧ EntryCounts shared ghost ∧
      shared.queueHead = ghost.last ∧ myD ∈ ghost.order.closed
  | .pushHead d prev => ghost.limbo = some d ∧ ghost.spare = none ∧ EntryCounts shared ghost ∧
      prev = ghost.last ∧ myD ∈ ghost.order.closed
  | .pushNext d prev => ghost.limbo = some d ∧ ghost.spare = none ∧ EntryCounts shared ghost ∧
      prev = ghost.last ∧ shared.queueHead = d ∧ myD ∈ ghost.order.closed
  | .addAba d => Tidy shared ghost ∧ EntryCounts shared ghost ∧ d ∈ ghost.order.closed ∧
      myD ∈ ghost.order.closed
  | .lateHead d => d ∈ ghost.order.closed ∧ myD ∈ ghost.order.closed

def SettleInv (variant : Variant) (shared : Shared n Heap) (ghost : Ghost n) (d : Addr)
    (rest : Option Addr) : SettlePc → Prop
  | .start => d ∈ ghost.order.closed ∧ d ∉ rest
  | .add entry => d ∈ ghost.order.closed ∧ d ∉ rest ∧ entry = (shared.durations d).entry
  | .late _ _ => variant = .root
  | .store => True

def CollectInv (shared : Shared n Heap) (ghost : Ghost n) : CollectPc → Prop
  | .addPending | .casLock => True
  | .loadPending | .casEmpty | .subPending | .readPending | .casLoop | .peekTail =>
      shared.queueTail = ghost.dummy
  | .peekNext tail => shared.queueTail = ghost.dummy ∧ tail = ghost.dummy
  | .loadCollectible d => shared.queueTail = ghost.dummy ∧ ghost.chain.head? = some d
  | .readHead d | .cleanOne d _ | .cleanCell d _ _ | .popTail d =>
      shared.queueTail = ghost.dummy ∧ ghost.chain.head? = some d ∧
        (shared.durations d).collectible = true
  | .popNext d tail => tail = ghost.dummy ∧ shared.queueTail = ghost.dummy ∧
      ghost.chain.head? = some d ∧ (shared.durations d).collectible = true
  | .popFree d tail next => tail = ghost.dummy ∧ next = d ∧
      ghost.chain.head? = some d ∧ (shared.durations d).collectible = true
  | .popStore d next => next = d ∧ ghost.dummy = d ∧ (shared.durations d).stw = false
  | .readStw d => shared.queueTail = ghost.dummy ∧ ghost.dummy = d ∧ (shared.durations d).stw = false
  | .addAba => False

def PcInv (variant : Variant) (shared : Shared n Heap) (ghost : Ghost n) : Pc → Prop
  | .outside | .inside _ _ => True
  | .entry _ pc => EntryInv shared pc
  | .close _ myD pc => CloseInv variant shared ghost myD pc
  | .settle d rest pc => (∀ myD ∈ rest, myD ∈ ghost.order.closed) ∧
      SettleInv variant shared ghost d rest pc
  | .collect rest pc => (∀ myD ∈ rest, myD ∈ ghost.order.closed) ∧ CollectInv shared ghost pc

structure ThreadInv (variant : Variant) (thread : Fin n) (shared : Shared n Heap) (ghost : Ghost n)
    (pc : Pc) : Prop where
  owed : ∀ d, thread ∈ ghost.order.owing d ↔ d ∈ pc.owed
  inside : shared.inside thread = pc.isInside
  setter : ∀ d, ghost.setter d = some thread ↔ pc.setting = some d
  closer : ghost.closer = some thread ↔ pc.closing = true
  collector : ghost.collector = some thread ↔ pc.collecting = true
  at_pc : PcInv variant shared ghost pc

/-! ### What a thread relies on -/

structure SameClosing (before after : Shared n Heap × Ghost n) : Prop where
  entry : after.1.entry = before.1.entry
  currentD : after.1.currentD = before.1.currentD
  queueHead : after.1.queueHead = before.1.queueHead
  last : after.2.last = before.2.last
  limbo : after.2.limbo = before.2.limbo
  spare : after.2.spare = before.2.spare
  owing : after.2.order.owing before.1.currentD = before.2.order.owing before.1.currentD
  duration : (after.1.durations before.1.currentD).entry = (before.1.durations before.1.currentD).entry

structure SameCollecting (before after : Shared n Heap × Ghost n) : Prop where
  queueTail : after.1.queueTail = before.1.queueTail
  dummy : after.2.dummy = before.2.dummy
  chain : before.2.chain <+: after.2.chain
  collectible : ∀ d ∈ before.2.chain, (before.1.durations d).collectible = true →
    (after.1.durations d).collectible = true
  stw : (after.1.durations before.2.dummy).stw = (before.1.durations before.2.dummy).stw

structure Rely (thread : Fin n) (before after : Shared n Heap × Ghost n) : Prop where
  aba : before.1.aba ≤ after.1.aba
  current : before.1.aba % 2 = 0 → after.1.aba = before.1.aba →
    after.1.currentD = before.1.currentD
  inside : after.1.inside thread = before.1.inside thread
  owing : ∀ d, thread ∈ after.2.order.owing d ↔ thread ∈ before.2.order.owing d
  setter : ∀ d, after.2.setter d = some thread ↔ before.2.setter d = some thread
  closer : after.2.closer = some thread ↔ before.2.closer = some thread
  collector : after.2.collector = some thread ↔ before.2.collector = some thread
  closed : ∀ d ∈ before.2.order.closed, (before.1.durations d).collectible = false →
    d ∈ after.2.order.closed ∧ (after.1.durations d).entry = (before.1.durations d).entry
  closing : before.2.closer = some thread → SameClosing before after
  collecting : before.2.collector = some thread → SameCollecting before after

variable {variant : Variant} {thread : Fin n} {shared : Shared n Heap} {ghost : Ghost n}
  {before after : Shared n Heap × Ghost n}

theorem GlobalInv.not_collectible (hglobal : GlobalInv variant shared ghost) {d : Addr}
    (hmem : d ∈ ghost.order.closed) (howing : thread ∈ ghost.order.owing d) :
    (shared.durations d).collectible = false := by
  rw [← Bool.not_eq_true]
  intro hcollectible
  simp [((hglobal.counted d hmem).collectible hcollectible).1] at howing

theorem Rely.closed_of_owing (hrely : Rely thread before after)
    (hbefore : GlobalInv variant before.1 before.2) {d : Addr} (hmem : d ∈ before.2.order.closed)
    (howing : thread ∈ before.2.order.owing d) :
    d ∈ after.2.order.closed ∧ (after.1.durations d).entry = (before.1.durations d).entry :=
  hrely.closed d hmem (hbefore.not_collectible hmem howing)

theorem Tidy.stable (hsame : SameClosing before after) (h : Tidy before.1 before.2) : Tidy after.1 after.2 := by
  refine ⟨?_, ?_, ?_⟩
  · rw [hsame.queueHead, hsame.last]; exact h.queueHead
  · rw [hsame.limbo]; exact h.limbo
  · rw [hsame.spare]; exact h.spare

theorem EntryCounts.stable (hsame : SameClosing before after) (h : EntryCounts before.1 before.2) :
    EntryCounts after.1 after.2 := by
  unfold EntryCounts
  rw [hsame.entry, hsame.currentD, hsame.owing]
  exact h

theorem EntryInv.stable (hrely : Rely thread before after) {pc : EntryPc}
    (h : EntryInv before.1 pc) : EntryInv after.1 pc := by
  have haba := hrely.aba
  have hcurrent : ∀ aba d, aba % 2 = 0 ∧ aba ≤ before.1.aba ∧ (before.1.aba = aba → d = before.1.currentD) →
      aba % 2 = 0 ∧ aba ≤ after.1.aba ∧ (after.1.aba = aba → d = after.1.currentD) := by
    rintro aba d ⟨heven, hle, hd⟩
    refine ⟨heven, Nat.le_trans hle haba, ?_⟩
    rintro rfl
    have heq : before.1.aba = after.1.aba := by omega
    rw [hrely.current (heq ▸ heven) heq.symm]
    exact hd heq
  cases pc with
  | loadAba | storeDuration d => trivial
  | readCurrent aba => exact ⟨h.1, Nat.le_trans h.2 haba⟩
  | loadEntry aba d | cas aba entry d => exact hcurrent aba d h

theorem CloseInv.stable {myD : Addr} {pc : ClosePc} (hclosing : pc.closing = true → SameClosing before after)
    (hmyD : myD ∈ before.2.order.closed → myD ∈ after.2.order.closed)
    (hjoined : ∀ d, pc.joined = some d → d ∈ before.2.order.closed → d ∈ after.2.order.closed)
    (h : CloseInv variant before.1 before.2 myD pc) : CloseInv variant after.1 after.2 myD pc := by
  cases pc with
  | loadAba => trivial
  | cas aba => exact h
  | lateHead d => exact ⟨hjoined d rfl h.1, hmyD h.2⟩
  | readCurrent =>
    have hsame := hclosing rfl
    exact ⟨h.1.stable hsame, h.2.stable hsame⟩
  | readEntry d =>
    have hsame := hclosing rfl
    exact ⟨h.1.trans hsame.currentD.symm, h.2.1.stable hsame, h.2.2.stable hsame⟩
  | zeroEntry d =>
    have hsame := hclosing rfl
    obtain ⟨rfl, htidy, hsound⟩ := h
    refine ⟨hsame.currentD.symm, htidy.stable hsame, ?_⟩
    simpa only [closingCount, hsame.owing, hsame.duration] using hsound
  | storeEntry d entry =>
    have hsame := hclosing rfl
    obtain ⟨rfl, htidy, hentry, hvariant, hcount⟩ := h
    exact ⟨hsame.currentD.symm, htidy.stable hsame, hsame.entry.trans hentry, hvariant,
      by rw [hsame.owing]; exact hcount⟩
  | readCount d =>
    have hsame := hclosing rfl
    obtain ⟨rfl, htidy, hentry, hvariant, hne, hcount⟩ := h
    exact ⟨hsame.currentD.symm, htidy.stable hsame, hsame.entry.trans hentry, hvariant, hne,
      by rw [hsame.owing, hsame.duration]; exact hcount⟩
  | storeCount d entry =>
    have hsame := hclosing rfl
    obtain ⟨rfl, htidy, hentry, hvariant, hne, hcount⟩ := h
    exact ⟨hsame.currentD.symm, htidy.stable hsame, hsame.entry.trans hentry, hvariant, hne,
      by rw [hsame.owing]; exact hcount⟩
  | storeHead d | new d =>
    have hsame := hclosing rfl
    obtain ⟨rfl, htidy, hentry, hsound⟩ := h
    refine ⟨hsame.currentD.symm, htidy.stable hsame, hsame.entry.trans hentry, ?_⟩
    simpa only [closingCount, hsame.owing, hsame.duration] using hsound
  | storeCurrent d new =>
    have hsame := hclosing rfl
    obtain ⟨rfl, hhead, hlimbo, hspare, hentry, hsound⟩ := h
    refine ⟨hsame.currentD.symm, ?_, hsame.limbo.trans hlimbo, hsame.spare.trans hspare, hsame.entry.trans hentry, ?_⟩
    · rw [hsame.queueHead, hsame.last]; exact hhead
    · simpa only [closingCount, hsame.owing, hsame.duration] using hsound
  | pushRead d =>
    have hsame := hclosing rfl
    obtain ⟨hlimbo, hspare, hcounts, hhead, hmem⟩ := h
    refine ⟨hsame.limbo.trans hlimbo, hsame.spare.trans hspare, hcounts.stable hsame, ?_, hmyD hmem⟩
    rw [hsame.queueHead, hsame.last]; exact hhead
  | pushHead d prev =>
    have hsame := hclosing rfl
    obtain ⟨hlimbo, hspare, hcounts, hprev, hmem⟩ := h
    exact ⟨hsame.limbo.trans hlimbo, hsame.spare.trans hspare, hcounts.stable hsame,
      hprev.trans hsame.last.symm, hmyD hmem⟩
  | pushNext d prev =>
    have hsame := hclosing rfl
    obtain ⟨hlimbo, hspare, hcounts, hprev, hhead, hmem⟩ := h
    exact ⟨hsame.limbo.trans hlimbo, hsame.spare.trans hspare, hcounts.stable hsame,
      hprev.trans hsame.last.symm, hsame.queueHead.trans hhead, hmyD hmem⟩
  | addAba d =>
    have hsame := hclosing rfl
    exact ⟨h.1.stable hsame, h.2.1.stable hsame, hjoined d rfl h.2.2.1, hmyD h.2.2.2⟩

theorem CollectInv.stable {pc : CollectPc} {rest : Option Addr}
    (hsame : (Pc.collect rest pc).collecting = true → SameCollecting before after)
    (h : CollectInv before.1 before.2 pc) : CollectInv after.1 after.2 pc := by
  have htail : SameCollecting before after → before.1.queueTail = before.2.dummy →
      after.1.queueTail = after.2.dummy := by
    intro hsame heq
    rw [hsame.queueTail, hsame.dummy, heq]
  have hhead : SameCollecting before after → ∀ d, before.2.chain.head? = some d → after.2.chain.head? = some d := by
    intro hsame d heq
    obtain ⟨newer, hchain⟩ := hsame.chain
    rw [← hchain, List.head?_append, heq]
    rfl
  have hcollectible : SameCollecting before after → ∀ d, before.2.chain.head? = some d →
      (before.1.durations d).collectible = true → (after.1.durations d).collectible = true :=
    fun hsame d heq => hsame.collectible d (List.mem_of_mem_head? heq)
  cases pc with
  | addPending | casLock => trivial
  | loadPending | casEmpty | subPending | readPending | casLoop | peekTail =>
    exact htail (hsame rfl) h
  | peekNext tail => exact ⟨htail (hsame rfl) h.1, h.2.trans (hsame rfl).dummy.symm⟩
  | loadCollectible d => exact ⟨htail (hsame rfl) h.1, hhead (hsame rfl) d h.2⟩
  | readHead d | cleanOne d item | cleanCell d item cur | popTail d =>
    obtain ⟨hqueue, hfirst, hset⟩ := h
    exact ⟨htail (hsame rfl) hqueue, hhead (hsame rfl) d hfirst, hcollectible (hsame rfl) d hfirst hset⟩
  | popNext d tail =>
    obtain ⟨hdummy, hqueue, hfirst, hset⟩ := h
    exact ⟨hdummy.trans (hsame rfl).dummy.symm, htail (hsame rfl) hqueue, hhead (hsame rfl) d hfirst,
      hcollectible (hsame rfl) d hfirst hset⟩
  | popFree d tail next =>
    obtain ⟨hdummy, hnext, hfirst, hset⟩ := h
    exact ⟨hdummy.trans (hsame rfl).dummy.symm, hnext, hhead (hsame rfl) d hfirst,
      hcollectible (hsame rfl) d hfirst hset⟩
  | popStore d next =>
    obtain ⟨hnext, rfl, hstw⟩ := h
    exact ⟨hnext, (hsame rfl).dummy, (hsame rfl).stw.trans hstw⟩
  | readStw d =>
    obtain ⟨hqueue, rfl, hstw⟩ := h
    exact ⟨htail (hsame rfl) hqueue, (hsame rfl).dummy, (hsame rfl).stw.trans hstw⟩
  | addAba => exact h

theorem ThreadInv.stable {pc : Pc} (hbefore : GlobalInv variant before.1 before.2)
    (hinv : ThreadInv variant thread before.1 before.2 pc) (hrely : Rely thread before after) :
    ThreadInv variant thread after.1 after.2 pc := by
  have hkeep : ∀ d, d ∈ pc.owed → d ∈ before.2.order.closed → d ∈ after.2.order.closed ∧
      (after.1.durations d).entry = (before.1.durations d).entry :=
    fun d howed hmem => hrely.closed_of_owing hbefore hmem ((hinv.owed d).mpr howed)
  refine ⟨fun d => (hrely.owing d).trans (hinv.owed d), hrely.inside.trans hinv.inside,
    fun d => (hrely.setter d).trans (hinv.setter d), hrely.closer.trans hinv.closer,
    hrely.collector.trans hinv.collector, ?_⟩
  have hat := hinv.at_pc
  cases pc with
  | outside | inside item d => trivial
  | entry item pc => exact EntryInv.stable hrely hat
  | close item myD pc =>
    refine CloseInv.stable (fun hclosing => hrely.closing (hinv.closer.mpr hclosing)) ?_ ?_ hat
    · intro hmem
      refine (hkeep myD ?_ hmem).1
      simp only [Pc.owed]
      split
      · split <;> simp
      · simp
    · intro d hd hmem
      refine (hkeep d ?_ hmem).1
      simp only [Pc.owed, hd]
      split <;> simp_all
  | settle d rest pc =>
    obtain ⟨hrest, hat⟩ := hat
    refine ⟨fun myD hmyD => (hkeep myD ?_ (hrest myD hmyD)).1, ?_⟩
    · cases pc <;> simp_all [Pc.owed]
    · cases pc with
      | start => exact ⟨(hkeep d (by simp [Pc.owed]) hat.1).1, hat.2⟩
      | add entry =>
        obtain ⟨hmem, hne, hentry⟩ := hat
        obtain ⟨hmem', hentry'⟩ := hkeep d (by simp [Pc.owed]) hmem
        exact ⟨hmem', hne, hentry.trans hentry'.symm⟩
      | late exit entryThen => exact hat
      | store => trivial
  | collect rest pc =>
    obtain ⟨hrest, hat⟩ := hat
    refine ⟨fun myD hmyD => (hkeep myD (by simpa [Pc.owed] using hmyD) (hrest myD hmyD)).1, ?_⟩
    exact CollectInv.stable (fun hcollecting => hrely.collecting (hinv.collector.mpr hcollecting)) hat

end Lfmr.DurationWindow
