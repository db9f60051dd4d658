import Lfmr.Concurrency.Linked
import Lfmr.HazardQueue
import Lfmr.Proof.SmrScan

/-!
# What holds of the queue with hazard pointers between two accesses

The nodes from the head on form a list that ends where `next` is `NULL`, and the tail is one of them.
A slot guards a node that has been seen as the tail, as the head, or behind the head after it was
announced.

What a thread has read behind a guarded node is not guarded yet. But as long as the guarded node is
linked, its successor is linked too and cannot have been freed: `Follows` is this fact, and the second
look at the head turns it into a guard.
-/

namespace Lfmr.HazardQueue

open Function Lfmr.Concurrency Lfmr.Concurrency.Hazards Lfmr.Smr

namespace Memory

structure Valid (memory : Memory) (rest : List NodeAddr) : Prop where
  linked : Linked memory.next (memory.next memory.head) rest
  nodup : (memory.head :: rest).Nodup
  tail_mem : memory.tail ∈ memory.head :: rest
  keys : memory.linkedKeys = memory.unlinkedKeys ++ rest.map memory.key

variable {memory memory' : Memory} {rest : List NodeAddr} {node t succ : NodeAddr} {key data : Int}

theorem Valid.next_mem (hvalid : memory.Valid rest) (hmem : node ∈ memory.head :: rest)
    (hnext : memory.next node = some succ) : succ ∈ rest :=
  hvalid.linked.next_mem hmem hnext

structure SameExcept (node : NodeAddr) (memory memory' : Memory) : Prop where
  head : memory'.head = memory.head
  tail : memory'.tail = memory.tail
  key : ∀ other, other ≠ node → memory'.key other = memory.key other
  next : ∀ other, other ≠ node → memory'.next other = memory.next other
  linkedKeys : memory'.linkedKeys = memory.linkedKeys
  unlinkedKeys : memory'.unlinkedKeys = memory.unlinkedKeys

theorem sameExcept_setKey (memory : Memory) (node : NodeAddr) (key : Int) :
    SameExcept node memory (memory.setKey node key) :=
  ⟨rfl, rfl, fun _ hne => update_of_ne hne _ _, fun _ _ => rfl, rfl, rfl⟩

theorem sameExcept_setNext (memory : Memory) (node : NodeAddr) (next : Option NodeAddr) :
    SameExcept node memory (memory.setNext node next) :=
  ⟨rfl, rfl, fun _ _ => rfl, fun _ hne => update_of_ne hne _ _, rfl, rfl⟩

theorem sameExcept_scribble (memory : Memory) (node : NodeAddr) (key : Int)
    (next : Option NodeAddr) : SameExcept node memory (memory.scribble node key next) :=
  ⟨rfl, rfl, fun _ hne => update_of_ne hne _ _, fun _ hne => update_of_ne hne _ _, rfl, rfl⟩

theorem Valid.sameExcept (hvalid : memory.Valid rest) (hsame : SameExcept node memory memory')
    (hnotMem : node ∉ memory.head :: rest) : memory'.Valid rest := by
  have hne : ∀ other ∈ memory.head :: rest, other ≠ node :=
    fun other hother heq => hnotMem (heq ▸ hother)
  have hmap : rest.map memory'.key = rest.map memory.key :=
    List.map_congr_left fun other hother => hsame.key other (hne other (List.mem_cons_of_mem _ hother))
  refine ⟨?_, ?_, ?_, ?_⟩
  · rw [hsame.head, hsame.next memory.head (hne _ List.mem_cons_self)]
    apply hvalid.linked.congr
    exact fun other hother => hsame.next other (hne other (List.mem_cons_of_mem _ hother))
  · rw [hsame.head]
    exact hvalid.nodup
  · rw [hsame.head, hsame.tail]
    exact hvalid.tail_mem
  · rw [hsame.linkedKeys, hsame.unlinkedKeys, hmap, hvalid.keys]

theorem Valid.moveTail (hvalid : memory.Valid rest) (hnext : memory.next memory.tail = some succ) :
    { memory with tail := succ }.Valid rest where
  linked := hvalid.linked
  nodup := hvalid.nodup
  tail_mem := List.mem_cons_of_mem _ (hvalid.next_mem hvalid.tail_mem hnext)
  keys := hvalid.keys

theorem Valid.link (hvalid : memory.Valid rest) (hmem : t ∈ memory.head :: rest)
    (hnext : memory.next t = none) (hnew : node ∉ memory.head :: rest)
    (hnode : memory.next node = none) :
    (memory.link t node (memory.key node)).Valid (rest ++ [node]) := by
  have hlast := hvalid.linked.getLastD_eq hmem hnext
  have hnodup : (memory.head :: (rest ++ [node])).Nodup := by
    rw [← List.cons_append]
    exact List.Nodup.append hvalid.nodup (List.nodup_singleton node) (by simpa using hnew)
  have hsnoc := hvalid.linked.snoc hnodup hnode
  rw [hlast] at hsnoc
  refine ⟨hsnoc, hnodup, ?_, ?_⟩
  · have htail := hvalid.tail_mem
    simp only [Memory.link, Memory.setNext, List.mem_cons, List.mem_append] at htail ⊢
    tauto
  · simp [Memory.link, Memory.setNext, hvalid.keys]

theorem Valid.unlink (hvalid : memory.Valid rest) (hnext : memory.next memory.head = some succ)
    (htail : memory.tail ≠ memory.head) :
    ∃ rest', rest = succ :: rest' ∧ (memory.unlink succ (memory.key succ)).Valid rest' := by
  have hlinked := hvalid.linked
  rw [hnext] at hlinked
  cases rest with
  | nil => simp at hlinked
  | cons first rest' =>
    obtain ⟨hfirst, hrest⟩ := linked_cons.mp hlinked
    cases hfirst
    refine ⟨rest', rfl, hrest, hvalid.nodup.of_cons, ?_, ?_⟩
    · exact (List.mem_cons.mp hvalid.tail_mem).resolve_left htail
    · simp [Memory.unlink, hvalid.keys]

end Memory

variable {n : Nat}

structure Ghost where
  rest : List NodeAddr
  guard : Nat → Option NodeAddr

structure GlobalInv (shared : Shared n) (ghost : Ghost) : Prop where
  valid : shared.memory.Valid ghost.rest
  linked_iff : ∀ node, node ∈ shared.memory.head :: ghost.rest ↔ shared.custody node = .linked
  unlinked_next : ∀ node thread, shared.custody node = .unlinked thread →
    shared.memory.next node ≠ none
  hazards : shared.toHazards.Valid ghost.guard
  bound : ∀ i node, ghost.guard i = some node → i < H n

def Pc.own : Pc → Option NodeAddr
  | .enqueue _ _ (.swingTail _) => none
  | .enqueue _ node _ => some node
  | _ => none

def Pc.pending : Pc → List NodeAddr
  | .clear1 (some node) _ | .clear0 (some node) _ | .retire node _ => [node]
  | .scan pc _ => pc.tmplist
  | _ => []

structure Guards (thread : Fin n) (shared : Shared n) (ghost : Ghost) (off : Bool) (node : NodeAddr) :
    Prop where
  guard : ghost.guard (slot thread off) = some node
  current : shared.Current thread node

/-- The node has been read behind another one, and is in place while that one is linked. -/
structure Follows (thread : Fin n) (shared : Shared n) (node succ : NodeAddr) : Prop where
  next : shared.memory.next node = some succ
  current : shared.custody node = .linked → shared.Current thread succ

def IsUnlinked (shared : Shared n) (node : NodeAddr) : Prop :=
  ∃ thread, shared.custody node = .unlinked thread

def HeadSeen (shared : Shared n) (h : NodeAddr) : Prop :=
  shared.memory.head = h ∨ IsUnlinked shared h

def Passed (shared : Shared n) (h : NodeAddr) : Prop :=
  shared.memory.head = h ∧ shared.memory.tail ≠ h ∨ IsUnlinked shared h

def FilledIn (shared : Shared n) (key : Int) (node : NodeAddr) : Prop :=
  shared.memory.key node = key ∧ shared.memory.next node = none

def EnqueueInv (thread : Fin n) (shared : Shared n) (ghost : Ghost) (key : Int) (node : NodeAddr) :
    EnqueuePc → Prop
  | .writeKey => True
  | .writeNext => shared.memory.key node = key
  | .loadTail | .protect _ => FilledIn shared key node
  | .check t => FilledIn shared key node ∧ shared.pointer (slot thread false) = some t
  | .readNext t => FilledIn shared key node ∧ Guards thread shared ghost false t
  | .helpTail t next =>
      FilledIn shared key node ∧ Guards thread shared ghost false t ∧ Follows thread shared t next
  | .link t => FilledIn shared key node ∧ Guards thread shared ghost false t
  | .swingTail t => Guards thread shared ghost false t ∧ Follows thread shared t node

def DequeueInv (thread : Fin n) (shared : Shared n) (ghost : Ghost) : DequeuePc → Prop
  | .loadHead | .protect _ => True
  | .check h => shared.pointer (slot thread false) = some h
  | .loadTail h => Guards thread shared ghost false h ∧ HeadSeen shared h
  | .readNext h t => Guards thread shared ghost false h ∧ (h ≠ t → Passed shared h)
  | .protectNext h t next =>
      Guards thread shared ghost false h ∧ (h ≠ t → Passed shared h) ∧
        ∀ succ, next = some succ → Follows thread shared h succ
  | .recheck h t next =>
      Guards thread shared ghost false h ∧ (h ≠ t → Passed shared h) ∧
        (∀ succ, next = some succ → Follows thread shared h succ) ∧
        shared.pointer (slot thread true) = next
  | .helpTail t next =>
      Guards thread shared ghost false t ∧ Follows thread shared t next ∧
        Guards thread shared ghost true next
  | .readKey h next =>
      Guards thread shared ghost false h ∧ Passed shared h ∧ Follows thread shared h next ∧
        Guards thread shared ghost true next
  | .swingHead h next data =>
      Guards thread shared ghost false h ∧ Passed shared h ∧ Follows thread shared h next ∧
        Guards thread shared ghost true next ∧ shared.memory.key next = data

def PcInv (thread : Fin n) (shared : Shared n) (ghost : Ghost) (rlist : List NodeAddr) : Pc → Prop
  | .enqueue key node pc => EnqueueInv thread shared ghost key node pc
  | .dequeue pc => DequeueInv thread shared ghost pc
  | .scan pc _ => ScanInv n ghost.guard rlist pc
  | _ => True

structure ThreadInv (thread : Fin n) (shared : Shared n) (ghost : Ghost) (priv : Priv) : Prop where
  holds : shared.Holds thread (priv.rlist ++ priv.pc.pending)
  owns : ∀ node, priv.pc.own = some node → shared.Owns thread node
  pc : PcInv thread shared ghost priv.rlist priv.pc

structure DataSteady (thread : Fin n) (guard : Nat → Option NodeAddr) (shared shared' : Shared n) :
    Prop where
  key : ∀ i node, guard i = some node → shared'.memory.key node = shared.memory.key node
  next : ∀ i node succ, guard i = some node → shared.memory.next node = some succ →
    shared'.memory.next node = some succ
  own_key : ∀ node, shared.custody node = .owned thread →
    shared'.memory.key node = shared.memory.key node
  own_next : ∀ node, shared.custody node = .owned thread →
    shared'.memory.next node = shared.memory.next node

structure EndsSteady (guard : Nat → Option NodeAddr) (shared shared' : Shared n) : Prop where
  seen : ∀ i h, guard i = some h → HeadSeen shared h → HeadSeen shared' h
  passed : ∀ i h, guard i = some h → Passed shared h → Passed shared' h
  wasLinked : ∀ i node, guard i = some node → shared'.custody node = .linked →
    shared.custody node = .linked
  frees : ∀ node, shared.custody node = .linked → shared'.frees node = shared.frees node

structure Rely (thread : Fin n) (before after : Shared n × Ghost) : Prop where
  hazards : Steady thread (OwnSlot thread) (before.1.HeldBy thread) before.1.toHazards before.2.guard
    after.1.toHazards after.2.guard
  data : DataSteady thread before.2.guard before.1 after.1
  ends : EndsSteady before.2.guard before.1 after.1

variable {shared shared' : Shared n} {ghost ghost' : Ghost} {thread other : Fin n} {off : Bool}
  {node t h next : NodeAddr} {key : Int} {pc : Pc} {priv : Priv} {guard : Nat → Option NodeAddr}

theorem DataSteady.of_memory_eq (hmemory : shared'.memory = shared.memory) :
    DataSteady thread guard shared shared' := by
  constructor <;> intros <;> simp_all

theorem DataSteady.of_sameExcept (hsame : Memory.SameExcept node shared.memory shared'.memory)
    (hclear : ∀ i, guard i ≠ some node) (howned : shared.custody node ≠ .owned thread) :
    DataSteady thread guard shared shared' where
  key i found hfound := hsame.key found fun heq => hclear i (heq ▸ hfound)
  next i found _ hfound hsucc := (hsame.next found fun heq => hclear i (heq ▸ hfound)).trans hsucc
  own_key found hfound := hsame.key found fun heq => howned (heq ▸ hfound)
  own_next found hfound := hsame.next found fun heq => howned (heq ▸ hfound)

theorem EndsSteady.of_custody (hhead : shared'.memory.head = shared.memory.head)
    (htail : shared'.memory.tail = shared.memory.tail)
    (hguarded : ∀ i node, guard i = some node → shared'.custody node = shared.custody node)
    (hfrees : ∀ node, shared.custody node = .linked → shared'.frees node = shared.frees node) :
    EndsSteady guard shared shared' where
  seen i h hguard hseen := by
    rcases hseen with hseen | ⟨unlinker, hunlinked⟩
    · exact .inl (hhead.trans hseen)
    · exact .inr ⟨unlinker, (hguarded i h hguard).trans hunlinked⟩
  passed i h hguard hpassed := by
    rcases hpassed with ⟨hseen, hne⟩ | ⟨unlinker, hunlinked⟩
    · exact .inl ⟨hhead.trans hseen, htail ▸ hne⟩
    · exact .inr ⟨unlinker, (hguarded i h hguard).trans hunlinked⟩
  wasLinked i node hguard hlinked := (hguarded i node hguard).symm.trans hlinked
  frees := hfrees

theorem EndsSteady.of_eq (hmemory : shared'.memory = shared.memory)
    (hcustody : shared'.custody = shared.custody) (hfrees : shared'.frees = shared.frees) :
    EndsSteady guard shared shared' :=
  .of_custody (by rw [hmemory]) (by rw [hmemory]) (fun _ _ _ => by rw [hcustody])
    fun _ _ => by rw [hfrees]

theorem Rely.refl {state : Shared n × Ghost} : Rely thread state state :=
  ⟨.refl, .of_memory_eq rfl, .of_eq rfl rfl rfl⟩

variable {before after : Shared n × Ghost}

theorem Rely.guards (hrely : Rely thread before after) (hguards : Guards thread before.1 before.2 off node) :
    Guards thread after.1 after.2 off node where
  guard := (hrely.hazards.guards _ ⟨off, rfl⟩).trans hguards.guard
  current := hrely.hazards.current_of_guard hguards.guard hguards.current

theorem GlobalInv.next_linked (hglobal : GlobalInv shared ghost)
    (hlinked : shared.custody node = .linked) (hnext : shared.memory.next node = some next) :
    shared.custody next = .linked := by
  rw [← hglobal.linked_iff] at hlinked ⊢
  exact List.mem_cons_of_mem _ (hglobal.valid.next_mem hlinked hnext)

section

variable (hrely : Rely thread before after)
include hrely

theorem Rely.follows (hglobal : GlobalInv before.1 before.2) (hguards : Guards thread before.1 before.2 off node)
    (hfollows : Follows thread before.1 node next) : Follows thread after.1 node next where
  next := hrely.data.next _ node next hguards.guard hfollows.next
  current hlinked := by
    have hbefore := hrely.ends.wasLinked _ node hguards.guard hlinked
    have hnext := hglobal.next_linked hbefore hfollows.next
    exact hrely.hazards.current next (hrely.ends.frees next hnext) (hfollows.current hbefore)

theorem Rely.filledIn (howned : before.1.custody node = .owned thread)
    (hfilled : FilledIn before.1 key node) : FilledIn after.1 key node :=
  ⟨(hrely.data.own_key node howned).trans hfilled.1, (hrely.data.own_next node howned).trans hfilled.2⟩

theorem Rely.enqueueInv (hglobal : GlobalInv before.1 before.2) {enqueuePc : EnqueuePc}
    (howned : ∀ found, (Pc.enqueue key node enqueuePc).own = some found → before.1.custody found = .owned thread)
    (hinv : EnqueueInv thread before.1 before.2 key node enqueuePc) :
    EnqueueInv thread after.1 after.2 key node enqueuePc := by
  cases enqueuePc with
  | writeKey => trivial
  | writeNext => exact (hrely.data.own_key node (howned node rfl)).trans hinv
  | loadTail | protect t => exact hrely.filledIn (howned node rfl) hinv
  | check t =>
    exact ⟨hrely.filledIn (howned node rfl) hinv.1, (hrely.hazards.pointer _ ⟨false, rfl⟩).trans hinv.2⟩
  | readNext t | link t => exact ⟨hrely.filledIn (howned node rfl) hinv.1, hrely.guards hinv.2⟩
  | helpTail t next =>
    obtain ⟨hfilled, hguards, hfollows⟩ := hinv
    exact ⟨hrely.filledIn (howned node rfl) hfilled, hrely.guards hguards, hrely.follows hglobal hguards hfollows⟩
  | swingTail t => exact ⟨hrely.guards hinv.1, hrely.follows hglobal hinv.1 hinv.2⟩

theorem Rely.dequeueInv (hglobal : GlobalInv before.1 before.2)
    {dequeuePc : DequeuePc} (hinv : DequeueInv thread before.1 before.2 dequeuePc) :
    DequeueInv thread after.1 after.2 dequeuePc := by
  have hpass : ∀ h t, Guards thread before.1 before.2 false h → (h ≠ t → Passed before.1 h) →
      h ≠ t → Passed after.1 h :=
    fun h t hguards hpassed hne => hrely.ends.passed _ h hguards.guard (hpassed hne)
  cases dequeuePc with
  | loadHead | protect h => trivial
  | check h => exact (hrely.hazards.pointer _ ⟨false, rfl⟩).trans hinv
  | loadTail h => exact ⟨hrely.guards hinv.1, hrely.ends.seen _ h hinv.1.guard hinv.2⟩
  | readNext h t => exact ⟨hrely.guards hinv.1, hpass h t hinv.1 hinv.2⟩
  | protectNext h t next =>
    obtain ⟨hguards, hpassed, hfollows⟩ := hinv
    exact ⟨hrely.guards hguards, hpass h t hguards hpassed,
      fun succ hsucc => hrely.follows hglobal hguards (hfollows succ hsucc)⟩
  | recheck h t next =>
    obtain ⟨hguards, hpassed, hfollows, hpointer⟩ := hinv
    exact ⟨hrely.guards hguards, hpass h t hguards hpassed,
      fun succ hsucc => hrely.follows hglobal hguards (hfollows succ hsucc),
      (hrely.hazards.pointer _ ⟨true, rfl⟩).trans hpointer⟩
  | helpTail t next =>
    obtain ⟨hguards, hfollows, hnext⟩ := hinv
    exact ⟨hrely.guards hguards, hrely.follows hglobal hguards hfollows, hrely.guards hnext⟩
  | readKey h next =>
    obtain ⟨hguards, hpassed, hfollows, hnext⟩ := hinv
    exact ⟨hrely.guards hguards, hrely.ends.passed _ h hguards.guard hpassed,
      hrely.follows hglobal hguards hfollows, hrely.guards hnext⟩
  | swingHead h next data =>
    obtain ⟨hguards, hpassed, hfollows, hnext, hkey⟩ := hinv
    exact ⟨hrely.guards hguards, hrely.ends.passed _ h hguards.guard hpassed,
      hrely.follows hglobal hguards hfollows, hrely.guards hnext,
      (hrely.data.key _ next hnext.guard).trans hkey⟩

theorem Rely.threadInv (hglobal : GlobalInv before.1 before.2)
    (hinv : ThreadInv thread before.1 before.2 priv) : ThreadInv thread after.1 after.2 priv := by
  have hheld : ∀ node ∈ priv.rlist ++ priv.pc.pending, before.1.HeldBy thread node :=
    fun node hmem => .inr (hinv.holds.unlinked node hmem)
  refine ⟨hinv.holds.steady hrely.hazards hheld, fun node hown => ?_, ?_⟩
  · exact (hinv.owns node hown).steady hrely.hazards (.inl (hinv.owns node hown).owned)
  · obtain ⟨hholds, howns, hpc⟩ := hinv
    obtain ⟨mine, pc⟩ := priv
    cases pc with
    | enqueue key node enqueuePc =>
      exact hrely.enqueueInv hglobal (fun found hown => (howns found hown).owned) hpc
    | dequeue dequeuePc => exact hrely.dequeueInv hglobal hpc
    | scan scanPc back => exact ScanInv.steady hpc hrely.hazards hholds hheld
    | _ => trivial

end

end Lfmr.HazardQueue
