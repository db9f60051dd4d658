import Lfmr.HazardList
import Lfmr.Proof.SmrScan

/-!
# What holds of the list with hazard pointers between two accesses

As for the other lists, the nodes of the list form a sorted chain, and unlinked nodes are marked. The
ghost value holds the chain and the node that each hazard pointer guards.

A thread in its loop knows that `prev` is guarded by one of its slots and, from the first check on,
`cur` by the other one. A guarded node that is not marked is linked, so what it points to is linked
too: this is what the check after the announcement is about.
-/

namespace Lfmr.HazardList

open Lfmr.Concurrency Lfmr.Concurrency.Hazards Lfmr.MarkedList Lfmr.Smr

variable {n : Nat}

structure Ghost where
  chain : List NodeAddr
  guard : Nat → Option NodeAddr

structure GlobalInv (shared : Shared n) (ghost : Ghost) : Prop where
  valid : shared.heap.Valid ghost.chain
  linked_iff : ∀ node, node ∈ ghost.chain ↔ shared.custody node = .linked
  marked : ∀ node thread, shared.custody node = .unlinked thread →
    (shared.heap.next node).mark = true
  hazards : shared.toHazards.Valid ghost.guard
  bound : ∀ i node, ghost.guard i = some node → i < H n

def Task.own : Task → Option NodeAddr
  | .insert _ node => some node
  | _ => none

def Pc.own : Pc → Option NodeAddr
  | .walk task _ _ => task.own
  | .link _ node _ _ _ => some node
  | .retire _ back | .scan _ back => back.own
  | .freeNode node => some node
  | _ => none

def Pc.pending : Pc → List NodeAddr
  | .retire node _ => [node]
  | .scan pc _ => pc.tmplist
  | _ => []

def Pc.isFreeing : Pc → Bool
  | .retire _ _ | .scan _ _ => true
  | _ => false

structure Guards (thread : Fin n) (shared : Shared n) (ghost : Ghost) (off : Bool) (node : NodeAddr) :
    Prop where
  guard : ghost.guard (slot thread off) = some node
  current : shared.Current thread node

def Below (thread : Fin n) (shared : Shared n) (ghost : Ghost) (off : Bool) (key : Int) (prev : Loc) :
    Prop :=
  ∀ node, prev = .next node → Guards thread shared ghost off node ∧ shared.heap.key node < key

def Above (thread : Fin n) (shared : Shared n) (ghost : Ghost) (off : Bool) (key : Int)
    (cur : Option NodeAddr) : Prop :=
  ∀ node, cur = some node → Guards thread shared ghost off node ∧ key < shared.heap.key node

def WalkInv (thread : Fin n) (shared : Shared n) (ghost : Ghost) (key : Int) (off : Bool) :
    WalkPc → Prop
  | .load => True
  | .protect prev _ => Below thread shared ghost (!off) key prev
  | .check prev cur =>
      Below thread shared ghost (!off) key prev ∧ shared.pointer (slot thread off) = some cur
  | .readNext prev cur =>
      Below thread shared ghost (!off) key prev ∧ Guards thread shared ghost off cur
  | .unlink prev cur next =>
      Below thread shared ghost (!off) key prev ∧ Guards thread shared ghost off cur ∧
        shared.heap.next cur = ⟨next, true⟩
  | .searchKey prev cur _ =>
      Below thread shared ghost (!off) key prev ∧ Guards thread shared ghost off cur
  | .searchRecheck prev cur _ ckey =>
      Below thread shared ghost (!off) key prev ∧ Guards thread shared ghost off cur ∧
        shared.heap.key cur = ckey
  | .findRecheck prev cur _ | .findKey prev cur _ =>
      Below thread shared ghost (!off) key prev ∧ Guards thread shared ghost off cur
  | .findKeyAgain prev cur _ =>
      Below thread shared ghost (!off) key prev ∧ Guards thread shared ghost off cur ∧
        key ≤ shared.heap.key cur

def LinkInv (shared : Shared n) (key : Int) (node : NodeAddr) (cur : Option NodeAddr) : LinkPc → Prop
  | .writeKey => True
  | .writeNext => shared.heap.key node = key
  | .cas => shared.heap.key node = key ∧ shared.heap.next node = ⟨cur, false⟩

def DeleteInv (shared : Shared n) (cur : NodeAddr) (next : Option NodeAddr) : DeletePc → Prop
  | .mark => True
  | .unlink => shared.heap.next cur = ⟨next, true⟩

def PcInv (thread : Fin n) (shared : Shared n) (ghost : Ghost) (rlist : List NodeAddr) : Pc → Prop
  | .walk task off pc => WalkInv thread shared ghost task.key off pc
  | .link key node prev cur pc =>
      (∃ off, Below thread shared ghost (!off) key prev ∧ Above thread shared ghost off key cur) ∧
        LinkInv shared key node cur pc
  | .delete key prev cur next pc =>
      (∃ off, Below thread shared ghost (!off) key prev ∧ Guards thread shared ghost off cur) ∧
        DeleteInv shared cur next pc
  | .retire _ back => back.isFreeing = false ∧ PcInv thread shared ghost rlist back
  | .scan pc back =>
      ScanInv n ghost.guard rlist pc ∧ back.isFreeing = false ∧ PcInv thread shared ghost rlist back
  | _ => True

theorem Pc.pending_eq_nil {pc : Pc} (hfreeing : pc.isFreeing = false) : pc.pending = [] := by
  cases pc with
  | retire node back | scan pc back => simp [Pc.isFreeing] at hfreeing
  | _ => rfl

theorem PcInv.of_not_isFreeing {thread : Fin n} {shared : Shared n} {ghost : Ghost} {pc : Pc}
    {rlist : List NodeAddr} (hinv : PcInv thread shared ghost rlist pc)
    (hfreeing : pc.isFreeing = false) (rlist' : List NodeAddr) :
    PcInv thread shared ghost rlist' pc := by
  cases pc with
  | retire node back | scan pc back => simp [Pc.isFreeing] at hfreeing
  | _ => exact hinv

structure ThreadInv (thread : Fin n) (shared : Shared n) (ghost : Ghost) (priv : Priv) : Prop where
  holds : shared.Holds thread (priv.rlist ++ priv.pc.pending)
  owns : ∀ node, priv.pc.own = some node → shared.Owns thread node
  pc : PcInv thread shared ghost priv.rlist priv.pc

structure DataSteady (thread : Fin n) (guard : Nat → Option NodeAddr) (shared shared' : Shared n) :
    Prop where
  key : ∀ i node, guard i = some node → shared'.heap.key node = shared.heap.key node
  frozen : ∀ i node, guard i = some node → (shared.heap.next node).mark = true →
    shared'.heap.next node = shared.heap.next node
  own_key : ∀ node, shared.custody node = .owned thread →
    shared'.heap.key node = shared.heap.key node
  own_next : ∀ node, shared.custody node = .owned thread →
    shared'.heap.next node = shared.heap.next node

structure Rely (thread : Fin n) (before after : Shared n × Ghost) : Prop where
  hazards : Steady thread (OwnSlot thread) (before.1.HeldBy thread) before.1.toHazards before.2.guard
    after.1.toHazards after.2.guard
  data : DataSteady thread before.2.guard before.1 after.1

variable {shared shared' : Shared n} {ghost ghost' : Ghost} {thread other : Fin n} {off : Bool}
  {prev : Loc} {cur node : NodeAddr} {next : Option NodeAddr} {key : Int} {pc : Pc} {priv : Priv}
  {rlist : List NodeAddr} {guard : Nat → Option NodeAddr} {isOwn : Nat → Prop}
  {isHeld : NodeAddr → Prop}

theorem DataSteady.of_heap_eq (hheap : shared'.heap = shared.heap) : DataSteady thread guard shared shared' := by
  constructor <;> intros <;> rw [hheap]

theorem DataSteady.of_sameExcept (hsame : Heap.SameExcept node shared.heap shared'.heap)
    (hclear : ∀ i, guard i ≠ some node) (howned : shared.custody node ≠ .owned thread) :
    DataSteady thread guard shared shared' where
  key i found hfound := hsame.key found fun heq => hclear i (heq ▸ hfound)
  frozen i found hfound _ := hsame.next found fun heq => hclear i (heq ▸ hfound)
  own_key found hfound := hsame.key found fun heq => howned (heq ▸ hfound)
  own_next found hfound := hsame.next found fun heq => howned (heq ▸ hfound)

theorem Rely.refl {state : Shared n × Ghost} : Rely thread state state :=
  ⟨.refl, .of_heap_eq rfl⟩

section Steady

variable (hsteady : Steady thread isOwn isHeld shared.toHazards ghost.guard shared'.toHazards ghost'.guard)
  (hdata : DataSteady thread ghost.guard shared shared')

include hsteady

theorem Guards.steady (hguards : Guards thread shared ghost off node)
    (hown : isOwn (slot thread off)) : Guards thread shared' ghost' off node where
  guard := (hsteady.guards _ hown).trans hguards.guard
  current := hsteady.current_of_guard hguards.guard hguards.current

theorem Below.steady (hbelow : Below thread shared ghost off key prev)
    (hkey : ∀ i node, ghost.guard i = some node → shared'.heap.key node = shared.heap.key node)
    (hown : isOwn (slot thread off)) : Below thread shared' ghost' off key prev := by
  intro node hprev
  obtain ⟨hguards, hlt⟩ := hbelow node hprev
  exact ⟨hguards.steady hsteady hown, by rwa [hkey _ node hguards.guard]⟩

theorem Above.steady {cur : Option NodeAddr} (habove : Above thread shared ghost off key cur)
    (hkey : ∀ i node, ghost.guard i = some node → shared'.heap.key node = shared.heap.key node)
    (hown : isOwn (slot thread off)) : Above thread shared' ghost' off key cur := by
  intro node hcur
  obtain ⟨hguards, hlt⟩ := habove node hcur
  exact ⟨hguards.steady hsteady hown, by rwa [hkey _ node hguards.guard]⟩

include hdata

theorem WalkInv.steady {walkPc : WalkPc} (hinv : WalkInv thread shared ghost key off walkPc)
    (hown : ∀ off, isOwn (slot thread off)) : WalkInv thread shared' ghost' key off walkPc := by
  cases walkPc with
  | load => trivial
  | protect prev cur => exact Below.steady hsteady hinv hdata.key (hown _)
  | check prev cur =>
    exact ⟨hinv.1.steady hsteady hdata.key (hown _), (hsteady.pointer _ (hown off)).trans hinv.2⟩
  | unlink prev cur next =>
    obtain ⟨hbelow, hguards, hnext⟩ := hinv
    refine ⟨hbelow.steady hsteady hdata.key (hown _), hguards.steady hsteady (hown _), ?_⟩
    exact (hdata.frozen _ cur hguards.guard (by rw [hnext])).trans hnext
  | searchRecheck prev cur next ckey =>
    obtain ⟨hbelow, hguards, hkey⟩ := hinv
    refine ⟨hbelow.steady hsteady hdata.key (hown _), hguards.steady hsteady (hown _), ?_⟩
    exact (hdata.key _ cur hguards.guard).trans hkey
  | findKeyAgain prev cur next =>
    obtain ⟨hbelow, hguards, hkey⟩ := hinv
    refine ⟨hbelow.steady hsteady hdata.key (hown _), hguards.steady hsteady (hown _), ?_⟩
    rwa [hdata.key _ cur hguards.guard]
  | readNext prev cur | searchKey prev cur next | findRecheck prev cur next | findKey prev cur next =>
    exact ⟨hinv.1.steady hsteady hdata.key (hown _), hinv.2.steady hsteady (hown _)⟩

/-- By induction on the place, since a scan knows where it returns to. -/
theorem PcInv.steady (hinv : PcInv thread shared ghost rlist pc)
    (hown : ∀ off, isOwn (slot thread off)) (hholds : shared.Holds thread (rlist ++ pc.pending))
    (hheld : ∀ node ∈ rlist ++ pc.pending, isHeld node)
    (howns : ∀ node, pc.own = some node → shared.custody node = .owned thread) :
    PcInv thread shared' ghost' rlist pc := by
  induction pc with
  | walk task off pc => exact WalkInv.steady hsteady hdata hinv hown
  | link key node prev cur pc =>
    obtain ⟨⟨off, hbelow, habove⟩, hlink⟩ := hinv
    refine ⟨⟨off, hbelow.steady hsteady hdata.key (hown _), habove.steady hsteady hdata.key (hown _)⟩, ?_⟩
    have howned := howns node rfl
    cases pc with
    | writeKey => trivial
    | writeNext => exact (hdata.own_key node howned).trans hlink
    | cas =>
      exact ⟨(hdata.own_key node howned).trans hlink.1, (hdata.own_next node howned).trans hlink.2⟩
  | delete key prev cur next pc =>
    obtain ⟨⟨off, hbelow, hguards⟩, hdelete⟩ := hinv
    refine ⟨⟨off, hbelow.steady hsteady hdata.key (hown _), hguards.steady hsteady (hown _)⟩, ?_⟩
    cases pc with
    | mark => trivial
    | unlink => exact (hdata.frozen _ cur hguards.guard (by rw [hdelete])).trans hdelete
  | retire node back ih =>
    refine ⟨hinv.1, ih hinv.2 ?_ ?_ howns⟩
    · rw [Pc.pending_eq_nil hinv.1, List.append_nil]
      exact hholds.left
    · intro found hmem
      rw [Pc.pending_eq_nil hinv.1, List.append_nil] at hmem
      exact hheld found (by simp [hmem])
  | scan pc back ih =>
    obtain ⟨hscan, hfreeing, hback⟩ := hinv
    refine ⟨hscan.steady hsteady hholds hheld, hfreeing, ih hback ?_ ?_ howns⟩
    · rw [Pc.pending_eq_nil hfreeing, List.append_nil]
      exact hholds.left
    · intro found hmem
      rw [Pc.pending_eq_nil hfreeing, List.append_nil] at hmem
      exact hheld found (by simp [hmem])
  | _ => trivial

end Steady

theorem Rely.threadInv {before after : Shared n × Ghost} (hrely : Rely thread before after)
    (hinv : ThreadInv thread before.1 before.2 priv) : ThreadInv thread after.1 after.2 priv where
  holds := hinv.holds.steady hrely.hazards fun node hmem => .inr (hinv.holds.unlinked node hmem)
  owns node hown := (hinv.owns node hown).steady hrely.hazards (.inl (hinv.owns node hown).owned)
  pc := hinv.pc.steady hrely.hazards hrely.data (fun off => ⟨off, rfl⟩) hinv.holds
    (fun node hmem => .inr (hinv.holds.unlinked node hmem)) fun node hown => (hinv.owns node hown).owned

end Lfmr.HazardList
