import Lfmr.Concurrency.Role
import Lfmr.LockFreeList

/-!
# What holds of the lock-free list between two accesses

The invariant is split into a fact about the memory and one about each thread, both relative to a
ghost value: the chain of linked nodes, the node each thread has yet to retire, and a run of the
atomic set with the same history.

A thread in its loop knows that it reaches `prev` and `cur`, that the key of `prev` is too small, and
which results it has noted on its way; `Rely` is what others leave as it is.
-/

namespace Lfmr.LockFreeList

open Lfmr.Concurrency Lfmr.MarkedList

variable {n : Nat}

structure Ghost (n : Nat) extends Account (Fin n) NodeAddr Op Bool where
  chain : List NodeAddr

structure GlobalInv (shared : Shared n) (ghost : Ghost n) : Prop where
  valid : shared.heap.Valid ghost.chain
  linked_iff : ∀ node, node ∈ ghost.chain ↔ shared.stage node = .linked
  marked : ∀ node unlinker openWhen, shared.stage node = .unlinked unlinker openWhen →
    (shared.heap.next node).mark = true
  life : shared.toLife.Valid (fun node => (shared.heap.next node).addr) ghost.retiring
  run : NotingRun setSpec ∅ shared.history (shared.heap.keys ghost.chain) ghost.phase ghost.noted

def Op.key : Op → Int
  | .insert key | .delete key | .search key => key

/-- The result of a call that finds its key present or absent and leaves the set as it is. -/
def Op.sighting : Op → Bool → Option Bool
  | .insert _, true => some false
  | .insert _, false | .delete _, true => none
  | .delete _, false => some false
  | .search _, present => some present

theorem setSpec_of_sighting {op : Op} {present result : Bool} {set : Finset Int}
    (hsighting : op.sighting present = some result) (hpresent : op.key ∈ set ↔ present = true) :
    setSpec op set = (set, result) := by
  cases op <;> cases present <;> simp_all [Op.sighting, Op.key, setSpec]

@[simp]
theorem Task.op_key (task : Task) : task.op.key = task.key := by
  cases task <;> rfl

def Noted (ghost : Ghost n) (thread : Fin n) (op : Op) (present : Bool) : Prop :=
  ∀ result, op.sighting present = some result → result ∈ ghost.noted thread

def Ghost.note (ghost : Ghost n) (thread : Fin n) (op : Op) (present : Bool) : Ghost n :=
  match op.sighting present with
  | some result => ⟨ghost.toAccount.note thread result, ghost.chain⟩
  | none => ghost

variable {shared shared' : Shared n} {ghost ghost' : Ghost n} {thread other : Fin n} {op : Op}
  {present : Bool} {task : Task} {prev : Loc} {cur node : NodeAddr} {next : Option NodeAddr} {key : Int}

theorem noted_note (ghost : Ghost n) (thread : Fin n) (op : Op) (present : Bool) :
    Noted (ghost.note thread op present) thread op present := by
  intro result hsighting
  simp [Ghost.note, hsighting, Account.note]

theorem same_note (hne : other ≠ thread) :
    Account.Same other ghost.toAccount (ghost.note thread op present).toAccount := by
  unfold Ghost.note
  split
  · exact Account.same_note hne
  · exact .refl

theorem role_note {isInside : Bool} {owns retires : Option NodeAddr} {op' : Op}
    (hrole : Role thread shared.toLife ghost.toAccount isInside owns retires (.pending op)) :
    Role thread shared.toLife (ghost.note thread op' present).toAccount isInside owns retires (.pending op) := by
  unfold Ghost.note
  split
  · exact hrole.note
  · exact hrole

theorem GlobalInv.note (hglobal : GlobalInv shared ghost) (hphase : ghost.phase thread = .pending op)
    (hpresent : op.key ∈ shared.heap.keys ghost.chain ↔ present = true) :
    GlobalInv shared (ghost.note thread op present) := by
  unfold Ghost.note
  split
  · rename_i result hsighting
    exact { hglobal with run := hglobal.run.note thread op result hphase (setSpec_of_sighting hsighting hpresent) }
  · exact hglobal

def Task.own : Task → Option NodeAddr
  | .insert _ node => some node
  | _ => none

def Pc.own : Pc → Option NodeAddr
  | .alloc _ (.enter node) => node
  | .enter task | .walk task _ => task.own
  | .link _ node _ _ _ => some node
  | .exit _ unused => unused
  | .freeNode _ node => some node
  | _ => none

def Pc.isInside : Pc → Bool
  | .alloc _ .retryExit | .alloc _ .retryNewNode | .walk _ _ | .link _ _ _ _ _ | .delete _ _ _ _ _ | .exit _ _ => true
  | _ => false

def Pc.progress : Pc → Phase Op Bool
  | .idle => .idle
  | .alloc key _ => .pending (.insert key)
  | .enter task | .walk task _ => .pending task.op
  | .link key _ _ _ _ => .pending (.insert key)
  | .delete key _ _ _ .mark => .pending (.delete key)
  | .delete _ _ _ _ _ => .done true
  | .exit result _ | .freeNode result _ | .ret result => .done result

def Below (thread : Fin n) (shared : Shared n) (key : Int) (prev : Loc) : Prop :=
  ∀ node, prev = .next node → shared.Reaches thread node ∧ shared.heap.key node < key

def Above (thread : Fin n) (shared : Shared n) (key : Int) (cur : Option NodeAddr) : Prop :=
  ∀ node, cur = some node → shared.Reaches thread node ∧ key < shared.heap.key node

/-- Facts about the nodes read in the loop. `cur` was unmarked when `next` was read from it, so it was
linked: its key was present, and if it had no successor any greater key was absent. -/
structure Seen (thread : Fin n) (shared : Shared n) (ghost : Ghost n) (task : Task) (cur : NodeAddr)
    (next : Option NodeAddr) : Prop where
  reaches : shared.Reaches thread cur
  reaches_next : ∀ node, next = some node → shared.Reaches thread node
  present : shared.heap.key cur = task.key → Noted ghost thread task.op true
  absent : next = none → shared.heap.key cur < task.key → Noted ghost thread task.op false

def WalkInv (thread : Fin n) (shared : Shared n) (ghost : Ghost n) (task : Task) : WalkPc → Prop
  | .first | .load => True
  | .check prev cur | .readNext prev cur => Below thread shared task.key prev ∧ shared.Reaches thread cur
  | .unlink prev cur next =>
      Below thread shared task.key prev ∧ shared.Reaches thread cur ∧
        shared.heap.next cur = ⟨next, true⟩
  | .retire prev cur next =>
      Below thread shared task.key prev ∧ shared.Reaches thread cur ∧
        shared.heap.next cur = ⟨next, true⟩ ∧ (next = none → Noted ghost thread task.op false)
  | .readKey prev cur next =>
      Below thread shared task.key prev ∧ Seen thread shared ghost task cur next
  | .recheck prev cur next ckey =>
      Below thread shared task.key prev ∧ Seen thread shared ghost task cur next ∧
        shared.heap.key cur = ckey

def LinkInv (shared : Shared n) (key : Int) (node : NodeAddr) (cur : Option NodeAddr) : LinkPc → Prop
  | .writeKey => True
  | .writeNext => shared.heap.key node = key
  | .cas => shared.heap.key node = key ∧ shared.heap.next node = ⟨cur, false⟩

def DeleteInv (shared : Shared n) (key : Int) (cur : NodeAddr) (next : Option NodeAddr) :
    DeletePc → Prop
  | .mark => shared.heap.key cur = key
  | _ => shared.heap.next cur = ⟨next, true⟩

def PcInv (thread : Fin n) (shared : Shared n) (ghost : Ghost n) : Pc → Prop
  | .walk task pc => WalkInv thread shared ghost task pc
  | .link key node prev cur pc =>
      Below thread shared key prev ∧ Above thread shared key cur ∧ LinkInv shared key node cur pc
  | .delete key prev cur next pc =>
      Below thread shared key prev ∧ shared.Reaches thread cur ∧ DeleteInv shared key cur next pc
  | _ => True

def ThreadInv (thread : Fin n) (shared : Shared n) (ghost : Ghost n) (pc : Pc) : Prop :=
  Role thread shared.toLife ghost.toAccount pc.isInside pc.own pc.retiring pc.progress ∧
    PcInv thread shared ghost pc

structure DataSteady (thread : Fin n) (shared shared' : Shared n) : Prop where
  key : ∀ node, shared.Reaches thread node → shared'.heap.key node = shared.heap.key node
  frozen : ∀ node, shared.Reaches thread node → (shared.heap.next node).mark = true →
    shared'.heap.next node = shared.heap.next node
  own_key : ∀ node, shared.stage node = .owned thread →
    shared'.heap.key node = shared.heap.key node
  own_next : ∀ node, shared.stage node = .owned thread →
    shared'.heap.next node = shared.heap.next node

structure Rely (thread : Fin n) (before after : Shared n × Ghost n) : Prop where
  life : Life.Steady thread before.1.toLife after.1.toLife
  data : DataSteady thread before.1 after.1
  account : Account.Same thread before.2.toAccount after.2.toAccount

theorem DataSteady.of_heap_eq (hheap : shared'.heap = shared.heap) : DataSteady thread shared shared' := by
  constructor <;> intros <;> rw [hheap]

theorem DataSteady.of_sameExcept (hsame : Heap.SameExcept node shared.heap shared'.heap)
    (hreach : ¬ shared.Reaches thread node) (howned : shared.stage node ≠ .owned thread) :
    DataSteady thread shared shared' where
  key other hother := hsame.key other fun heq => hreach (heq ▸ hother)
  frozen other hother _ := hsame.next other fun heq => hreach (heq ▸ hother)
  own_key other hother := hsame.key other fun heq => howned (heq ▸ hother)
  own_next other hother := hsame.next other fun heq => howned (heq ▸ hother)

theorem Below.steady (hbelow : Below thread shared key prev) (hlife : Life.Steady thread shared.toLife shared'.toLife)
    (hdata : DataSteady thread shared shared') : Below thread shared' key prev := by
  intro node hprev
  obtain ⟨hreach, hlt⟩ := hbelow node hprev
  exact ⟨hlife.reaches node hreach, by rwa [hdata.key node hreach]⟩

theorem Above.steady {cur : Option NodeAddr} (habove : Above thread shared key cur)
    (hlife : Life.Steady thread shared.toLife shared'.toLife)
    (hdata : DataSteady thread shared shared') : Above thread shared' key cur := by
  intro node hcur
  obtain ⟨hreach, hlt⟩ := habove node hcur
  exact ⟨hlife.reaches node hreach, by rwa [hdata.key node hreach]⟩

theorem Rely.refl {state : Shared n × Ghost n} : Rely thread state state :=
  ⟨.refl, .of_heap_eq rfl, .refl⟩

variable {before after : Shared n × Ghost n} {pc : Pc}

section

variable (hrely : Rely thread before after)
include hrely

theorem Rely.frozen (hreach : before.1.Reaches thread cur)
    (hnext : before.1.heap.next cur = ⟨next, true⟩) : after.1.heap.next cur = ⟨next, true⟩ := by
  rw [hrely.data.frozen cur hreach (by rw [hnext]), hnext]

theorem Rely.noted_iff : Noted after.2 thread op present ↔ Noted before.2 thread op present := by
  simp only [Noted, hrely.account.noted]

theorem Rely.seen (hseen : Seen thread before.1 before.2 task cur next) :
    Seen thread after.1 after.2 task cur next := by
  have hkey := hrely.data.key cur hseen.reaches
  constructor
  · exact hrely.life.reaches cur hseen.reaches
  · exact fun node hnode => hrely.life.reaches node (hseen.reaches_next node hnode)
  · rw [hkey, hrely.noted_iff]
    exact hseen.present
  · rw [hkey, hrely.noted_iff]
    exact hseen.absent

theorem Rely.walkInv {pc : WalkPc}
    (hinv : WalkInv thread before.1 before.2 task pc) : WalkInv thread after.1 after.2 task pc := by
  cases pc with
  | first | load => trivial
  | check prev cur | readNext prev cur =>
    exact ⟨hinv.1.steady hrely.life hrely.data, hrely.life.reaches cur hinv.2⟩
  | unlink prev cur next =>
    obtain ⟨hbelow, hreach, hnext⟩ := hinv
    exact ⟨hbelow.steady hrely.life hrely.data, hrely.life.reaches cur hreach, hrely.frozen hreach hnext⟩
  | retire prev cur next =>
    obtain ⟨hbelow, hreach, hnext, habsent⟩ := hinv
    refine ⟨hbelow.steady hrely.life hrely.data, hrely.life.reaches cur hreach, hrely.frozen hreach hnext, ?_⟩
    rwa [hrely.noted_iff]
  | readKey prev cur next => exact ⟨hinv.1.steady hrely.life hrely.data, hrely.seen hinv.2⟩
  | recheck prev cur next ckey =>
    obtain ⟨hbelow, hseen, hckey⟩ := hinv
    refine ⟨hbelow.steady hrely.life hrely.data, hrely.seen hseen, ?_⟩
    rwa [hrely.data.key cur hseen.reaches]

theorem Rely.threadInv (hinv : ThreadInv thread before.1 before.2 pc) : ThreadInv thread after.1 after.2 pc := by
  obtain ⟨hrole, hpc⟩ := hinv
  refine ⟨hrole.steady hrely.life hrely.account, ?_⟩
  cases pc with
  | walk task pc => exact hrely.walkInv hpc
  | link key node prev cur pc =>
    obtain ⟨hbelow, habove, hlink⟩ := hpc
    have hown := hrole.own node rfl
    refine ⟨hbelow.steady hrely.life hrely.data, habove.steady hrely.life hrely.data, ?_⟩
    cases pc with
    | writeKey => trivial
    | writeNext => exact (hrely.data.own_key node hown).trans hlink
    | cas =>
      exact ⟨(hrely.data.own_key node hown).trans hlink.1, (hrely.data.own_next node hown).trans hlink.2⟩
  | delete key prev cur next pc =>
    obtain ⟨hbelow, hreach, hdelete⟩ := hpc
    refine ⟨hbelow.steady hrely.life hrely.data, hrely.life.reaches cur hreach, ?_⟩
    cases pc with
    | mark => exact (hrely.data.key cur hreach).trans hdelete
    | unlink | retire => exact hrely.frozen hreach hdelete
  | _ => trivial

end

end Lfmr.LockFreeList
