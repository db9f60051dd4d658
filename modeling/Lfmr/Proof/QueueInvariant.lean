import Lfmr.Concurrency.Linked
import Lfmr.Concurrency.Role
import Lfmr.LockFreeQueue

/-!
# What holds of the lock-free queue between two accesses

The nodes from the head on form a list that ends where `next` is `NULL`, and the tail is one of them.
A node is taken from the list only when it has a successor, so `NULL` is read from linked nodes only:
from the last one.

A `dequeue` that has read the head knows that it is still the head or has been unlinked; if it has then
read a tail other than the head, the tail does not point to that node while it is the head.
-/

namespace Lfmr.LockFreeQueue

open Lfmr.Concurrency

variable {n : Nat}

structure Ghost (n : Nat) extends Account (Fin n) NodeAddr Op Result where
  rest : List NodeAddr

structure GlobalInv (shared : Shared n) (ghost : Ghost n) : Prop where
  linked : Linked shared.next (shared.next shared.head) ghost.rest
  nodup : (shared.head :: ghost.rest).Nodup
  linked_iff : ∀ node, node ∈ shared.head :: ghost.rest ↔ shared.stage node = .linked
  tail_linked : shared.stage shared.tail = .linked
  unlinked_next : ∀ node unlinker openWhen, shared.stage node = .unlinked unlinker openWhen →
    shared.next node ≠ none
  life : shared.toLife.Valid shared.next ghost.retiring
  keys : shared.linkedKeys = shared.unlinkedKeys ++ ghost.rest.map shared.key
  run : NotingRun queueSpec [] shared.history (ghost.rest.map shared.key) ghost.phase ghost.noted

def Pc.own : Pc → Option NodeAddr
  | .alloc _ (.writeKey node) | .alloc _ (.writeNext node) => some node
  | .enqueue _ _ (.swingTail _) => none
  | .enqueue _ node _ => some node
  | _ => none

def Pc.isInside : Pc → Bool
  | .alloc _ .enter => false
  | .alloc _ .retryUpdateEpoch => false
  | .alloc _ _ | .enqueue _ _ _ => true
  | .dequeue .enter => false
  | .dequeue _ | .exit _ => true
  | _ => false

def Pc.retiring : Pc → Option NodeAddr
  | .dequeue (.retire h _) => some h
  | _ => none

def Pc.progress : Pc → Phase Op Result
  | .idle => .idle
  | .alloc key _ => .pending (.enqueue key)
  | .enqueue _ _ (.swingTail _) => .done .enqueued
  | .enqueue key _ _ => .pending (.enqueue key)
  | .dequeue (.retire _ data) => .done (.value data)
  | .dequeue _ => .pending .dequeue
  | .exit result | .ret result => .done result

def IsUnlinked (shared : Shared n) (node : NodeAddr) : Prop :=
  ∃ unlinker openWhen, shared.stage node = .unlinked unlinker openWhen

def HeadSeen (shared : Shared n) (h : NodeAddr) : Prop :=
  shared.head = h ∨ IsUnlinked shared h

def Passed (shared : Shared n) (h : NodeAddr) : Prop :=
  shared.head = h ∧ shared.tail ≠ h ∨ IsUnlinked shared h

def AllocInv (shared : Shared n) (key : Int) : AllocPc → Prop
  | .writeNext node => shared.key node = key
  | _ => True

def EnqueueInv (thread : Fin n) (shared : Shared n) (node : NodeAddr) : EnqueuePc → Prop
  | .loadTail => True
  | .checkTail t | .readNext t => shared.Reaches thread t
  | .helpTail t next => shared.Reaches thread t ∧ shared.next t = some next
  | .link t => shared.Reaches thread t
  | .swingTail t => shared.Reaches thread t ∧ shared.next t = some node

def FilledIn (shared : Shared n) (key : Int) (node : NodeAddr) : EnqueuePc → Prop
  | .swingTail _ => True
  | _ => shared.key node = key ∧ shared.next node = none

def DequeueInv (thread : Fin n) (shared : Shared n) (ghost : Ghost n) : DequeuePc → Prop
  | .enter | .loadHead => True
  | .loadTail h => shared.Reaches thread h ∧ HeadSeen shared h
  | .readNext h t => shared.Reaches thread h ∧ HeadSeen shared h ∧ (h ≠ t → Passed shared h)
  | .checkHead h t next =>
      shared.Reaches thread h ∧ (h ≠ t → Passed shared h) ∧
        (∀ succ, next = some succ → shared.next h = some succ) ∧
        (next = none → Result.empty ∈ ghost.noted thread ∧ shared.metEmpty thread = true)
  | .helpTail t next => shared.Reaches thread t ∧ shared.next t = some next
  | .readKey h next => shared.Reaches thread h ∧ Passed shared h ∧ shared.next h = some next
  | .swingHead h next data =>
      shared.Reaches thread h ∧ Passed shared h ∧ shared.next h = some next ∧ shared.key next = data
  | .retire _ _ => True

def ResultInv (thread : Fin n) (shared : Shared n) (result : Result) : Prop :=
  result = .empty → shared.metEmpty thread = true

def PcInv (thread : Fin n) (shared : Shared n) (ghost : Ghost n) : Pc → Prop
  | .idle => True
  | .alloc key pc => AllocInv shared key pc
  | .enqueue key node pc => EnqueueInv thread shared node pc ∧ FilledIn shared key node pc
  | .dequeue pc => DequeueInv thread shared ghost pc
  | .exit result | .ret result => ResultInv thread shared result

def ThreadInv (thread : Fin n) (shared : Shared n) (ghost : Ghost n) (pc : Pc) : Prop :=
  Role thread shared.toLife ghost.toAccount pc.isInside pc.own pc.retiring pc.progress ∧
    PcInv thread shared ghost pc

structure DataSteady (thread : Fin n) (shared shared' : Shared n) : Prop where
  key : ∀ node, shared.Reaches thread node → shared'.key node = shared.key node
  next : ∀ node succ, shared.Reaches thread node → shared.next node = some succ →
    shared'.next node = some succ
  own_key : ∀ node, shared.stage node = .owned thread → shared'.key node = shared.key node
  own_next : ∀ node, shared.stage node = .owned thread → shared'.next node = shared.next node

structure EndsSteady (thread : Fin n) (shared shared' : Shared n) : Prop where
  seen : ∀ h, shared.Reaches thread h → HeadSeen shared h → HeadSeen shared' h
  passed : ∀ h, shared.Reaches thread h → Passed shared h → Passed shared' h

structure Rely (thread : Fin n) (before after : Shared n × Ghost n) : Prop where
  life : Life.Steady thread before.1.toLife after.1.toLife
  data : DataSteady thread before.1 after.1
  ends : EndsSteady thread before.1 after.1
  account : Account.Same thread before.2.toAccount after.2.toAccount
  metEmpty : after.1.metEmpty thread = before.1.metEmpty thread

variable {shared shared' : Shared n} {ghost ghost' : Ghost n} {thread other : Fin n}
  {node : NodeAddr} {pc : Pc}

theorem DataSteady.of_eq (hkey : shared'.key = shared.key) (hnext : shared'.next = shared.next) :
    DataSteady thread shared shared' := by
  refine ⟨?_, ?_, ?_, ?_⟩ <;> intros <;> simp_all

theorem IsUnlinked.steady (hlife : Life.Steady thread shared.toLife shared'.toLife)
    (hreach : shared.Reaches thread node) (hunlinked : IsUnlinked shared node) :
    IsUnlinked shared' node := by
  obtain ⟨unlinker, openWhen, hstage⟩ := hunlinked
  exact ⟨unlinker, openWhen, hlife.unlinked node unlinker openWhen hreach hstage⟩

theorem EndsSteady.of_eq (hlife : Life.Steady thread shared.toLife shared'.toLife)
    (hhead : shared'.head = shared.head) (htail : shared'.tail = shared.tail) :
    EndsSteady thread shared shared' where
  seen h hreach hseen := by
    rcases hseen with hhead' | hunlinked
    · exact .inl (hhead.trans hhead')
    · exact .inr (hunlinked.steady hlife hreach)
  passed h hreach hpassed := by
    rcases hpassed with ⟨hhead', htail'⟩ | hunlinked
    · exact .inl ⟨hhead.trans hhead', by rwa [htail]⟩
    · exact .inr (hunlinked.steady hlife hreach)

theorem Rely.refl {state : Shared n × Ghost n} : Rely thread state state :=
  ⟨.refl, .of_eq rfl rfl, .of_eq .refl rfl rfl, .refl, rfl⟩

variable {before after : Shared n × Ghost n}

theorem Rely.enqueueInv (hrely : Rely thread before after) {enqueuePc : EnqueuePc}
    (hinv : EnqueueInv thread before.1 node enqueuePc) :
    EnqueueInv thread after.1 node enqueuePc := by
  cases enqueuePc with
  | loadTail => trivial
  | checkTail t | readNext t | link t => exact hrely.life.reaches t hinv
  | helpTail t next => exact ⟨hrely.life.reaches t hinv.1, hrely.data.next t next hinv.1 hinv.2⟩
  | swingTail t => exact ⟨hrely.life.reaches t hinv.1, hrely.data.next t node hinv.1 hinv.2⟩

theorem Rely.dequeueInv (hrely : Rely thread before after)
    (hglobal : GlobalInv before.1 before.2) {dequeuePc : DequeuePc}
    (hinv : DequeueInv thread before.1 before.2 dequeuePc) :
    DequeueInv thread after.1 after.2 dequeuePc := by
  cases dequeuePc with
  | enter | loadHead | retire h data => trivial
  | loadTail h => exact ⟨hrely.life.reaches h hinv.1, hrely.ends.seen h hinv.1 hinv.2⟩
  | readNext h t =>
    obtain ⟨hreach, hseen, hpassed⟩ := hinv
    exact ⟨hrely.life.reaches h hreach, hrely.ends.seen h hreach hseen,
      fun hne => hrely.ends.passed h hreach (hpassed hne)⟩
  | checkHead h t next =>
    obtain ⟨hreach, hpassed, hnext, hempty⟩ := hinv
    refine ⟨hrely.life.reaches h hreach, fun hne => hrely.ends.passed h hreach (hpassed hne),
      fun succ hsucc => hrely.data.next h succ hreach (hnext succ hsucc), ?_⟩
    rwa [hrely.account.noted, hrely.metEmpty]
  | helpTail t next => exact ⟨hrely.life.reaches t hinv.1, hrely.data.next t next hinv.1 hinv.2⟩
  | readKey h next =>
    obtain ⟨hreach, hpassed, hnext⟩ := hinv
    exact ⟨hrely.life.reaches h hreach, hrely.ends.passed h hreach hpassed, hrely.data.next h next hreach hnext⟩
  | swingHead h next data =>
    obtain ⟨hreach, hpassed, hnext, hkey⟩ := hinv
    have hreach' := hglobal.life.reaches_next thread h next hreach hnext
    exact ⟨hrely.life.reaches h hreach, hrely.ends.passed h hreach hpassed,
      hrely.data.next h next hreach hnext, (hrely.data.key next hreach').trans hkey⟩

theorem Rely.threadInv (hrely : Rely thread before after) (hglobal : GlobalInv before.1 before.2)
    (hinv : ThreadInv thread before.1 before.2 pc) : ThreadInv thread after.1 after.2 pc := by
  obtain ⟨hrole, hpc⟩ := hinv
  refine ⟨hrole.steady hrely.life hrely.account, ?_⟩
  cases pc with
  | idle => trivial
  | alloc key allocPc =>
    cases allocPc with
    | writeNext node => exact (hrely.data.own_key node (hrole.own node rfl)).trans hpc
    | _ => trivial
  | enqueue key node enqueuePc =>
    refine ⟨hrely.enqueueInv hpc.1, ?_⟩
    have hfilled := hpc.2
    cases enqueuePc with
    | swingTail t => trivial
    | _ =>
      have hown := hrole.own node rfl
      exact ⟨(hrely.data.own_key node hown).trans hfilled.1, (hrely.data.own_next node hown).trans hfilled.2⟩
  | dequeue dequeuePc => exact hrely.dequeueInv hglobal hpc
  | exit result | ret result => exact fun hempty => hrely.metEmpty.trans (hpc hempty)

end Lfmr.LockFreeQueue
