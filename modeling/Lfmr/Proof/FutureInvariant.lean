import Mathlib.Data.List.Perm.Subperm
import Lfmr.Futures

/-!
# What holds of a future between two accesses

Until the future is fulfilled, those who wait are in its three lists. The producer takes them out one by
one while it holds the lock, so that nobody is added behind its back; after that nobody waits any more.
-/

namespace Lfmr.Futures

open Function Lfmr.Concurrency

variable {n : Nat}

structure Listed (chainCalls : Nat) (owner : Nat → Option (Fin n)) (closures : List Nat) : Prop where
  nodup : closures.Nodup
  mem_or_owned : ∀ c < chainCalls, c ∈ closures ∨ ∃ i, owner c = some i
  listed : ∀ c ∈ closures, c < chainCalls ∧ owner c = none
  owned : ∀ c i, owner c = some i → c < chainCalls

namespace Listed

variable {chainCalls : Nat} {owner : Nat → Option (Fin n)} {closures closures' : List Nat} {i : Fin n} {c : Nat}

theorem perm (h : Listed chainCalls owner closures) (hperm : closures.Perm closures') :
    Listed chainCalls owner closures' where
  nodup := hperm.nodup_iff.mp h.nodup
  mem_or_owned c hc := (h.mem_or_owned c hc).imp_left hperm.mem_iff.mp
  listed c hc := h.listed c (hperm.mem_iff.mpr hc)
  owned := h.owned

theorem start (h : Listed chainCalls owner closures) (i : Fin n) :
    Listed (chainCalls + 1) (update owner chainCalls (some i)) closures where
  nodup := h.nodup
  mem_or_owned c hc := by
    by_cases heq : c = chainCalls
    · subst heq
      exact Or.inr ⟨i, update_self ..⟩
    · rw [update_of_ne heq]
      exact h.mem_or_owned c (by omega)
  listed c hc := by
    obtain ⟨hlt, howner⟩ := h.listed c hc
    rw [update_of_ne (Nat.ne_of_lt hlt)]
    exact ⟨Nat.lt_succ_of_lt hlt, howner⟩
  owned c j hc := by
    by_cases heq : c = chainCalls
    · rw [heq]
      exact Nat.lt_succ_self _
    · rw [update_of_ne heq] at hc
      exact Nat.lt_succ_of_lt (h.owned c j hc)

theorem finish (h : Listed chainCalls owner closures) (hc : owner c = some i) :
    Listed chainCalls (update owner c none) (c :: closures) where
  nodup := by
    refine List.nodup_cons.mpr ⟨fun hmem => ?_, h.nodup⟩
    have hnone := (h.listed c hmem).2
    rw [hc] at hnone
    cases hnone
  mem_or_owned d hd := by
    by_cases heq : d = c
    · rw [heq]
      exact Or.inl (.head _)
    · rw [update_of_ne heq]
      exact (h.mem_or_owned d hd).imp_left (.tail _)
  listed d hd := by
    by_cases heq : d = c
    · rw [heq, update_self]
      exact ⟨h.owned c i hc, rfl⟩
    · rw [update_of_ne heq]
      exact h.listed d ((List.mem_cons.mp hd).resolve_left heq)
  owned d j hd := by
    by_cases heq : d = c
    · rw [heq, update_self] at hd
      cases hd
    · rw [update_of_ne heq] at hd
      exact h.owned d j hd

end Listed

structure Ghost (n : Nat) where
  blocked : List (Fin n)
  awaiting : List (Fin n)
  closures : List Nat
  owner : Nat → Option (Fin n)

def listedClosures (shared : Shared n) (ghost : Ghost n) : List Nat :=
  shared.ran.map Prod.fst ++ (shared.tasks.map Prod.fst ++ ghost.closures)

structure InLists (shared : Shared n) (ghost : Ghost n) : Prop where
  blocked : ghost.blocked = shared.responsibilities
  awaiting : ghost.awaiting = shared.awaitedActors
  closures : ghost.closures = shared.children

structure GlobalInv (shared : Shared n) (ghost : Ghost n) : Prop where
  aborted : shared.aborted = false
  waits : shared.waited.Perm (shared.resumed ++ (ghost.blocked ++ ghost.awaiting))
  lists : shared.fulfilled = false → InLists shared ghost
  value : shared.fulfilled = true → shared.given = some shared.value
  awake : ∀ i, shared.awake i = true → shared.fulfilled = true
  listed : Listed shared.chainCalls ghost.owner (listedClosures shared ghost)
  ran : ∀ entry ∈ shared.ran, shared.given = some entry.2
  tasks : ∀ entry ∈ shared.tasks, shared.given = some entry.2
  returned : ∀ entry ∈ shared.returned, shared.given = some entry.2

def Pc.holdsLock : Pc n → Bool
  | .idle | .get .check | .get .lock | .get .blocked | .get .readValue => false
  | .get _ => true
  | .await .lock | .await .awaiting => false
  | .await _ => true
  | .chain _ .lock => false
  | .chain _ _ => true
  | .fulfil _ _ .assertUnfulfilled | .fulfil _ _ .lock => false
  | .fulfil _ _ _ => true
  | .done => false

def Pc.inFlight : Pc n → Option Nat
  | .chain _ .unlock => none
  | .chain closure _ => some closure
  | _ => none

def GetInv (i : Fin n) (shared : Shared n) (ghost : Ghost n) : GetPc → Prop
  | .record => shared.fulfilled = false
  | .switch | .blocked => i ∈ ghost.blocked ∨ shared.awake i = true
  | .unlock | .readValue => shared.fulfilled = true
  | _ => True

def AwaitInv (i : Fin n) (shared : Shared n) (ghost : Ghost n) : AwaitPc → Prop
  | .record => shared.fulfilled = false
  | .switch | .awaiting => i ∈ ghost.awaiting ∨ shared.awake i = true
  | _ => True

def ChainInv (shared : Shared n) : ChainPc → Prop
  | .run => shared.fulfilled = true
  | .add => shared.fulfilled = false
  | _ => True

def FulfilInv (shared : Shared n) (ghost : Ghost n) (value : Value) : FulfilPc n → Prop
  | .assertUnfulfilled | .lock | .writeValue => shared.fulfilled = false
  | .setFulfilled => shared.fulfilled = false ∧ shared.value = value
  | .unblock i => shared.fulfilled = true ∧ ghost.blocked = shared.responsibilities.drop i ∧
      ghost.closures = shared.children ∧ ghost.awaiting = shared.awaitedActors
  | .runChildren current => shared.fulfilled = true ∧ ghost.blocked = [] ∧ ghost.closures = current ∧
      ghost.awaiting = shared.awaitedActors
  | .wake current => shared.fulfilled = true ∧ ghost.blocked = [] ∧ ghost.closures = [] ∧
      ghost.awaiting = current
  | .unlock => shared.fulfilled = true ∧ ghost.blocked = [] ∧ ghost.closures = [] ∧ ghost.awaiting = []

def ActorInv (i : Fin n) (shared : Shared n) (ghost : Ghost n) : Pc n → Prop
  | .idle => True
  | .get pc => GetInv i shared ghost pc
  | .await pc => AwaitInv i shared ghost pc
  | .chain _ pc => ChainInv shared pc
  | _ => False

def ProducerInv (shared : Shared n) (ghost : Ghost n) : Pc n → Prop
  | .idle => shared.fulfilled = false ∧ shared.given = none
  | .fulfil value _ pc => shared.given = some value ∧ FulfilInv shared ghost value pc
  | .done => shared.fulfilled = true ∧ ghost.blocked = [] ∧ ghost.closures = [] ∧ ghost.awaiting = []
  | _ => False

def PcInv (shared : Shared n) (ghost : Ghost n) (pc : Pc n) : Tid n → Prop
  | .producer => ProducerInv shared ghost pc
  | .runner => pc = .idle
  | .actor i => (∀ c, ghost.owner c = some i ↔ pc.inFlight = some c) ∧ ActorInv i shared ghost pc

def ThreadInv (thread : Tid n) (shared : Shared n) (ghost : Ghost n) (pc : Pc n) : Prop :=
  (shared.lock = some thread ↔ pc.holdsLock = true) ∧ PcInv shared ghost pc thread

structure Guarded (before after : Shared n × Ghost n) : Prop where
  fulfilled : after.1.fulfilled = before.1.fulfilled
  value : after.1.value = before.1.value
  responsibilities : after.1.responsibilities = before.1.responsibilities
  children : after.1.children = before.1.children
  awaitedActors : after.1.awaitedActors = before.1.awaitedActors
  blocked : after.2.blocked = before.2.blocked
  awaiting : after.2.awaiting = before.2.awaiting
  closures : after.2.closures = before.2.closures

structure ActorRely (i : Fin n) (before after : Shared n × Ghost n) : Prop where
  fulfilled : before.1.fulfilled = true → after.1.fulfilled = true
  blocked : i ∈ before.2.blocked ∨ before.1.awake i = true → i ∈ after.2.blocked ∨ after.1.awake i = true
  awaiting : i ∈ before.2.awaiting ∨ before.1.awake i = true → i ∈ after.2.awaiting ∨ after.1.awake i = true
  owner : ∀ c, after.2.owner c = some i ↔ before.2.owner c = some i

structure ProducerRely (before after : Shared n × Ghost n) : Prop where
  fulfilled : after.1.fulfilled = before.1.fulfilled
  given : after.1.given = before.1.given
  blocked : before.1.fulfilled = true → after.2.blocked = before.2.blocked
  awaiting : before.1.fulfilled = true → after.2.awaiting = before.2.awaiting
  closures : before.1.fulfilled = true → after.2.closures = before.2.closures

def PcRely (before after : Shared n × Ghost n) : Tid n → Prop
  | .producer => ProducerRely before after
  | .runner => True
  | .actor i => ActorRely i before after

structure Rely (thread : Tid n) (before after : Shared n × Ghost n) : Prop where
  lock : after.1.lock = some thread ↔ before.1.lock = some thread
  held : before.1.lock = some thread → Guarded before after
  pc : PcRely before after thread

variable {shared shared' : Shared n} {ghost ghost' : Ghost n} {thread other : Tid n} {pc : Pc n} {i : Fin n}
  {before : Shared n × Ghost n}

theorem Guarded.refl : Guarded before before :=
  ⟨rfl, rfl, rfl, rfl, rfl, rfl, rfl, rfl⟩

theorem PcRely.of_lists {owner : Nat → Option (Fin n)}
    (howner : ∀ j, thread = .actor j → ∀ c, owner c = some j ↔ ghost.owner c = some j)
    (hfulfilled : shared'.fulfilled = shared.fulfilled) (hgiven : shared'.given = shared.given)
    (hawake : shared'.awake = shared.awake) : PcRely (shared, ghost) (shared', { ghost with owner }) thread := by
  cases thread with
  | producer => exact ⟨hfulfilled, hgiven, fun _ => rfl, fun _ => rfl, fun _ => rfl⟩
  | runner => trivial
  | actor j =>
    refine ⟨hfulfilled.trans, ?_, ?_, howner j rfl⟩
    all_goals
      dsimp only
      rw [hawake]
      exact id

theorem PcRely.refl : PcRely before before thread :=
  PcRely.of_lists (fun _ _ _ => .rfl) rfl rfl rfl

theorem PcRely.of_ne_producer (hne : thread ≠ .producer)
    (hactor : ∀ j, thread = .actor j → ActorRely j (shared, ghost) (shared', ghost')) :
    PcRely (shared, ghost) (shared', ghost') thread := by
  cases thread with
  | producer => exact absurd rfl hne
  | runner => trivial
  | actor j => exact hactor j rfl

theorem PcRely.of_unfulfilled (hunfulfilled : shared.fulfilled = false)
    (hfulfilled : shared'.fulfilled = shared.fulfilled) (hgiven : shared'.given = shared.given)
    (hactor : ∀ j, thread = .actor j → ActorRely j (shared, ghost) (shared', ghost')) :
    PcRely (shared, ghost) (shared', ghost') thread := by
  cases thread with
  | producer => refine ⟨hfulfilled, hgiven, ?_, ?_, ?_⟩ <;> simp [hunfulfilled]
  | runner => trivial
  | actor j => exact hactor j rfl

theorem Rely.refl : Rely thread before before :=
  ⟨Iff.rfl, fun _ => .refl, .refl⟩

theorem Rely.of_holder (hlock : shared.lock = some thread) (hlock' : shared'.lock = shared.lock)
    (hne : other ≠ thread) (hpc : PcRely (shared, ghost) (shared', ghost') other) :
    Rely other (shared, ghost) (shared', ghost') where
  lock := by rw [hlock']
  held hother := absurd (Option.some.inj (hother.symm.trans hlock)) hne
  pc := hpc

theorem Rely.of_guarded (hpc : PcRely (shared, ghost) (shared', ghost') other)
    (hlock : shared'.lock = shared.lock) (hguarded : Guarded (shared, ghost) (shared', ghost')) :
    Rely other (shared, ghost) (shared', ghost') where
  lock := by rw [hlock]
  held _ := hguarded
  pc := hpc

theorem ActorRely.actorInv (hrely : ActorRely i (shared, ghost) (shared', ghost'))
    (hheld : pc.holdsLock = true → Guarded (shared, ghost) (shared', ghost'))
    (hinv : ActorInv i shared ghost pc) : ActorInv i shared' ghost' pc := by
  cases pc with
  | idle => trivial
  | get pc =>
    cases pc with
    | record => exact (hheld rfl).fulfilled.trans hinv
    | switch | blocked => exact hrely.blocked hinv
    | unlock | readValue => exact hrely.fulfilled hinv
    | _ => trivial
  | await pc =>
    cases pc with
    | record => exact (hheld rfl).fulfilled.trans hinv
    | switch | awaiting => exact hrely.awaiting hinv
    | _ => trivial
  | chain closure pc =>
    cases pc with
    | run => exact hrely.fulfilled hinv
    | add => exact (hheld rfl).fulfilled.trans hinv
    | _ => trivial
  | _ => exact hinv

theorem Guarded.fulfilInv {value : Value} {pc : FulfilPc n} (hguarded : Guarded (shared, ghost) (shared', ghost'))
    (hinv : FulfilInv shared ghost value pc) : FulfilInv shared' ghost' value pc := by
  obtain ⟨hfulfilled, hvalue, hresponsibilities, hchildren, hawaited, hblocked, hawaiting, hclosures⟩ := hguarded
  dsimp only at hfulfilled hvalue hresponsibilities hchildren hawaited hblocked hawaiting hclosures
  cases pc <;>
    simp only [FulfilInv, hfulfilled, hvalue, hresponsibilities, hchildren, hawaited, hblocked, hawaiting,
      hclosures] at hinv ⊢ <;>
    exact hinv

theorem ProducerRely.producerInv (hrely : ProducerRely (shared, ghost) (shared', ghost'))
    (hheld : pc.holdsLock = true → Guarded (shared, ghost) (shared', ghost'))
    (hinv : ProducerInv shared ghost pc) : ProducerInv shared' ghost' pc := by
  cases pc with
  | idle => exact ⟨hrely.fulfilled.trans hinv.1, hrely.given.trans hinv.2⟩
  | fulfil value byTask pc =>
    refine ⟨hrely.given.trans hinv.1, ?_⟩
    cases pc with
    | assertUnfulfilled | lock => exact hrely.fulfilled.trans hinv.2
    | _ => exact (hheld rfl).fulfilInv hinv.2
  | done =>
    obtain ⟨hfulfilled, hblocked, hclosures, hawaiting⟩ := hinv
    exact ⟨hrely.fulfilled.trans hfulfilled, (hrely.blocked hfulfilled).trans hblocked,
      (hrely.closures hfulfilled).trans hclosures, (hrely.awaiting hfulfilled).trans hawaiting⟩
  | _ => exact hinv

theorem Rely.threadInv (hrely : Rely thread (shared, ghost) (shared', ghost'))
    (hinv : ThreadInv thread shared ghost pc) : ThreadInv thread shared' ghost' pc := by
  obtain ⟨hlock, hpc⟩ := hinv
  refine ⟨hrely.lock.trans hlock, ?_⟩
  have hheld : pc.holdsLock = true → Guarded (shared, ghost) (shared', ghost') := fun hholds =>
    hrely.held (hlock.mpr hholds)
  have hrest := hrely.pc
  cases thread with
  | producer => exact ProducerRely.producerInv hrest hheld hpc
  | runner => exact hpc
  | actor i => exact ⟨fun c => (ActorRely.owner hrest c).trans (hpc.1 c), ActorRely.actorInv hrest hheld hpc.2⟩

end Lfmr.Futures
