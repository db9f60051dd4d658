import Lfmr.Concurrency.Linearizable
import Lfmr.Concurrency.NodeLife

/-!
# The part of a thread in a linearizable structure

What is known of a thread without a look at its local variables: whether it is in a critical section,
which node it owns, which one it has to retire, and how far its call has come. The last two refer to an
account that proofs keep beside the state.
-/

namespace Lfmr.Concurrency

open Function

variable {Tid Node Op Result : Type}

structure Account (Tid Node Op Result : Type) where
  retiring : Tid → Option Node
  phase : Tid → Phase Op Result
  noted : Tid → Set Result

namespace Account

def fresh : Account Tid Node Op Result :=
  { retiring := fun _ => none, phase := fun _ => .idle, noted := fun _ => ∅ }

def Shows (account : Account Tid Node Op Result) (thread : Tid) : Phase Op Result → Prop
  | .done result => Settled account.phase account.noted thread result
  | phase => account.phase thread = phase

structure Same (thread : Tid) (account account' : Account Tid Node Op Result) : Prop where
  retiring : account'.retiring thread = account.retiring thread
  phase : account'.phase thread = account.phase thread
  noted : account'.noted thread = account.noted thread

variable {account account' : Account Tid Node Op Result} {thread : Tid}

theorem Same.refl : Same thread account account := ⟨rfl, rfl, rfl⟩

theorem Same.trans {account'' : Account Tid Node Op Result} (hfirst : Same thread account account')
    (hsecond : Same thread account' account'') : Same thread account account'' :=
  ⟨hsecond.retiring.trans hfirst.retiring, hsecond.phase.trans hfirst.phase, hsecond.noted.trans hfirst.noted⟩

section Events

variable [DecidableEq Tid] {other : Tid}

def toRetire (account : Account Tid Node Op Result) (thread : Tid) (node : Option Node) :
    Account Tid Node Op Result :=
  { account with retiring := Function.update account.retiring thread node }

def call (account : Account Tid Node Op Result) (thread : Tid) (op : Op) :
    Account Tid Node Op Result :=
  { account with
    phase := Function.update account.phase thread (.pending op)
    noted := Function.update account.noted thread ∅ }

def note (account : Account Tid Node Op Result) (thread : Tid) (result : Result) :
    Account Tid Node Op Result :=
  { account with noted := Function.update account.noted thread (insert result (account.noted thread)) }

def effect (account : Account Tid Node Op Result) (thread : Tid) (result : Result) :
    Account Tid Node Op Result :=
  { account with phase := Function.update account.phase thread (.done result) }

def ret (account : Account Tid Node Op Result) (thread : Tid) : Account Tid Node Op Result :=
  { account with phase := Function.update account.phase thread .idle }

variable {op : Op} {result : Result} {node : Option Node}

section

variable (hne : other ≠ thread)
include hne

theorem same_toRetire : Same other account (account.toRetire thread node) :=
  ⟨update_of_ne hne _ _, rfl, rfl⟩

theorem same_call : Same other account (account.call thread op) :=
  ⟨rfl, update_of_ne hne _ _, update_of_ne hne _ _⟩

theorem same_note : Same other account (account.note thread result) :=
  ⟨rfl, rfl, update_of_ne hne _ _⟩

theorem same_effect : Same other account (account.effect thread result) :=
  ⟨rfl, update_of_ne hne _ _, rfl⟩

theorem same_ret : Same other account (account.ret thread) :=
  ⟨rfl, update_of_ne hne _ _, rfl⟩

end

end Events

theorem Same.shows (hsame : Same thread account account') {shown : Phase Op Result}
    (hshows : account.Shows thread shown) : account'.Shows thread shown := by
  cases shown <;> simpa only [Shows, Settled, hsame.phase, hsame.noted] using hshows

theorem hindsight {progress : Tid → Phase Op Result} (hshows : ∀ thread, account.Shows thread (progress thread)) :
    Hindsight account.phase account.noted progress := by
  intro thread
  specialize hshows thread
  cases hprogress : progress thread with
  | done result =>
    rw [hprogress] at hshows
    exact .inr ⟨result, hshows, rfl⟩
  | _ =>
    rw [hprogress] at hshows
    exact .inl hshows.symm

end Account

structure Role (thread : Tid) (life : Life Tid Node) (account : Account Tid Node Op Result)
    (isInside : Bool) (owns retires : Option Node) (shown : Phase Op Result) : Prop where
  inside : life.inside thread = isInside
  own : ∀ node, owns = some node → life.stage node = .owned thread
  retiring : account.retiring thread = retires
  unretired : ∀ node, retires = some node →
    ∃ openWhen, life.stage node = .unlinked thread openWhen ∧ life.retiredBy node = []
  progress : account.Shows thread shown

namespace Role

variable {thread : Tid} {life life' : Life Tid Node} {account account' : Account Tid Node Op Result}
  {isInside : Bool} {owns retires : Option Node} {shown : Phase Op Result} {op : Op}
  {result : Result}

theorem steady (hrole : Role thread life account isInside owns retires shown)
    (hlife : Life.Steady thread life life') (hsame : Account.Same thread account account') :
    Role thread life' account' isInside owns retires shown where
  inside := hlife.inside.trans hrole.inside
  own node hnode := hlife.owned node (hrole.own node hnode)
  retiring := hsame.retiring.trans hrole.retiring
  unretired node hnode := by
    obtain ⟨openWhen, hstage, hretired⟩ := hrole.unretired node hnode
    exact ⟨openWhen, hlife.retiring node openWhen hstage hretired⟩
  progress := hsame.shows hrole.progress

theorem phase_eq (hrole : Role thread life account isInside owns retires (.pending op)) :
    account.phase thread = .pending op :=
  hrole.progress

theorem settle (hrole : Role thread life account isInside owns retires (.pending op))
    (hnoted : result ∈ account.noted thread) :
    Role thread life account isInside owns retires (.done result) :=
  { hrole with progress := .inr ⟨op, hrole.phase_eq, hnoted⟩ }

section Events

variable [DecidableEq Tid]

theorem enter (hrole : Role thread life account isInside owns none shown) :
    Role thread (life.enter thread) account true owns none shown :=
  { hrole with inside := Sections.enter_inside_self, unretired := by simp }

theorem exit (hrole : Role thread life account isInside owns none shown) :
    Role thread (life.exit thread) account false owns none shown :=
  { hrole with inside := Sections.exit_inside_self, unretired := by simp }

theorem note (hrole : Role thread life account isInside owns retires (.pending op)) :
    Role thread life (account.note thread result) isInside owns retires (.pending op) :=
  { hrole with }

theorem effect (hrole : Role thread life account isInside owns retires (.pending op)) :
    Role thread life (account.effect thread result) isInside owns retires (.done result) :=
  { hrole with progress := .inl (update_self _ _ _) }

theorem call (hrole : Role thread life account isInside owns retires .idle) :
    Role thread life (account.call thread op) isInside owns retires (.pending op) :=
  { hrole with progress := update_self _ _ _ }

theorem ret (hrole : Role thread life account isInside owns retires (.done result)) :
    Role thread life (account.ret thread) isInside owns retires .idle :=
  { hrole with progress := update_self _ _ _ }

variable [DecidableEq Node] {node : Node}

theorem retire (hrole : Role thread life account isInside owns (some node) shown) :
    Role thread (life.retire thread node) (account.toRetire thread none) isInside owns none shown :=
  { hrole with retiring := update_self _ _ _, unretired := by simp }

theorem unlink {next : Node → Option Node} (hrole : Role thread life account isInside owns none shown)
    (hvalid : life.Valid next account.retiring) (hlinked : life.stage node = .linked) :
    Role thread (life.unlink thread node) (account.toRetire thread (some node)) isInside owns (some node) shown where
  inside := hrole.inside
  own other hother := (Life.steady_unlink hlinked).owned other (hrole.own other hother)
  retiring := update_self _ _ _
  unretired other heq := by
    cases heq
    refine ⟨life.snapshot, by simp [Life.unlink], ?_⟩
    rcases hvalid.retired node with hnone | ⟨unlinker, openWhen, hstage, _⟩
    · exact hnone
    · simp [hlinked] at hstage
  progress := hrole.progress

end Events

section Nodes

variable [DecidableEq Node] {node : Node}

theorem newNode (hrole : Role thread life account isInside none none shown) :
    Role thread (life.renew node (.owned thread)) account isInside (some node) none shown where
  inside := hrole.inside
  own other heq := by
    cases heq
    simp [Life.renew]
  retiring := hrole.retiring
  unretired := by simp
  progress := hrole.progress

theorem freeNode (hrole : Role thread life account isInside (some node) none shown) :
    Role thread (life.renew node .free) account isInside none none shown :=
  { hrole with own := by simp, unretired := by simp }

theorem link (hrole : Role thread life account isInside (some node) none shown) :
    Role thread (life.link node) account isInside none none shown :=
  { hrole with own := by simp, unretired := by simp }

end Nodes

end Role

end Lfmr.Concurrency
