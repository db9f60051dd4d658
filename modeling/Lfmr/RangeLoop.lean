import Mathlib.Data.List.Nodup
import Mathlib.Data.List.Range
import Mathlib.Data.Int.GCD

/-!
# The loops generated for `for` expressions

What `Expr.hs` generates for a loop over a range or an array: the step of the loop times the step of the
range, a check that this is not zero, an index that begins at one of the ends, and a `while` that goes on as
long as the index is within the ends. All values are `int64_t`, and sums and products wrap. The `while` is run
for a number of turns; if that is not enough, it is still running.

The body acts on a state of any kind. The ends of a range literal may be variables, which the condition of the
`while` reads again each turn; those of other ranges and of arrays are saved before the loop. The step is
computed once.
-/

namespace Lfmr.RangeLoop

inductive Stopped where
  | running
  | zeroStep
  deriving DecidableEq

variable {σ α : Type}

def rangeAssertStep (step : Int64) : Except Stopped Unit :=
  if step = 0 then .error .zeroStep else .ok ()

def firstIndex (start stop step : Int64) : Int64 := if step > 0 then start else stop

def theLoop (body : Int64 → σ → σ) (start stop : σ → Int64) (step : Int64) : Nat → Int64 → σ → Except Stopped σ
  | 0, _, _ => .error .running
  | turns + 1, index, state =>
      if index ≥ start state ∧ index ≤ stop state then
        theLoop body start stop step turns (index + step) (body index state)
      else .ok state

def forRange (body : Int64 → σ → σ) (start stop : σ → Int64) (srcStep step : Int64) (turns : Nat) (state : σ) :
    Except Stopped σ := do
  let stepVar := step * srcStep
  rangeAssertStep stepVar
  theLoop body start stop stepVar turns (firstIndex (start state) (stop state) stepVar) state

/-- The ends are read as these values before the loop and after each turn. -/
structure EndsKept (body : Int64 → σ → σ) (startOf stopOf : σ → Int64) (start stop : Int64) (state : σ) : Prop where
  start_eq : startOf state = start
  stop_eq : stopOf state = stop
  turn : ∀ index state, startOf state = start → stopOf state = stop →
    startOf (body index state) = start ∧ stopOf (body index state) = stop

/-- The size of an array whose elements, of eight bytes each, fit the address space. -/
structure ArraySize where
  size : UInt64
  fits : size.toNat * 8 < 18446744073709551616

/-- The subtraction is one of `size_t`. -/
def ArraySize.stop (array : ArraySize) : Int64 := (array.size - 1).toInt64

def forArray (arrayGet : σ → Int64 → α) (body : α → σ → σ) (array : ArraySize) (step : Int64) (turns : Nat)
    (state : σ) : Except Stopped σ :=
  forRange (fun index state => body (arrayGet state index) state) (fun _ => 0) (fun _ => array.stop) 1 step turns state

def values (first step : Int) (count : Nat) : List Int := (List.range count).map fun i : Nat => first + i * step

/-- So many of them are within the ends, and the next one is not. -/
structure Selects (start stop first step : Int) (count : Nat) : Prop where
  within : ∀ i < count, start ≤ first + i * step ∧ first + i * step ≤ stop
  next : ¬ (start ≤ first + count * step ∧ first + count * step ≤ stop)

/-- A loop whose body keeps the ends ends after it ran its body for these integers, each of them once. -/
def RangeRunsThrough (start stop srcStep step : Int64) : Prop :=
  ∃ count, Selects start.toInt stop.toInt (firstIndex start stop (step * srcStep)).toInt (step * srcStep).toInt count ∧
    (values (firstIndex start stop (step * srcStep)).toInt (step * srcStep).toInt count).Nodup ∧
    ∀ (σ : Type) (body : Int64 → σ → σ) (startOf stopOf : σ → Int64) (state : σ),
      EndsKept body startOf stopOf start stop state → ∃ turns, forRange body startOf stopOf srcStep step turns state =
        .ok ((values (firstIndex start stop (step * srcStep)).toInt (step * srcStep).toInt count).foldl
          (fun state x => body (Int64.ofInt x) state) state)

def ArrayRunsThrough (array : ArraySize) (step : Int64) : Prop :=
  ∃ count, Selects 0 (array.size.toNat - 1) (if step > 0 then 0 else array.size.toNat - 1) step.toInt count ∧
    (values (if step > 0 then 0 else array.size.toNat - 1) step.toInt count).Nodup ∧
    ∀ (σ α : Type) (arrayGet : σ → Int64 → α) (body : α → σ → σ) (state : σ), ∃ turns,
      forArray arrayGet body array step turns state =
        .ok ((values (if step > 0 then 0 else array.size.toNat - 1) step.toInt count).foldl
          (fun state x => body (arrayGet state (Int64.ofInt x)) state) state)

def lastValue (start stop step : Int) : Int :=
  if 0 < step then stop - (stop - start) % step else start + (stop - start) % step

def Leaves (start stop step : Int64) : Prop :=
  start ≤ stop →
    ¬ (Int64.ofInt (lastValue start.toInt stop.toInt step.toInt) + step ≥ start ∧
      Int64.ofInt (lastValue start.toInt stop.toInt step.toInt) + step ≤ stop)

instance (start stop step : Int64) : Decidable (Leaves start stop step) :=
  inferInstanceAs (Decidable (_ → _))

end Lfmr.RangeLoop
