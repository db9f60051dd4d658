import Lfmr.RangeLoop
import Mathlib.Tactic.LinearCombination

/-!
# What the loops of `for` expressions run through

As long as the integers are within the ends, the index is the integer. After the last one it is the next
integer, wrapped. If that is within the ends again, the loop runs its body once more.
-/

namespace Lfmr.RangeLoop

variable {σ : Type} {body : Int64 → σ → σ} {start stop step : Int64}

theorem ofInt_succ (first step : Int64) (count : Nat) :
    Int64.ofInt (first.toInt + count * step.toInt) + step = Int64.ofInt (first.toInt + (count + 1 : Nat) * step.toInt) := by
  conv_lhs => rw [← Int64.ofInt_toInt step]
  rw [← Int64.ofInt_add, Int64.ofInt_toInt]
  congr 1
  rw [Int.natCast_add, Int.add_mul, Int.natCast_one, Int.one_mul, Int.add_assoc]

theorem theLoop_of_endsKept {startOf stopOf : σ → Int64} {state : σ} (hkept : EndsKept body startOf stopOf start stop state)
    (turns : Nat) (index : Int64) : theLoop body startOf stopOf step turns index state =
      theLoop body (fun _ => start) (fun _ => stop) step turns index state := by
  induction turns generalizing index state with
  | zero => rfl
  | succ turns ih =>
    obtain ⟨hstart, hstop⟩ := hkept.turn index state hkept.start_eq hkept.stop_eq
    rw [theLoop, theLoop, hkept.start_eq, hkept.stop_eq, ih ⟨hstart, hstop, hkept.turn⟩]

theorem endsKept_const (body : Int64 → σ → σ) (start stop : Int64) (state : σ) :
    EndsKept body (fun _ => start) (fun _ => stop) start stop state :=
  ⟨rfl, rfl, fun _ _ _ _ => ⟨rfl, rfl⟩⟩

theorem theLoop_add (body : Int64 → σ → σ) (first : Int64) (count : Nat) (state : σ)
    (hwithin : ∀ i < count, Int64.ofInt (first.toInt + i * step.toInt) ≥ start ∧
      Int64.ofInt (first.toInt + i * step.toInt) ≤ stop) (turns : Nat) :
    theLoop body (fun _ => start) (fun _ => stop) step (count + turns) first state =
      theLoop body (fun _ => start) (fun _ => stop) step turns (Int64.ofInt (first.toInt + count * step.toInt))
        ((values first.toInt step.toInt count).foldl (fun state x => body (Int64.ofInt x) state) state) := by
  induction count generalizing turns with
  | zero => simp [values]
  | succ count ih =>
    have hprevious := ih (fun i hi => hwithin i (Nat.lt_succ_of_lt hi)) (turns + 1)
    rw [Nat.add_right_comm, Nat.add_assoc, hprevious, theLoop, if_pos (hwithin count (Nat.lt_succ_self count)),
      ofInt_succ, values, values, List.range_succ, List.map_append, List.foldl_append]
    rfl

theorem theLoop_of_left {index : Int64} (hleft : ¬ (index ≥ start ∧ index ≤ stop)) (state : σ) (turns : Nat) :
    theLoop body (fun _ => start) (fun _ => stop) step (turns + 1) index state = .ok state := by
  rw [theLoop, if_neg hleft]

@[simp]
theorem length_values (first step : Int) (count : Nat) : (values first step count).length = count := by
  rw [values, List.length_map, List.length_range]

theorem length_trace (xs : List Int) (trace : List Int64) :
    (xs.foldl (fun trace x => trace ++ [Int64.ofInt x]) trace).length = trace.length + xs.length := by
  induction xs generalizing trace with
  | nil => rfl
  | cons x xs ih =>
    rw [List.foldl_cons, ih, List.length_append, List.length_singleton, List.length_cons]
    omega

theorem trace_isPrefix {trace out : List Int64} {index : Int64} (turns : Nat)
    (hout : theLoop (fun index trace => trace ++ [index]) (fun _ => start) (fun _ => stop) step turns index trace = .ok out) :
    trace <+: out := by
  induction turns generalizing index trace with
  | zero => exact absurd hout (by simp [theLoop])
  | succ turns ih =>
    rw [theLoop] at hout
    split at hout
    · exact (List.prefix_append _ _).trans (ih hout)
    · cases hout
      exact List.prefix_rfl

theorem forRange_eq {srcStep : Int64} (hstep : step * srcStep ≠ 0) {startOf stopOf : σ → Int64} {state : σ}
    (hkept : EndsKept body startOf stopOf start stop state) (turns : Nat) :
    forRange body startOf stopOf srcStep step turns state = theLoop body (fun _ => start) (fun _ => stop) (step * srcStep)
      turns (firstIndex start stop (step * srcStep)) state := by
  rw [forRange, rangeAssertStep, if_neg hstep, ← theLoop_of_endsKept hkept, hkept.start_eq, hkept.stop_eq]
  rfl

theorem forRange_of_zero {srcStep : Int64} (hstep : step * srcStep = 0) (startOf stopOf : σ → Int64) (turns : Nat)
    (state : σ) : forRange body startOf stopOf srcStep step turns state = .error .zeroStep := by
  rw [forRange, rangeAssertStep, if_pos hstep]
  rfl

theorem nodup_values (first : Int) {step : Int} (hstep : step ≠ 0) (count : Nat) : (values first step count).Nodup := by
  refine List.Nodup.map (fun i j heq => ?_) List.nodup_range
  have hmul : (i : Int) * step = j * step := Int.add_left_cancel heq
  exact Int.natCast_inj.mp (Int.eq_of_mul_eq_mul_right hstep hmul)

/-- The integers up to the last value. -/
theorem exists_selects {start stop step : Int} (hle : start ≤ stop) (hstep : step ≠ 0) :
    ∃ count : Nat, Selects start stop (if 0 < step then start else stop) step (count + 1) ∧
      (if 0 < step then start else stop) + count * step = lastValue start stop step := by
  have hdiv := Int.emod_add_mul_ediv (stop - start) step
  have hmod := Int.emod_nonneg (stop - start) hstep
  have hlt := Int.emod_lt (stop - start) hstep
  unfold lastValue
  split
  · rename_i hpos
    have hnonneg : 0 ≤ (stop - start) / step := Int.ediv_nonneg (by omega) (by omega)
    obtain ⟨count, hcount⟩ := Int.eq_ofNat_of_zero_le hnonneg
    rw [hcount, Int.mul_comm] at hdiv
    have hlast : start + count * step = stop - (stop - start) % step := by omega
    refine ⟨count, ⟨fun i hi => ?_, fun hnext => ?_⟩, hlast⟩
    · have hmul : (i : Int) * step ≤ count * step := Int.mul_le_mul_of_nonneg_right (by omega) (by omega)
      have hmulNonneg : 0 ≤ (i : Int) * step := Int.mul_nonneg (by omega) (by omega)
      omega
    · rw [Int.natCast_add, Int.add_mul] at hnext
      omega
  · rename_i hneg
    have hnonneg : 0 ≤ -((stop - start) / step) := by
      have := Int.ediv_nonpos_of_nonneg_of_nonpos (a := stop - start) (b := step) (by omega) (by omega)
      omega
    obtain ⟨count, hcount⟩ := Int.eq_ofNat_of_zero_le hnonneg
    have hcount' : (stop - start) / step = -count := by omega
    rw [hcount', Int.mul_neg, Int.mul_comm] at hdiv
    have hlast : stop + count * step = start + (stop - start) % step := by omega
    refine ⟨count, ⟨fun i hi => ?_, fun hnext => ?_⟩, hlast⟩
    · have hmul : (count : Int) * step ≤ i * step := Int.mul_le_mul_of_nonpos_right (by omega) (by omega)
      have hmulNonpos : (i : Int) * step ≤ 0 := Int.mul_nonpos_of_nonneg_of_nonpos (by omega) (by omega)
      omega
    · rw [Int.natCast_add, Int.add_mul] at hnext
      omega

theorem selects_unique {start stop first step : Int} {count count' : Nat}
    (hselects : Selects start stop first step count)
    (hselects' : Selects start stop first step count') : count = count' := by
  rcases Nat.lt_trichotomy count count' with hlt | heq | hgt
  · exact absurd (hselects'.within count hlt) hselects.next
  · exact heq
  · exact absurd (hselects.within count' hgt) hselects'.next

theorem toInt_firstIndex (start stop step : Int64) :
    (firstIndex start stop step).toInt = if 0 < step.toInt then start.toInt else stop.toInt := by
  have hpos : step > 0 ↔ 0 < step.toInt := Int64.lt_iff_toInt_lt
  unfold firstIndex
  by_cases hstep : step > 0
  · rw [if_pos hstep, if_pos (hpos.mp hstep)]
  · rw [if_neg hstep, if_neg fun h => hstep (hpos.mpr h)]

theorem toInt_ne_zero (hstep : step ≠ 0) : step.toInt ≠ 0 := fun h => hstep (Int64.toInt_inj.mp h)

theorem ofInt_within {x : Int} (hx : start.toInt ≤ x ∧ x ≤ stop.toInt) :
    Int64.ofInt x ≥ start ∧ Int64.ofInt x ≤ stop := by
  have hmin := start.le_toInt
  have hmax := stop.toInt_lt
  have heq : (Int64.ofInt x).toInt = x := Int64.toInt_ofInt_of_le (by omega) (by omega)
  constructor
  · exact Int64.le_iff_toInt_le.mpr (by rw [heq]; exact hx.1)
  · exact Int64.le_iff_toInt_le.mpr (by rw [heq]; exact hx.2)

theorem exists_selects_firstIndex (start stop : Int64) (hstep : step ≠ 0) :
    ∃ count, Selects start.toInt stop.toInt (firstIndex start stop step).toInt step.toInt count ∧
      (Leaves start stop step ↔ ¬ (Int64.ofInt ((firstIndex start stop step).toInt + count * step.toInt) ≥ start ∧
          Int64.ofInt ((firstIndex start stop step).toInt + count * step.toInt) ≤ stop)) := by
  by_cases hle : start ≤ stop
  · obtain ⟨count, hselects, hlast⟩ := exists_selects (Int64.le_iff_toInt_le.mp hle) (toInt_ne_zero hstep)
    rw [← toInt_firstIndex] at hselects hlast
    refine ⟨count + 1, hselects, ?_⟩
    rw [← ofInt_succ, hlast]
    exact ⟨fun hleaves => hleaves hle, fun hleft _ => hleft⟩
  · have hends : stop.toInt < start.toInt := Int.not_le.mp fun h => hle (Int64.le_iff_toInt_le.mpr h)
    refine ⟨0, ⟨fun i hi => absurd hi (Nat.not_lt_zero i), by omega⟩, ?_⟩
    refine iff_of_true (fun h => absurd h hle) fun hwithin => ?_
    exact hle (Int64.le_iff_toInt_le.mpr (Int.le_trans (Int64.le_iff_toInt_le.mp hwithin.1)
      (Int64.le_iff_toInt_le.mp hwithin.2)))

theorem left_of_trace {count turns : Nat} (first : Int64)
    (hwithin : ∀ i < count, Int64.ofInt (first.toInt + i * step.toInt) ≥ start ∧
      Int64.ofInt (first.toInt + i * step.toInt) ≤ stop)
    (hloop : theLoop (fun index trace => trace ++ [index]) (fun _ => start) (fun _ => stop) step turns first [] =
      .ok ((values first.toInt step.toInt count).foldl (fun trace x => trace ++ [Int64.ofInt x]) [])) :
    ¬ (Int64.ofInt (first.toInt + count * step.toInt) ≥ start ∧
      Int64.ofInt (first.toInt + count * step.toInt) ≤ stop) := by
  intro hmore
  have hwithin' : ∀ i < count + 1, Int64.ofInt (first.toInt + i * step.toInt) ≥ start ∧
      Int64.ofInt (first.toInt + i * step.toInt) ≤ stop := by
    intro i hi
    rcases Nat.lt_succ_iff_lt_or_eq.mp hi with hlt | rfl
    · exact hwithin i hlt
    · exact hmore
  rcases Nat.le_total (count + 1) turns with hle | hge
  · obtain ⟨more, rfl⟩ := Nat.exists_eq_add_of_le hle
    rw [theLoop_add _ first (count + 1) [] hwithin' more] at hloop
    have hlength := (trace_isPrefix more hloop).length_le
    simp only [length_trace, length_values] at hlength
    omega
  · -- the turns were not enough even for the integers
    have hnone := theLoop_add (fun index trace => trace ++ [index]) first turns ([] : List Int64)
      (fun i hi => hwithin' i (Nat.lt_of_lt_of_le hi hge)) 0
    rw [Nat.add_zero, hloop, theLoop] at hnone
    cases hnone

theorem rangeRunsThrough_iff (start stop srcStep step : Int64) : RangeRunsThrough start stop srcStep step ↔
      step * srcStep ≠ 0 ∧ Leaves start stop (step * srcStep) := by
  by_cases hstep : step * srcStep = 0
  · refine iff_of_false ?_ fun h => h.1 hstep
    rintro ⟨count, -, -, hruns⟩
    obtain ⟨turns, hturns⟩ := hruns Unit (fun _ state => state) _ _ () (endsKept_const _ start stop _)
    rw [forRange_of_zero hstep] at hturns
    cases hturns
  · obtain ⟨count, hselects, hleaves⟩ := exists_selects_firstIndex start stop hstep
    have hwithin := fun i hi => ofInt_within (hselects.within i hi)
    rw [hleaves]
    constructor
    · rintro ⟨count', hselects', -, hruns⟩
      obtain rfl := selects_unique hselects hselects'
      obtain ⟨turns, hturns⟩ :=
        hruns (List Int64) (fun index trace => trace ++ [index]) _ _ [] (endsKept_const _ start stop _)
      rw [forRange_eq hstep (endsKept_const _ start stop _)] at hturns
      exact ⟨hstep, left_of_trace _ hwithin hturns⟩
    · rintro ⟨-, hleft⟩
      refine ⟨count, hselects, nodup_values _ (toInt_ne_zero hstep) count, fun σ body _ _ state hkept => ⟨count + 1, ?_⟩⟩
      rw [forRange_eq hstep hkept, theLoop_add body _ count state hwithin, theLoop_of_left hleft]

theorem ofInt_eq_iff (x : Int) (value : Int64) :
    Int64.ofInt x = value ↔ (18446744073709551616 : Int) ∣ value.toInt - x := by
  have hmin := value.le_toInt
  have hmax := value.toInt_lt
  rw [Int64.ofInt_eq_iff_bmod_eq_toInt, Int.bmod_eq_iff (by decide)]
  exact ⟨fun h => h.2.2, fun h => ⟨by omega, by omega, h⟩⟩

theorem toInt_stop (array : ArraySize) : array.stop.toInt = (array.size.toNat : Int) - 1 := by
  have hfits := array.fits
  have hsub : (array.size - 1).toNat = (18446744073709551616 - 1 + array.size.toNat) % 18446744073709551616 :=
    UInt64.toNat_sub _ _
  have htoInt : array.stop.toInt = ((array.size - 1).toNat : Int).bmod 18446744073709551616 :=
    BitVec.toInt_eq_toNat_bmod _
  rw [htoInt, Int.bmod_eq_iff (by decide)]
  omega

theorem leaves_array (array : ArraySize) (hstep : step ≠ 0) : Leaves 0 array.stop step := by
  obtain ⟨count, hselects, hleaves⟩ := exists_selects_firstIndex 0 array.stop hstep
  rw [hleaves]
  intro hwithin
  have hfits := array.fits
  have hmin := step.le_toInt
  have hmax := step.toInt_lt
  have hstop := toInt_stop array
  have hnext := hselects.next
  have hindex := (ofInt_eq_iff ((firstIndex 0 array.stop step).toInt + count * step.toInt) _).mp rfl
  have hlower := Int64.le_iff_toInt_le.mp hwithin.1
  have hupper := Int64.le_iff_toInt_le.mp hwithin.2
  have hzero : (0 : Int64).toInt = 0 := rfl
  rw [hzero] at hnext hlower
  cases count with
  | zero =>
    have hfirst := toInt_firstIndex 0 array.stop step
    rw [hzero] at hfirst
    split at hfirst <;> omega
  | succ count =>
    have hlast := hselects.within count (Nat.lt_succ_self count)
    rw [Int.natCast_add, Int.add_mul, Int.natCast_one, Int.one_mul] at hnext hindex hlower hupper
    rw [hzero] at hlast
    omega

theorem arrayRunsThrough_iff (array : ArraySize) (step : Int64) : ArrayRunsThrough array step ↔ step ≠ 0 := by
  constructor
  · rintro ⟨count, -, -, hruns⟩ rfl
    obtain ⟨turns, hturns⟩ := hruns Unit Unit (fun _ _ => ()) (fun _ state => state) ()
    rw [forArray, forRange_of_zero rfl] at hturns
    cases hturns
  · intro hstep
    have hone : step * 1 = step := Int64.mul_one step
    have hfirst : (firstIndex 0 array.stop step).toInt = if step > 0 then 0 else (array.size.toNat : Int) - 1 := by
      unfold firstIndex
      split
      · rfl
      · exact toInt_stop array
    obtain ⟨count, hselects, hnodup, hruns⟩ :=
      (rangeRunsThrough_iff 0 array.stop 1 step).mpr (by rw [hone]; exact ⟨hstep, leaves_array array hstep⟩)
    rw [hone, hfirst] at hselects hnodup hruns
    rw [toInt_stop] at hselects
    exact ⟨count, hselects, hnodup, fun σ α arrayGet body state => hruns σ _ _ _ state (endsKept_const _ _ _ state)⟩

/-- Every loop over an array runs through its indices. A loop over a range runs through the integers within its
ends exactly if the next one, wrapped, is outside. -/
theorem forLoops_exact (start stop srcStep step : Int64) :
    (RangeRunsThrough start stop srcStep step ↔ step * srcStep ≠ 0 ∧ Leaves start stop (step * srcStep)) ∧
      ∀ array, ArrayRunsThrough array step ↔ step ≠ 0 :=
  ⟨rangeRunsThrough_iff start stop srcStep step, fun array => arrayRunsThrough_iff array step⟩

def Ends (start stop srcStep step : Int64) : Prop :=
  ∀ (σ : Type) (body : Int64 → σ → σ) (startOf stopOf : σ → Int64) (state : σ),
    EndsKept body startOf stopOf start stop state →
      ∃ turns out, forRange body startOf stopOf srcStep step turns state = .ok out

theorem theLoop_endless (first : Int64) (hwithin : ∀ i : Nat, Int64.ofInt (first.toInt + i * step.toInt) ≥ start ∧
      Int64.ofInt (first.toInt + i * step.toInt) ≤ stop) (turns : Nat) (state : σ) :
    theLoop body (fun _ => start) (fun _ => stop) step turns first state = .error .running :=
  theLoop_add body first turns state (fun i _ => hwithin i) 0

theorem exists_ofInt_eq_iff (first step value : Int64) :
    (∃ i : Nat, Int64.ofInt (first.toInt + i * step.toInt) = value) ↔
      (Int.gcd step.toInt 18446744073709551616 : Int) ∣ value.toInt - first.toInt := by
  simp only [ofInt_eq_iff]
  constructor
  · rintro ⟨i, hi⟩
    have hsize := (Int.gcd_dvd_right step.toInt 18446744073709551616).trans hi
    have hmul := (Int.gcd_dvd_left step.toInt 18446744073709551616).mul_left (i : Int)
    have hsum := Int.dvd_add hsize hmul
    rwa [show value.toInt - (first.toInt + i * step.toInt) + i * step.toInt = value.toInt - first.toInt by omega] at hsum
  · rintro ⟨m, hm⟩
    -- Bézout: the step, so many times, is the divisor up to multiples of the number of values
    have hbezout := Int.gcd_eq_gcd_ab step.toInt 18446744073709551616
    generalize Int.gcdA step.toInt 18446744073709551616 = u at hbezout
    generalize Int.gcdB step.toInt 18446744073709551616 = v at hbezout
    have hnonneg : 0 ≤ u * m % 18446744073709551616 := Int.emod_nonneg _ (by decide)
    have hmod := Int.emod_add_mul_ediv (u * m) 18446744073709551616
    refine ⟨(u * m % 18446744073709551616).toNat, v * m + u * m / 18446744073709551616 * step.toInt, ?_⟩
    rw [Int.toNat_of_nonneg hnonneg]
    rw [hbezout] at hm
    linear_combination hm - step.toInt * hmod

/-- A loop over a range whose ends its body keeps ends exactly if some value that the additions reach is outside
the ends. -/
theorem ends_iff (start stop srcStep step : Int64) (hstep : step * srcStep ≠ 0) :
    Ends start stop srcStep step ↔ ∃ value : Int64, ¬ (value ≥ start ∧ value ≤ stop) ∧
        (Int.gcd (step * srcStep).toInt 18446744073709551616 : Int) ∣
          value.toInt - (firstIndex start stop (step * srcStep)).toInt := by
  simp only [← exists_ofInt_eq_iff]
  constructor
  · intro hends
    by_contra hnone
    obtain ⟨turns, out, hout⟩ := hends Unit (fun _ state => state) _ _ () (endsKept_const _ _ _ _)
    rw [forRange_eq hstep (endsKept_const _ _ _ _),
      theLoop_endless _ fun i => not_not.mp fun h => hnone ⟨_, h, i, rfl⟩] at hout
    cases hout
  · rintro ⟨value, hleft, i, rfl⟩ σ body startOf stopOf state hkept
    classical
    have hexists : ∃ i : Nat, ¬ (Int64.ofInt ((firstIndex start stop (step * srcStep)).toInt +
        i * (step * srcStep).toInt) ≥ start ∧ Int64.ofInt ((firstIndex start stop (step * srcStep)).toInt +
        i * (step * srcStep).toInt) ≤ stop) := ⟨i, hleft⟩
    have hbefore := fun i hi => not_not.mp (Nat.find_min hexists (m := i) hi)
    have hend := theLoop_add body _ _ state hbefore 1
    rw [theLoop_of_left (Nat.find_spec hexists), ← forRange_eq hstep hkept] at hend
    exact ⟨Nat.find hexists + 1, _, hend⟩

-- `let n = 3 in for i in [0..n] n = n - 1` ends after two turns.
example : forRange (fun _ n => n - 1) (fun _ => 0) id 1 1 3 (3 : Int64) = .ok 1 := rfl

theorem within_allValues (value : Int64) : value ≥ Int64.minValue ∧ value ≤ Int64.maxValue :=
  ⟨Int64.minValue_le value, Int64.le_maxValue value⟩

theorem ends_iff_allValues : ¬ Ends Int64.minValue Int64.maxValue 1 4 := by
  rw [ends_iff _ _ _ _ (by decide)]
  rintro ⟨value, houtside, -⟩
  exact houtside (within_allValues value)

/-- The loop over all values never ends. -/
theorem forRange_allValues :
    ¬ RangeRunsThrough Int64.minValue Int64.maxValue 1 1 ∧ ¬ Leaves Int64.minValue Int64.maxValue 1 ∧
      ∀ (turns : Nat) (trace : List Int64),
        forRange (fun index trace => trace ++ [index]) (fun _ => Int64.minValue) (fun _ => Int64.maxValue) 1 1 turns trace =
          .error .running := by
  refine ⟨?_, fun hleaves => hleaves (by decide) (within_allValues _), fun turns trace => ?_⟩
  · rintro ⟨count, -, -, hruns⟩
    obtain ⟨turns, hturns⟩ := hruns Unit (fun _ _ => ()) _ _ () (endsKept_const _ _ _ _)
    rw [forRange_eq (by decide) (endsKept_const _ _ _ _), theLoop_endless _ fun i => within_allValues _] at hturns
    cases hturns
  · rw [forRange_eq (by decide) (endsKept_const _ _ _ _)]
    exact theLoop_endless _ (fun i => within_allValues _) turns trace

end Lfmr.RangeLoop
