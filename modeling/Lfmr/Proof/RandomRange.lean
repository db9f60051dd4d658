import Lfmr.RandomNumbers

/-!
# The range of the random numbers

The modulus is 16807 · 127773 + 2836, so that a call multiplies the seed by 16807 up to a multiple of the
modulus. A value in the range leads to a value in the range; what a first seed leads to depends on its size.
-/

namespace Lfmr.RandomNumbers

def product (x : Int) : Int := 16807 * x.tmod 127773 - 2836 * x.tdiv 127773

def reduce (t : Int) : Int := if t ≤ 0 then t + 2147483647 else t

theorem product_eq (x : Int) : product x = 16807 * x - 2147483647 * x.tdiv 127773 := by
  have hdivision := Int.tmod_add_mul_tdiv x 127773
  unfold product
  omega

theorem reduce_emod (t : Int) : reduce t % 2147483647 = t % 2147483647 := by
  unfold reduce
  split
  · omega
  · rfl

theorem reduce_product_emod (x : Int) : reduce (product x) % 2147483647 = (16807 * x) % 2147483647 := by
  rw [reduce_emod, product_eq]
  omega

theorem division_bounds {x : Int} (hx : -9223372036854775808 ≤ x ∧ x < 9223372036854775808) :
    -127772 ≤ x.tmod 127773 ∧ x.tmod 127773 ≤ 127772 ∧ -100000000000000 < x.tdiv 127773 ∧
      x.tdiv 127773 < 100000000000000 := by
  have hdivision := Int.tmod_add_mul_tdiv x 127773
  have hlt := Int.tmod_lt_of_pos x (b := 127773) (by decide)
  have hgt := Int.lt_tmod_of_pos x (b := 127773) (by decide)
  omega

theorem division_of_nonneg {x : Int} (hx : 0 ≤ x) :
    0 ≤ x.tmod 127773 ∧ x.tmod 127773 ≤ 127772 ∧ 0 ≤ x.tdiv 127773 ∧ x.tmod 127773 + 127773 * x.tdiv 127773 = x := by
  have hdivision := Int.tmod_add_mul_tdiv x 127773
  have hlt := Int.tmod_lt_of_pos x (b := 127773) (by decide)
  have hnonneg := Int.tmod_nonneg 127773 hx
  have hquotient := Int.tdiv_nonneg hx (b := 127773) (by decide)
  omega

theorem reduce_product_range {x : Int} (hx : 0 ≤ x) (hlt : x < 4294967296) :
    1 ≤ reduce (product x) ∧ reduce (product x) ≤ 2147483647 := by
  obtain ⟨hremainder, hremainderLe, hquotient, hdivision⟩ := division_of_nonneg hx
  unfold reduce product
  split
  · omega
  · omega

/-! ### `random.c` -/

theorem long_of_range {value : Int} (hmin : -9223372036854775808 ≤ value) (hmax : value < 9223372036854775808) :
    long value = some value := if_pos ⟨hmin, hmax⟩

theorem toInt_toInt64 {seed : UInt64} (hseed : seed.toNat < 9223372036854775808) : seed.toInt64.toInt = seed.toNat := by
  have hsmall : 2 * seed.toBitVec.toNat < 2 ^ 64 := by
    have hnat : seed.toBitVec.toNat = seed.toNat := rfl
    omega
  exact BitVec.toInt_eq_toNat_of_lt hsmall

theorem toNat_ofInt {value : Int} (hmin : 0 ≤ value) (hmax : value < 18446744073709551616) :
    ((UInt64.ofInt value).toNat : Int) = value := by
  rw [UInt64.ofInt, UInt64.toNat_ofNat']
  omega

/-- A call with a seed of 32 bits: no operation overflows. -/
theorem random_eq {seed : UInt64} (hseed : seed.toNat < 4294967296) :
    ∃ value : UInt64, random seed = some value ∧ (value.toNat : Int) = reduce (product seed.toNat) := by
  obtain ⟨hremainder, hremainderLe, hquotient, hdivision⟩ := division_of_nonneg (Int.natCast_nonneg seed.toNat)
  obtain ⟨hmin, hmax⟩ := reduce_product_range (Int.natCast_nonneg seed.toNat) (by omega)
  have hfirst : long (16807 * (seed.toNat : Int).tmod 127773) = some (16807 * (seed.toNat : Int).tmod 127773) :=
    long_of_range (by omega) (by omega)
  have hsecond : long (2836 * (seed.toNat : Int).tdiv 127773) = some (2836 * (seed.toNat : Int).tdiv 127773) :=
    long_of_range (by omega) (by omega)
  have hproduct : long (product seed.toNat) = some (product seed.toNat) := by
    unfold product
    exact long_of_range (by omega) (by omega)
  have hlast : addModulus (product seed.toNat) = some (reduce (product seed.toNat)) := by
    rw [reduce] at hmin hmax ⊢
    rw [addModulus]
    split
    · rename_i hneg
      rw [if_pos hneg] at hmin hmax
      exact long_of_range (by omega) (by omega)
    · rfl
  refine ⟨UInt64.ofInt (reduce (product seed.toNat)), ?_, toNat_ofInt (by omega) (by omega)⟩
  calc random seed = (long (product seed.toNat)).bind fun t => (addModulus t).bind fun t => some (UInt64.ofInt t) := by
        rw [random, toInt_toInt64 (by omega), hfirst, hsecond]
        rfl
    _ = some (UInt64.ofInt (reduce (product seed.toNat))) := by
        rw [hproduct, Option.bind_some, hlast, Option.bind_some]

theorem random_step {seed : UInt64} (hseed : seed.toNat < 4294967296) :
    ∃ value : UInt64, random seed = some value ∧ 1 ≤ value.toNat ∧ value.toNat ≤ 2147483647 ∧
      value.toNat % 2147483647 = (16807 * seed.toNat) % 2147483647 := by
  obtain ⟨value, hrandom, hvalue⟩ := random_eq hseed
  obtain ⟨hmin, hmax⟩ := reduce_product_range (Int.natCast_nonneg seed.toNat) (by omega)
  have hcongruent := reduce_product_emod seed.toNat
  exact ⟨value, hrandom, by omega, by omega, by omega⟩

/-- The values of successive calls, for a seed of 32 bits. -/
theorem random_congruent (seed : UInt64) (hseed : seed.toNat < 4294967296) (n : Nat) (hn : 1 ≤ n) :
    ∃ value : UInt64, randomAfter seed n = some value ∧ 1 ≤ value.toNat ∧ value.toNat ≤ 2147483647 ∧
      value.toNat % 2147483647 = (16807 ^ n * seed.toNat) % 2147483647 := by
  induction n with
  | zero => exact absurd hn (Nat.not_succ_le_zero 0)
  | succ n ih =>
    -- the seed of the last call: the seed of the thread, or what the call before returned
    obtain ⟨before, hbefore, hsmall, hcongruent⟩ : ∃ before : UInt64, randomAfter seed n = some before ∧
        before.toNat < 4294967296 ∧ before.toNat % 2147483647 = (16807 ^ n * seed.toNat) % 2147483647 := by
      cases n with
      | zero => exact ⟨seed, rfl, hseed, by rw [Nat.pow_zero, Nat.one_mul]⟩
      | succ n =>
        obtain ⟨before, hbefore, -, hmax, hcongruent⟩ := ih (Nat.succ_pos n)
        exact ⟨before, hbefore, by omega, hcongruent⟩
    obtain ⟨value, hrandom, hmin, hmax, hvalue⟩ := random_step hsmall
    refine ⟨value, ?_, hmin, hmax, ?_⟩
    · rw [randomAfter, hbefore, Option.bind_some, hrandom]
    · calc value.toNat % 2147483647
          = (16807 * before.toNat) % 2147483647 := hvalue
        _ = (16807 * (16807 ^ n * seed.toNat)) % 2147483647 := by
            rw [Nat.mul_mod, hcongruent, ← Nat.mul_mod]
        _ = (16807 ^ (n + 1) * seed.toNat) % 2147483647 := by
            rw [Nat.pow_succ, Nat.mul_comm (16807 ^ n) 16807, Nat.mul_assoc]

/-- The third value for a seed above the modulus. -/
theorem random_congruent_third :
    ∃ value : UInt64, randomAfter 4294967295 3 = some value ∧ 1 ≤ value.toNat ∧ value.toNat ≤ 2147483647 ∧
      value.toNat % 2147483647 = (16807 ^ 3 * 4294967295) % 2147483647 :=
  random_congruent 4294967295 (by decide) 3 (by decide)

/-! ### `MyList.java` and `MyQueue.java` -/

theorem bmod_of_range {value : Int} (hmin : -9223372036854775808 ≤ value) (hmax : value < 9223372036854775808) :
    value.bmod (2 ^ 64) = value :=
  Int.bmod_eq_of_le (by omega) (by omega)

theorem toInt_range (seed : Int64) : -9223372036854775808 ≤ seed.toInt ∧ seed.toInt < 9223372036854775808 :=
  ⟨seed.le_toInt, seed.toInt_lt⟩

theorem toInt_next (seed : Int64) : (next seed).toInt = reduce (product seed.toInt) := by
  obtain ⟨hremainder, hremainderLe, hquotient, hquotientLt⟩ := division_bounds (toInt_range seed)
  have hdivisor : (127773 : Int64).toInt = 127773 := rfl
  have hmultiplier : (16807 : Int64).toInt = 16807 := rfl
  have hcorrection : (2836 : Int64).toInt = 2836 := rfl
  have hmodulus : (0x7fffffff : Int64).toInt = 2147483647 := rfl
  have hhi : (seed / 127773).toInt = seed.toInt.tdiv 127773 := by
    rw [Int64.toInt_div, hdivisor]
    exact bmod_of_range (by omega) (by omega)
  have hlo : (seed % 127773).toInt = seed.toInt.tmod 127773 := Int64.toInt_mod ..
  have hfirst : (16807 * (seed % 127773)).toInt = 16807 * seed.toInt.tmod 127773 := by
    rw [Int64.toInt_mul, hmultiplier, hlo]
    exact bmod_of_range (by omega) (by omega)
  have hsecond : (2836 * (seed / 127773)).toInt = 2836 * seed.toInt.tdiv 127773 := by
    rw [Int64.toInt_mul, hcorrection, hhi]
    exact bmod_of_range (by omega) (by omega)
  have hproduct : (16807 * (seed % 127773) - 2836 * (seed / 127773)).toInt = product seed.toInt := by
    rw [Int64.toInt_sub, hfirst, hsecond]
    exact bmod_of_range (by omega) (by omega)
  rw [next, reduce]
  by_cases hneg : product seed.toInt ≤ 0
  · rw [if_pos hneg, if_pos (Int64.le_iff_toInt_le.mpr (by rwa [hproduct])), Int64.toInt_add, hproduct, hmodulus]
    unfold product at *
    exact bmod_of_range (by omega) (by omega)
  · rw [if_neg hneg, if_neg fun hle => hneg (by rw [← hproduct]; exact Int64.le_iff_toInt_le.mp hle), hproduct]

theorem nextAfter_range {seed : Int64} (hmin : 0 ≤ seed.toInt) (hmax : seed.toInt ≤ 2147483647) (n : Nat) :
    0 ≤ (nextAfter seed n).toInt ∧ (nextAfter seed n).toInt ≤ 2147483647 := by
  induction n with
  | zero => exact ⟨hmin, hmax⟩
  | succ n ih =>
    obtain ⟨hstepMin, hstepMax⟩ := reduce_product_range ih.1 (by omega)
    rw [nextAfter, Function.iterate_succ_apply', toInt_next]
    exact ⟨Int.le_of_lt hstepMin, hstepMax⟩

theorem toInt_shiftRight_nonneg {r : Int64} (hr : 0 ≤ r.toInt) (count : Int64) : 0 ≤ (r >>> count).toInt := by
  have hbefore : r.toBitVec.msb = false := by
    rw [BitVec.msb_eq_toInt]
    exact decide_eq_false (Int.not_lt.mpr hr)
  have hafter : (r >>> count).toBitVec.msb = false := by
    rw [Int64.toBitVec_shiftRight, BitVec.msb_sshiftRight']
    exact hbefore
  rw [BitVec.msb_eq_toInt] at hafter
  exact Int.not_lt.mp (of_decide_eq_false hafter)

theorem key_nonneg {r : Int64} (hr : 0 ≤ r.toInt) (nKeys : Int64) : 0 ≤ (key nKeys r).toInt := by
  have hshifted := toInt_shiftRight_nonneg (toInt_shiftRight_nonneg hr 1) 10
  rw [key, Int64.toInt_mod]
  exact Int.tmod_nonneg _ hshifted

theorem reduce_range_iff {t : Int} : 0 ≤ reduce t ∧ reduce t ≤ 2147483647 ↔ -2147483647 ≤ t ∧ t ≤ 2147483647 := by
  unfold reduce
  split
  · omega
  · omega

/-- All values are in the range if the first is. -/
theorem next_inRange_iff (seed : Int64) :
    (∀ n, 1 ≤ n → (0 ≤ (nextAfter seed n).toInt ∧ (nextAfter seed n).toInt ≤ 2147483647) ∧
      ∀ nKeys, 0 ≤ (key nKeys (nextAfter seed n)).toInt) ↔
      -2147483647 ≤ 16807 * seed.toInt.tmod 127773 - 2836 * seed.toInt.tdiv 127773 ∧
        16807 * seed.toInt.tmod 127773 - 2836 * seed.toInt.tdiv 127773 ≤ 2147483647 := by
  have hfirst : 0 ≤ (next seed).toInt ∧ (next seed).toInt ≤ 2147483647 ↔
      -2147483647 ≤ product seed.toInt ∧ product seed.toInt ≤ 2147483647 := by
    rw [toInt_next, reduce_range_iff]
  refine Iff.trans ⟨fun hall => ?_, fun hrange n hn => ?_⟩ hfirst
  · exact (hall 1 (Nat.le_refl 1)).1
  · obtain ⟨m, rfl⟩ : ∃ m, n = m + 1 := Nat.exists_eq_add_of_le' hn
    have hvalue := nextAfter_range hrange.1 hrange.2 m
    rw [nextAfter, ← Function.iterate_succ_apply] at hvalue
    exact ⟨hvalue, key_nonneg hvalue.1⟩

/-- The seed after somewhat more than eleven days of nanoseconds. -/
theorem next_negative : (next 1000000000000000).toInt = -22193329499318 ∧ (key 200 (next 1000000000000000)).toInt = -70 := by
  decide

end Lfmr.RandomNumbers
