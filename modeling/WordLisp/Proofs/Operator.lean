import Mathlib
import WordLisp.Operator

/-!
# Operators and the integers

What the operators do to words is integer arithmetic, wrapped to 32 bits where the result does not fit.
Wrapping is the remainder by `2 ^ 32` that lies around zero, `Int.bmod`. A quotient and a power with a
negative exponent are fractions in general, and then the result is their integer part.
-/

namespace WordLisp

/-! ## Integer parts -/

/-- What is left of `x` when its fraction is cut off. -/
def integerPart [Ring α] [LinearOrder α] [FloorRing α] (x : α) : ℤ := if 0 ≤ x then ⌊x⌋ else ⌈x⌉

theorem integerPart_neg (x : ℝ) : integerPart (-x) = -integerPart x := by
  unfold integerPart
  rcases lt_trichotomy x 0 with h | rfl | h
  · rw [if_pos (by linarith), if_neg (by linarith), Int.floor_neg]
  · simp
  · rw [if_neg (by linarith), if_pos h.le, Int.ceil_neg]

theorem integerPart_natCast_div (m n : ℕ) : integerPart ((m : ℝ) / n) = (m / n : ℕ) := by
  unfold integerPart
  rw [if_pos (by positivity), Int.floor_div_natCast, Int.floor_natCast, Int.natCast_div]

/-- Division of integers that truncates toward zero. -/
theorem integerPart_intCast_div (a b : ℤ) : integerPart ((a : ℝ) / b) = a.tdiv b := by
  obtain ⟨m, rfl | rfl⟩ := a.eq_nat_or_neg <;> obtain ⟨n, rfl | rfl⟩ := b.eq_nat_or_neg <;>
    simp only [Int.cast_neg, Int.cast_natCast, neg_div, div_neg, integerPart_neg, integerPart_natCast_div,
      Int.neg_tdiv, Int.tdiv_neg, Int.ofNat_tdiv]

example : integerPart (-7 / 2 : ℚ) = -3 := by decide +kernel

theorem integerPart_intCast (a : ℤ) : integerPart (a : ℝ) = a := by
  unfold integerPart
  rw [Int.floor_intCast, Int.ceil_intCast, ite_self]

theorem integerPart_eq_zero {x : ℝ} (h : |x| < 1) : integerPart x = 0 := by
  obtain ⟨hlow, hhigh⟩ := abs_lt.mp h
  unfold integerPart
  split
  · next hx => exact Int.floor_eq_zero_iff.mpr ⟨hx, hhigh⟩
  · next hx => exact Int.ceil_eq_zero_iff.mpr ⟨hlow, by linarith⟩

theorem integerPart_zpow_eq_zero {a n : ℤ} (ha : 1 < |a|) (hn : n < 0) :
    integerPart ((a : ℝ) ^ n) = 0 := by
  refine integerPart_eq_zero ?_
  rw [abs_zpow, ← Int.cast_abs]
  exact zpow_lt_one_of_neg₀ (by exact_mod_cast ha) hn

theorem integerPart_neg_one_zpow (n : ℤ) : integerPart ((-1 : ℝ) ^ n) = if Even n then 1 else -1 := by
  split
  · next h =>
    rw [h.neg_one_zpow]
    exact_mod_cast integerPart_intCast 1
  · next h =>
    rw [(Int.not_even_iff_odd.mp h).neg_one_zpow]
    exact_mod_cast integerPart_intCast (-1)

/-! ## Powers -/

namespace Word

theorem pow_ofInt (i : ℤ) (n : ℕ) : pow (Int32.ofInt i) n = Int32.ofInt (i ^ n) := by
  induction n using Nat.strongRecOn generalizing i with
  | ind n ih =>
    rw [pow, ← Int32.ofInt_mul]
    split
    · next hn =>
      rw [hn, pow_zero]
      rfl
    · -- The square of the base takes the place of half the exponent.
      rw [ih (n / 2) (by omega), ← pow_two, ← pow_mul]
      split
      · next hn => rw [show 2 * (n / 2) = n by omega]
      · next hn => rw [← Int32.ofInt_mul, ← pow_succ', show 2 * (n / 2) + 1 = n by omega]

theorem toInt_pow (w : Word) (n : ℕ) : (pow w n).toInt = (w.toInt ^ n).bmod (2 ^ 32) := by
  have h : (pow (Int32.ofInt w.toInt) n).toInt = _ := congrArg Int32.toInt (pow_ofInt w.toInt n)
  rw [Int32.ofInt_toInt] at h
  exact h.trans Int32.toInt_ofInt

theorem mod_two_eq_zero_iff (w : Word) : w % 2 = 0 ↔ Even w.toInt := by
  have hmod : (w % 2).toInt = w.toInt.tmod 2 := Int32.toInt_mod w 2
  rw [← Int32.toInt_inj, hmod, even_iff_two_dvd, Int.dvd_iff_tmod_eq_zero]
  rfl

theorem power_of_neg {exponent : Word} (h : exponent.toInt < 0) (base : Word) :
    power base exponent =
      if base = 1 then 1 else if base = -1 then (if Even exponent.toInt then 1 else -1) else 0 := by
  have hneg : ¬ 0 ≤ exponent := fun hle => not_le.mpr h (Int32.le_iff_toInt_le.mp hle)
  rw [power, if_neg hneg]
  simp only [mod_two_eq_zero_iff]

/-- A negative power of one or minus one is an integer, and that of any other integer is too small for
an integer part. -/
theorem toInt_power_of_neg {base exponent : Word} (h : exponent.toInt < 0) (hbase : base ≠ 0) :
    (power base exponent).toInt = integerPart ((base.toInt : ℝ) ^ exponent.toInt) := by
  rw [power_of_neg h]
  split
  · next hone =>
    have hcast : ((base.toInt : ℤ) : ℝ) = 1 := by simp [hone]
    rw [hcast, one_zpow]
    exact_mod_cast (integerPart_intCast 1).symm
  · next hone =>
    split
    · next hminus =>
      have hcast : ((base.toInt : ℤ) : ℝ) = -1 := by simp [hminus]
      rw [hcast, integerPart_neg_one_zpow]
      split <;> rfl
    · next hminus =>
      have h0 : base.toInt ≠ 0 := fun h => hbase (Int32.toInt_inj.mp h)
      have h1 : base.toInt ≠ 1 := fun h => hone (Int32.toInt_inj.mp h)
      have h2 : base.toInt ≠ -1 := fun h => hminus (Int32.toInt_inj.mp h)
      have hlarge : 1 < |base.toInt| := lt_abs.mpr (by omega)
      rw [integerPart_zpow_eq_zero hlarge h]
      rfl

/-! ## Distances -/

/-- How far a shift by `w` goes: its remainder by 32, which is not negative. -/
def distance (w : Word) : ℕ := (w.toInt % 32).toNat

theorem distance_eq (w : Word) : (distance w : ℤ) = w.toInt % 32 :=
  Int.toNat_of_nonneg (Int.emod_nonneg _ (by decide))

theorem toNat_smod (w : Word) : (w.toBitVec.smod 32).toNat = distance w := by
  have hsmod : (w.toBitVec.smod 32).toInt = w.toInt % 32 :=
    BitVec.toInt_smod.trans (Int.fmod_eq_emod_of_nonneg _ (by decide))
  -- The remainder is too small to be taken for a negative number.
  rw [BitVec.toInt_eq_toNat_cond] at hsmod
  have := distance_eq w
  split at hsmod <;> omega

theorem toInt_shiftLeft (v w : Word) :
    (v <<< w).toInt = (v.toInt * 2 ^ distance w).bmod (2 ^ 32) := by
  have hv : v.toInt = (v.toBitVec.toNat : ℤ).bmod (2 ^ 32) := BitVec.toInt_eq_toNat_bmod _
  rw [← Int32.toInt_toBitVec, Int32.toBitVec_shiftLeft, BitVec.shiftLeft_eq', toNat_smod,
    BitVec.toInt_shiftLeft, Nat.shiftLeft_eq, hv, Int.bmod_mul_bmod]
  push_cast
  rfl

theorem toInt_shiftRight (v w : Word) :
    (v >>> w).toInt = ⌊(v.toInt : ℝ) / 2 ^ distance w⌋ := by
  have hcast : (2 : ℝ) ^ distance w = ((2 ^ distance w : ℕ) : ℝ) := by push_cast; rfl
  rw [← Int32.toInt_toBitVec, Int32.toBitVec_shiftRight, BitVec.sshiftRight_eq', toNat_smod,
    BitVec.toInt_sshiftRight, Int.shiftRight_eq_div_pow, hcast, Int.floor_div_natCast,
    Int.floor_intCast]
  rfl

/-! ## Truth values -/

/-- The word is `1` if `p` holds and `0` if it does not. -/
def Tells (w : Word) (p : Prop) : Prop := (p → w = 1) ∧ (¬ p → w = 0)

theorem tells_ofBool {p q : Prop} [Decidable p] (h : p ↔ q) : Tells (ofBool p) q := by
  unfold Tells ofBool
  rw [← h]
  by_cases hp : p <;> simp [hp]

theorem toInt_eq_zero_iff {w : Word} : w = 0 ↔ w.toInt = 0 := Int32.toInt_inj.symm

end Word

/-! ## The operators -/

namespace BinaryOp
open Word

/-- Sums, differences and products are those of the integers, wrapped. -/
structure Wraps (l r : Word) : Prop where
  sum : (add.apply l r).toInt = (l.toInt + r.toInt).bmod (2 ^ 32)
  difference : (sub.apply l r).toInt = (l.toInt - r.toInt).bmod (2 ^ 32)
  product : (mul.apply l r).toInt = (l.toInt * r.toInt).bmod (2 ^ 32)

/-- Division truncates toward zero. The quotient of the least word by `-1` does not fit. -/
structure Divides (l r : Word) : Prop where
  quotient : r ≠ 0 →
    (div.apply l r).toInt = (integerPart ((l.toInt : ℝ) / r.toInt)).bmod (2 ^ 32)
  remainder : r ≠ 0 →
    (rem.apply l r).toInt = l.toInt - integerPart ((l.toInt : ℝ) / r.toInt) * r.toInt
  recompose : r ≠ 0 →
    l.toInt ≡ (div.apply l r).toInt * r.toInt + (rem.apply l r).toInt [ZMOD 2 ^ 32]
  remainder_lt : r ≠ 0 → |(rem.apply l r).toInt| < |r.toInt|
  remainder_sign : (rem.apply l r).toInt = 0 ∨ (rem.apply l r).toInt.sign = l.toInt.sign
  by_zero : r = 0 → div.apply l r = 0 ∧ rem.apply l r = 0
  overflow : l = Int32.minValue → r = -1 → div.apply l r = Int32.minValue

/-- A shift multiplies by a power of two and wraps, or divides by one and rounds down. -/
structure Shifts (l r : Word) : Prop where
  distance_lt : distance r < 32
  distance_modEq : distance r ≡ r.toInt [ZMOD 32]
  left : (shiftLeft.apply l r).toInt = (l.toInt * 2 ^ distance r).bmod (2 ^ 32)
  right : (shiftRight.apply l r).toInt = ⌊(l.toInt : ℝ) / 2 ^ distance r⌋

/-- Words are compared with their signs, and any word but zero counts as true. -/
structure Compares (l r : Word) : Prop where
  eq : Tells (eq.apply l r) (l.toInt = r.toInt)
  ne : Tells (ne.apply l r) (l.toInt ≠ r.toInt)
  le : Tells (le.apply l r) (l.toInt ≤ r.toInt)
  ge : Tells (ge.apply l r) (l.toInt ≥ r.toInt)
  lt : Tells (lt.apply l r) (l.toInt < r.toInt)
  gt : Tells (gt.apply l r) (l.toInt > r.toInt)
  and : Tells (and.apply l r) (l.toInt ≠ 0 ∧ r.toInt ≠ 0)
  or : Tells (or.apply l r) (l.toInt ≠ 0 ∨ r.toInt ≠ 0)
  not : Tells (UnaryOp.not.apply l) (l.toInt = 0)

/-- A power is wrapped, and with a negative exponent its integer part is taken. Zero has no such
power, and the result is zero. -/
structure Raises (l r : Word) : Prop where
  wrapped : 0 ≤ r.toInt → (pow.apply l r).toInt = (l.toInt ^ r.toInt.toNat).bmod (2 ^ 32)
  truncated : r.toInt < 0 → l ≠ 0 →
    (pow.apply l r).toInt = integerPart ((l.toInt : ℝ) ^ r.toInt)
  of_zero : r.toInt < 0 → l = 0 → pow.apply l r = 0

theorem wraps (l r : Word) : Wraps l r :=
  ⟨Int32.toInt_add l r, Int32.toInt_sub l r, Int32.toInt_mul l r⟩

section
variable {r : Word} (hr : r ≠ 0) (l : Word)
include hr

theorem toInt_div : (div.apply l r).toInt = (l.toInt.tdiv r.toInt).bmod (2 ^ 32) := by
  rw [apply, if_neg hr]
  exact Int32.toInt_div l r

theorem toInt_rem : (rem.apply l r).toInt = l.toInt.tmod r.toInt := by
  rw [apply, if_neg hr]
  exact Int32.toInt_mod l r

theorem div_mul_add_rem :
    l.toInt ≡ (div.apply l r).toInt * r.toInt + (rem.apply l r).toInt [ZMOD 2 ^ 32] := by
  have hwrap : l.toInt.tdiv r.toInt ≡ (div.apply l r).toInt [ZMOD 2 ^ 32] := by
    rw [toInt_div hr]
    exact Int.bmod_emod.symm
  have h := (hwrap.mul_right r.toInt).add_right (l.toInt.tmod r.toInt)
  rwa [Int.add_comm, Int.tmod_add_tdiv_mul, ← toInt_rem hr] at h

theorem abs_rem_lt : |(rem.apply l r).toInt| < |r.toInt| := by
  have hpos : 0 < r.toInt.natAbs := Int.natAbs_pos.mpr fun h => hr (Int32.toInt_inj.mp h)
  rw [toInt_rem hr, Int.abs_eq_natAbs, Int.abs_eq_natAbs, Int.natAbs_tmod]
  exact_mod_cast Nat.mod_lt _ hpos

end

theorem sign_rem (l r : Word) :
    (rem.apply l r).toInt = 0 ∨ (rem.apply l r).toInt.sign = l.toInt.sign := by
  by_cases hr : r = 0
  · subst hr
    exact .inl rfl
  · rw [toInt_rem hr, Int.sign_tmod]
    split
    · next h => exact .inl (Int.tmod_eq_zero_of_dvd h)
    · exact .inr rfl

theorem divides (l r : Word) : Divides l r where
  quotient hr := by rw [integerPart_intCast_div, toInt_div hr]
  remainder hr := by rw [integerPart_intCast_div, toInt_rem hr, Int.tmod_def, Int.mul_comm]
  recompose hr := div_mul_add_rem hr l
  remainder_lt hr := abs_rem_lt hr l
  remainder_sign := sign_rem l r
  by_zero hr := ⟨if_pos hr, if_pos hr⟩
  overflow := by
    rintro rfl rfl
    decide

theorem shifts (l r : Word) : Shifts l r := by
  have hdistance := distance_eq r
  refine ⟨by omega, ?_, toInt_shiftLeft l r, toInt_shiftRight l r⟩
  rw [hdistance]
  exact Int.mod_modEq ..

theorem compares (l r : Word) : Compares l r where
  eq := tells_ofBool Int32.toInt_inj.symm
  ne := tells_ofBool (not_congr Int32.toInt_inj.symm)
  le := tells_ofBool Int32.le_iff_toInt_le
  ge := tells_ofBool Int32.le_iff_toInt_le
  lt := tells_ofBool Int32.lt_iff_toInt_lt
  gt := tells_ofBool Int32.lt_iff_toInt_lt
  and := tells_ofBool (and_congr (not_congr toInt_eq_zero_iff) (not_congr toInt_eq_zero_iff))
  or := tells_ofBool (or_congr (not_congr toInt_eq_zero_iff) (not_congr toInt_eq_zero_iff))
  not := tells_ofBool toInt_eq_zero_iff

theorem raises (l r : Word) : Raises l r := by
  refine ⟨fun hr => ?_, toInt_power_of_neg, ?_⟩
  · have hle : 0 ≤ r := Int32.le_iff_toInt_le.mpr hr
    rw [apply, power, if_pos hle]
    exact toInt_pow l _
  · rintro hr rfl
    exact power_of_neg hr 0

/-- The operators compute over the integers. -/
theorem computes_exactly (l r : Word) :
    Wraps l r ∧ Divides l r ∧ Shifts l r ∧ Compares l r ∧ Raises l r :=
  ⟨wraps l r, divides l r, shifts l r, compares l r, raises l r⟩

end BinaryOp

end WordLisp
