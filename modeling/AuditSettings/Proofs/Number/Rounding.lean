/-
AuditSettings.Proofs.Number.Rounding — the number nearest to a fraction.

A fraction is rounded to a whole number of steps, the size of a step being
told by the power of two that the fraction reaches (`quantum`). A greater
fraction is not rounded to less (`rounded_mono`): with steps of one size
because whole numbers are rounded in order, and across sizes because what is
rounded stays within the powers of two around it. From 2^1024 on the outcome
is infinite, and the powers of ten that are not worked out would come to the
same (`positivePart_ofNumeral`).
-/
import AuditSettings.Number.Binary64
import Mathlib.Algebra.Order.Field.Power
import Mathlib.Algebra.Order.Ring.Rat
import Mathlib.Data.Nat.Cast.Order.Ring
import Mathlib.Order.WithBot
import Mathlib.Tactic.FieldSimp
import Mathlib.Tactic.Linarith
import Mathlib.Tactic.NormNum
import Mathlib.Tactic.Positivity
import Mathlib.Tactic.Ring

namespace AuditSettings.Number

variable {n d n' d' m : Nat}

/-! ## Whole numbers -/

/-- A fraction is rounded to `m` at most if it is below the middle between `m`
and the next number, or if it is that middle and `m` is even. -/
theorem roundDiv_le_iff_mul (hd : 0 < d) : roundDiv n d ≤ m ↔
    2 * n < (2 * m + 1) * d ∨ 2 * n = (2 * m + 1) * d ∧ m % 2 = 0 := by
  have hn : d * (n / d) + n % d = n := Nat.div_add_mod n d
  have hr : n % d < d := Nat.mod_lt n hd
  have hmiddle : (2 * m + 1) * d = 2 * (d * m) + d := by ring
  rw [hmiddle, roundDiv]
  generalize n / d = q at hn ⊢
  generalize n % d = r at hn hr ⊢
  rcases lt_trichotomy m q with hlt | rfl | hgt
  · have hmul : d * m + d ≤ d * q := Nat.mul_le_mul_left d hlt
    constructor
    · intro h
      split_ifs at h <;> omega
    · omega
  · split_ifs <;> omega
  · have hmul : d * q + d ≤ d * m := Nat.mul_le_mul_left d hgt
    split_ifs <;> omega

theorem roundDiv_le_iff (hd : 0 < d) :
    roundDiv n d ≤ m ↔ (n / d : ℚ) < m + 1 / 2 ∨ (n / d : ℚ) = m + 1 / 2 ∧ m % 2 = 0 := by
  have hpos : (0 : ℚ) < d := Nat.cast_pos.2 hd
  rw [roundDiv_le_iff_mul hd, div_lt_iff₀ hpos, div_eq_iff hpos.ne', ← Nat.cast_lt (α := ℚ),
    ← Nat.cast_inj (R := ℚ)]
  push_cast
  have hmiddle : ((2 * m + 1) * d : ℚ) = 2 * ((m + 1 / 2) * d) := by ring
  rw [hmiddle, mul_lt_mul_iff_right₀ two_pos, mul_right_inj' two_ne_zero]

/-- What a fraction is rounded to is no more than a half away. -/
theorem roundDiv_nearest (hd : 0 < d) : |(n / d : ℚ) - roundDiv n d| ≤ 1 / 2 := by
  have hbelow : (n / d : ℚ) ≤ roundDiv n d + 1 / 2 := by
    rcases (roundDiv_le_iff hd).1 (le_refl (roundDiv n d)) with hlt | ⟨heq, -⟩
    · exact hlt.le
    · exact heq.le
  have habove : (roundDiv n d : ℚ) - 1 / 2 ≤ n / d := by
    cases hm : roundDiv n d with
    | zero =>
      have hnonneg : (0 : ℚ) ≤ n / d := by positivity
      linarith
    | succ m =>
      have hgreat : ¬ roundDiv n d ≤ m := by omega
      rw [roundDiv_le_iff hd, not_or, not_lt] at hgreat
      push_cast
      linarith [hgreat.1]
  rw [abs_le]
  constructor <;> linarith

/-- Whole numbers are rounded in order. -/
theorem roundDiv_mono (hd : 0 < d) (hd' : 0 < d') (h : (n / d : ℚ) ≤ n' / d') :
    roundDiv n d ≤ roundDiv n' d' := by
  rw [roundDiv_le_iff hd]
  rcases (roundDiv_le_iff hd').1 le_rfl with hlt | ⟨heq, heven⟩
  · exact .inl (h.trans_lt hlt)
  · rcases (h.trans_eq heq).lt_or_eq with hlt | heq'
    · exact .inl hlt
    · exact .inr ⟨heq', heven⟩

theorem roundDiv_one (n : Nat) : roundDiv n 1 = n := by
  simp [roundDiv, Nat.mod_one]

/-! ## Powers -/

/-- A power is a fraction of two with exponents that are no less than zero. -/
theorem pow_toNat_div {b : ℚ} (hb : b ≠ 0) (k : Int) : b ^ k.toNat / b ^ (-k).toNat = b ^ k := by
  rw [← zpow_natCast, ← zpow_natCast, ← zpow_sub₀ hb]
  congr 1
  omega

theorem two_pow_mul (k : Nat) (q : Int) : ((2 ^ k : Nat) : ℚ) * 2 ^ q = 2 ^ (k + q) := by
  rw [zpow_add₀ two_ne_zero, zpow_natCast, Nat.cast_pow, Nat.cast_ofNat]

theorem ratio_scaled (n d : Nat) (q : Int) :
    ((n * Nat.pow 2 (-q).toNat : Nat) : ℚ) / (d * Nat.pow 2 q.toNat : Nat) = n / d / 2 ^ q := by
  rw [← pow_toNat_div two_ne_zero q]
  push_cast [Nat.pow_eq]
  field_simp

theorem scaled_pos (hd : 0 < d) (q : Int) : 0 < d * Nat.pow 2 q.toNat :=
  Nat.mul_pos hd (Nat.two_pow_pos _)

/-- The power of two that a fraction reaches. -/
theorem floorLog2_spec (hn : 0 < n) (hd : 0 < d) :
    (2 : ℚ) ^ floorLog2 n d ≤ n / d ∧ (n / d : ℚ) < 2 ^ (floorLog2 n d + 1) := by
  have hpos : (0 : ℚ) < d := Nat.cast_pos.2 hd
  have hn₁ : (2 : ℚ) ^ (n.log2 : Int) ≤ n := by exact_mod_cast Nat.log2_self_le hn.ne'
  have hn₂ : (n : ℚ) < 2 ^ (n.log2 + 1 : Int) := by exact_mod_cast Nat.lt_log2_self
  have hd₁ : (2 : ℚ) ^ (d.log2 : Int) ≤ d := by exact_mod_cast Nat.log2_self_le hd.ne'
  have hd₂ : (d : ℚ) < 2 ^ (d.log2 + 1 : Int) := by exact_mod_cast Nat.lt_log2_self
  -- the lengths tell the power up to one, and which it is the comparison tells
  have hlow : (2 : ℚ) ^ ((n.log2 : Int) - d.log2 - 1) < n / d := by
    rw [sub_sub, zpow_sub₀ two_ne_zero]
    exact div_lt_div₀' hn₁ hd₂ (Nat.cast_pos.2 hn) hpos
  have hhigh : (n / d : ℚ) < 2 ^ ((n.log2 : Int) - d.log2 + 1) := by
    rw [sub_add_eq_add_sub, zpow_sub₀ two_ne_zero]
    exact div_lt_div₀ hn₂ hd₁ (by positivity) (by positivity)
  rw [floorLog2]
  generalize (n.log2 : Int) - d.log2 = k at hlow hhigh ⊢
  have htest : n * Nat.pow 2 (-k).toNat < d * Nat.pow 2 k.toNat ↔ (n / d : ℚ) < 2 ^ k := by
    have hden : (0 : ℚ) < (d * Nat.pow 2 k.toNat : Nat) := Nat.cast_pos.2 (scaled_pos hd k)
    rw [← Nat.cast_lt (α := ℚ), ← div_lt_one hden, ratio_scaled, div_lt_one (by positivity)]
  split
  · rename_i hlt
    rw [sub_add_cancel]
    exact ⟨hlow.le, htest.1 hlt⟩
  · rename_i hle
    exact ⟨not_lt.1 (mt htest.2 hle), hhigh⟩

/-! ## Steps -/

/-- The power of two that is the size of the steps to which a fraction is
rounded. -/
def quantum (n d : Nat) : Int := max (floorLog2 n d - 52) Binary64.minExponent

/-- How many steps a fraction is rounded to. -/
def steps (n d : Nat) : Nat :=
  roundDiv (n * Nat.pow 2 (-quantum n d).toNat) (d * Nat.pow 2 (quantum n d).toNat)

/-- What a fraction is rounded to when no exponent is too great. -/
def rounded (n d : Nat) : ℚ := steps n d * 2 ^ quantum n d

theorem steps_le_iff (hd : 0 < d) : steps n d ≤ m ↔
    (n / d / 2 ^ quantum n d : ℚ) < m + 1 / 2 ∨
      (n / d / 2 ^ quantum n d : ℚ) = m + 1 / 2 ∧ m % 2 = 0 := by
  rw [steps, roundDiv_le_iff (scaled_pos hd _), ratio_scaled]

/-- A fraction is rounded to a number of steps that is no more than half a step
away. -/
theorem rounded_nearest (hd : 0 < d) : |(n / d : ℚ) - rounded n d| ≤ 2 ^ quantum n d / 2 := by
  have hpow : (0 : ℚ) < 2 ^ quantum n d := by positivity
  have hnear := roundDiv_nearest (n := n * Nat.pow 2 (-quantum n d).toNat)
    (scaled_pos hd (quantum n d))
  rw [ratio_scaled, ← steps] at hnear
  have hscaled : (n / d : ℚ) - rounded n d =
      (n / d / 2 ^ quantum n d - steps n d) * 2 ^ quantum n d := by
    rw [rounded, sub_mul, div_mul_cancel₀ _ hpow.ne']
  rw [hscaled, abs_mul, abs_of_pos hpow]
  calc |(n / d / 2 ^ quantum n d - steps n d : ℚ)| * 2 ^ quantum n d
      ≤ 1 / 2 * 2 ^ quantum n d := mul_le_mul_of_nonneg_right hnear hpow.le
    _ = 2 ^ quantum n d / 2 := by ring

theorem steps_le_of_le (hd : 0 < d) (h : (n / d : ℚ) ≤ m * 2 ^ quantum n d) : steps n d ≤ m := by
  rw [← roundDiv_one m]
  refine roundDiv_mono (scaled_pos hd _) one_pos ?_
  rwa [ratio_scaled, Nat.cast_one, div_one, div_le_iff₀ (by positivity)]

theorem le_steps_of_le (hd : 0 < d) (h : m * 2 ^ quantum n d ≤ (n / d : ℚ)) : m ≤ steps n d := by
  rw [← roundDiv_one m]
  refine roundDiv_mono one_pos (scaled_pos hd _) ?_
  rwa [ratio_scaled, Nat.cast_one, div_one, le_div_iff₀ (by positivity)]

theorem ratio_lt (hd : 0 < d) : (n / d : ℚ) < 2 ^ (quantum n d + 53) := by
  rcases n.eq_zero_or_pos with rfl | hn
  · rw [Nat.cast_zero, zero_div]
    positivity
  · refine (floorLog2_spec hn hd).2.trans_le (zpow_le_zpow_right₀ one_le_two ?_)
    rw [quantum]
    omega

/-- There are fifty-three bits for the steps, and one more step at most. -/
theorem steps_le (hd : 0 < d) : steps n d ≤ 2 ^ 53 := by
  refine steps_le_of_le hd ((ratio_lt hd).le.trans_eq ?_)
  rw [two_pow_mul, add_comm]
  rfl

/-- All the bits are in use where the steps are not the smallest. -/
theorem le_steps (hn : 0 < n) (hd : 0 < d) (h : Binary64.minExponent < quantum n d) :
    2 ^ 52 ≤ steps n d := by
  have hquantum : floorLog2 n d = 52 + quantum n d := by
    rw [quantum] at h ⊢
    omega
  refine le_steps_of_le hd (le_trans (le_of_eq ?_) (floorLog2_spec hn hd).1)
  rw [hquantum, two_pow_mul]
  rfl

theorem quantum_mono (hn : 0 < n) (hd : 0 < d) (hn' : 0 < n') (hd' : 0 < d')
    (h : (n / d : ℚ) ≤ n' / d') : quantum n d ≤ quantum n' d' := by
  have hpow : (2 : ℚ) ^ floorLog2 n d < 2 ^ (floorLog2 n' d' + 1) :=
    ((floorLog2_spec hn hd).1.trans h).trans_lt (floorLog2_spec hn' hd').2
  have hlog := (zpow_lt_zpow_iff_right₀ one_lt_two).1 hpow
  rw [quantum, quantum]
  omega

@[simp] theorem rounded_zero (d : Nat) : rounded 0 d = 0 := by
  have hsteps : steps 0 d = 0 := by
    simp [steps, roundDiv]
  rw [rounded, hsteps, Nat.cast_zero, zero_mul]

theorem rounded_nonneg (n d : Nat) : 0 ≤ rounded n d := by
  rw [rounded]
  positivity

/-- A greater fraction is not rounded to less. -/
theorem rounded_mono (hd : 0 < d) (hd' : 0 < d') (h : (n / d : ℚ) ≤ n' / d') :
    rounded n d ≤ rounded n' d' := by
  rcases n.eq_zero_or_pos with rfl | hn
  · rw [rounded_zero]
    exact rounded_nonneg n' d'
  have hn' : 0 < n' := by
    have hratio : (0 : ℚ) < n' / d' := lt_of_lt_of_le (by positivity) h
    exact Nat.cast_pos.1 ((div_pos_iff_of_pos_right (Nat.cast_pos.2 hd')).1 hratio)
  rcases (quantum_mono hn hd hn' hd' h).lt_or_eq with hlt | heq
  · -- the smaller fraction stays below the power of two that the greater one reaches
    have hmin : Binary64.minExponent < quantum n' d' := lt_of_le_of_lt (le_max_right _ _) hlt
    calc rounded n d ≤ (2 ^ 53 : Nat) * 2 ^ quantum n d := by
          rw [rounded]
          gcongr
          exact steps_le hd
      _ ≤ (2 ^ 52 : Nat) * 2 ^ quantum n' d' := by
          rw [two_pow_mul, two_pow_mul]
          refine zpow_le_zpow_right₀ one_le_two ?_
          push_cast
          omega
      _ ≤ rounded n' d' := by
          rw [rounded]
          gcongr
          exact le_steps hn' hd' hmin
  · rw [rounded, rounded, steps, steps, heq]
    gcongr
    refine roundDiv_mono (scaled_pos hd _) (scaled_pos hd' _) ?_
    rw [ratio_scaled, ratio_scaled]
    gcongr

/-! ## Bounds -/

theorem quantum_le {q : Int} (hn : 0 < n) (hd : 0 < d) (hq : Binary64.minExponent ≤ q)
    (h : (n / d : ℚ) < 2 ^ (53 + q)) : quantum n d ≤ q := by
  have hlog := (zpow_lt_zpow_iff_right₀ one_lt_two).1 ((floorLog2_spec hn hd).1.trans_lt h)
  rw [quantum]
  omega

/-- A fraction is rounded to a number with an even significand, or to more, if
it is below it by half a step at most. -/
theorem le_rounded_iff {q : Int} (hd : 0 < d) (hq : Binary64.minExponent ≤ q) (hm : 2 ^ 52 < m)
    (hm' : m ≤ 2 ^ 53) (heven : m % 2 = 0) :
    m * 2 ^ q ≤ rounded n d ↔ (m - 1 / 2) * 2 ^ q ≤ (n / d : ℚ) := by
  have hpow : (0 : ℚ) < 2 ^ q := by positivity
  have hless : (m - 1 / 2 : ℚ) * 2 ^ q < m * 2 ^ q := by
    gcongr
    linarith
  have hgreat : ((2 ^ 52 : Nat) : ℚ) * 2 ^ q < (m - 1 / 2) * 2 ^ q := by
    have hcast : ((2 ^ 52 : Nat) : ℚ) + 1 ≤ m := by exact_mod_cast hm
    gcongr
    rw [lt_sub_iff_add_lt]
    exact lt_of_lt_of_le (add_lt_add_right (by norm_num) _) hcast
  have htop : (m : ℚ) * 2 ^ q ≤ 2 ^ (53 + q) := by
    rw [← Nat.cast_ofNat (R := Int), ← two_pow_mul]
    gcongr
  rcases n.eq_zero_or_pos with rfl | hn
  · have hpos : (0 : ℚ) < (m - 1 / 2) * 2 ^ q := lt_trans (by positivity) hgreat
    rw [rounded_zero, Nat.cast_zero, zero_div]
    exact iff_of_false (not_le.2 (hpos.trans hless)) (not_le.2 hpos)
  constructor
  · intro h
    by_contra hlt
    rw [not_le] at hlt
    have hquantum : quantum n d ≤ q := quantum_le hn hd hq ((hlt.trans hless).trans_le htop)
    have hstep : (2 : ℚ) ^ quantum n d ≤ 2 ^ q := zpow_le_zpow_right₀ one_le_two hquantum
    have hnear := (abs_le.1 (rounded_nearest (n := n) hd)).1
    linarith
  · intro h
    rcases lt_trichotomy (quantum n d) q with hlt | heq | hgt
    · -- with smaller steps the fraction would be below the power of two
      have hbelow : (2 : ℚ) ^ (quantum n d + 53) ≤ (2 ^ 52 : Nat) * 2 ^ q := by
        rw [two_pow_mul]
        refine zpow_le_zpow_right₀ one_le_two ?_
        push_cast
        omega
      exact absurd (ratio_lt hd) (not_lt.2 (hbelow.trans (hgreat.le.trans h)))
    · obtain ⟨k, rfl⟩ : ∃ k, m = k + 1 := ⟨m - 1, by omega⟩
      have hmiddle : ((k + 1 : Nat) - 1 / 2 : ℚ) = k + 1 / 2 := by
        push_cast
        ring
      have hsteps : ¬ steps n d ≤ k := by
        rw [steps_le_iff hd, heq, div_lt_iff₀ hpow, div_eq_iff hpow.ne', not_or]
        rw [hmiddle] at h
        exact ⟨not_lt.2 h, fun htie => by omega⟩
      rw [rounded, heq]
      gcongr
      omega
    · calc (m : ℚ) * 2 ^ q ≤ 2 ^ (53 + q) := htop
        _ ≤ (2 ^ 52 : Nat) * 2 ^ quantum n d := by
            rw [two_pow_mul]
            refine zpow_le_zpow_right₀ one_le_two ?_
            push_cast
            omega
        _ ≤ rounded n d := by
            rw [rounded]
            gcongr
            exact le_steps hn hd (lt_of_le_of_lt hq hgt)

/-- A fraction is rounded to zero up to half of the least step. -/
theorem rounded_pos_iff (hd : 0 < d) : 0 < rounded n d ↔ 2 ^ (-1075 : Int) < (n / d : ℚ) := by
  have hhalf : (2 : ℚ) ^ (-1075 : Int) = 1 / 2 * 2 ^ Binary64.minExponent := by
    rw [Binary64.minExponent, one_div, ← zpow_neg_one, ← zpow_add₀ two_ne_zero]
    rfl
  rcases n.eq_zero_or_pos with rfl | hn
  · rw [rounded_zero, Nat.cast_zero, zero_div]
    exact iff_of_false (lt_irrefl _) (not_lt.2 (by positivity))
  have hpow : (0 : ℚ) < 2 ^ quantum n d := by positivity
  have hmin : Binary64.minExponent = -1074 := rfl
  rw [rounded, mul_pos_iff_of_pos_right hpow, Nat.cast_pos]
  rcases (le_max_right (floorLog2 n d - 52) Binary64.minExponent).lt_or_eq with hlt | heq
  · have hfull : 2 ^ 52 ≤ steps n d := le_steps hn hd hlt
    have hlog : -1075 < floorLog2 n d := by omega
    refine iff_of_true (by omega) ?_
    exact (zpow_lt_zpow_right₀ one_lt_two hlog).trans_le (floorLog2_spec hn hd).1
  · have hzero : steps n d ≤ 0 ↔ (n / d / 2 ^ quantum n d : ℚ) ≤ 1 / 2 := by
      rw [steps_le_iff hd, Nat.cast_zero, zero_add, le_iff_lt_or_eq]
      exact or_congr_right (and_iff_left rfl)
    rw [← not_le, hzero, not_le, lt_div_iff₀ hpow, hhalf, heq, quantum]

/-! ## Numbers -/

/-- A number with a sign. -/
def signed (negative : Bool) (r : ℚ) : ℚ := if negative then -r else r

/-- What a rounded fraction comes to: from 2^1024 on it is infinite. -/
def capped (v : ℚ) : WithTop ℚ := if v < 2 ^ (1024 : Int) then v else ⊤

@[simp] theorem capped_zero : capped 0 = 0 := if_pos (by positivity)

theorem capped_mono : Monotone capped := by
  intro v w h
  rw [capped, capped]
  split
  · split
    · exact WithTop.coe_le_coe.2 h
    · exact le_top
  · rename_i hv
    rw [if_neg fun hw => hv (h.trans_lt hw)]

theorem coe_lt_capped_iff {c v : ℚ} (hc : c < 2 ^ (1024 : Int)) : c < capped v ↔ c < v := by
  rw [capped]
  split
  · exact WithTop.coe_lt_coe
  · rename_i hv
    exact iff_of_true (WithTop.coe_lt_top c) (hc.trans_le (not_lt.1 hv))

theorem coe_le_capped_iff {c v : ℚ} (hc : c < 2 ^ (1024 : Int)) : c ≤ capped v ↔ c ≤ v := by
  rw [capped]
  split
  · exact WithTop.coe_le_coe
  · rename_i hv
    exact iff_of_true le_top (hc.le.trans (not_lt.1 hv))

namespace Binary64

/-- What a number is above zero. What is below zero counts for nothing, and so
does what is no number. -/
def positivePart : Binary64 → WithTop ℚ
  | .nan => 0
  | .infinity negative => if negative then 0 else ⊤
  | .finite negative s q => if negative then 0 else (s * 2 ^ q : ℚ)

@[simp] theorem positivePart_zero (negative : Bool) : (zero negative).positivePart = 0 := by
  simp [zero, positivePart]

/-- A fraction is rounded to a significand of fifty-three bits, all of them in
use where the exponent is not the least; only the exponent may be too great. -/
theorem exists_ofRatio (negative : Bool) (hn : 0 < n) (hd : 0 < d) :
    ∃ (s : Nat) (q : Int), s * 2 ^ q = rounded n d ∧ s < 2 ^ 53 ∧
      (minExponent < q → 2 ^ 52 ≤ s) ∧ ofRatio negative n d =
        if maxExponent < q then .infinity negative else .finite negative s q := by
  have hround : ofRatio negative n d =
      let p := if steps n d = 2 ^ 53 then (2 ^ 52, quantum n d + 1) else (steps n d, quantum n d)
      if maxExponent < p.2 then .infinity negative else .finite negative p.1 p.2 := by
    rw [ofRatio, if_neg hn.ne']
    rfl
  by_cases hsteps : steps n d = 2 ^ 53
  · refine ⟨2 ^ 52, quantum n d + 1, ?_, by decide, fun _ => le_rfl, ?_⟩
    · rw [rounded, hsteps, two_pow_mul, two_pow_mul]
      congr 1
      push_cast
      ring
    · rw [hround, if_pos hsteps]
  · refine ⟨steps n d, quantum n d, rfl, lt_of_le_of_ne (steps_le hd) hsteps, le_steps hn hd, ?_⟩
    rw [hround, if_neg hsteps]

/-- An exponent is too great exactly for the numbers from 2^1024 on. -/
theorem lt_two_pow_iff {s : Nat} {q : Int} (hs : s < 2 ^ 53)
    (hfull : minExponent < q → 2 ^ 52 ≤ s) :
    (s * 2 ^ q : ℚ) < 2 ^ (1024 : Int) ↔ ¬ maxExponent < q := by
  have hmin : minExponent = -1074 := rfl
  have hmax : maxExponent = 971 := rfl
  rw [not_lt]
  constructor
  · intro hlt
    by_contra hgreat
    have hle : (2 ^ (1024 : Int) : ℚ) ≤ s * 2 ^ q :=
      calc (2 ^ (1024 : Int) : ℚ) ≤ 2 ^ ((52 : Nat) + q) := by
            refine zpow_le_zpow_right₀ one_le_two ?_
            push_cast
            omega
        _ = (2 ^ 52 : Nat) * 2 ^ q := (two_pow_mul 52 q).symm
        _ ≤ s * 2 ^ q := by
          gcongr
          exact hfull (by omega)
    exact absurd hlt (not_lt.2 hle)
  · intro hq
    calc (s * 2 ^ q : ℚ) < (2 ^ 53 : Nat) * 2 ^ q := by
          gcongr
      _ = 2 ^ ((53 : Nat) + q) := two_pow_mul 53 q
      _ ≤ 2 ^ (1024 : Int) := by
          refine zpow_le_zpow_right₀ one_le_two ?_
          push_cast
          omega

theorem positivePart_ofRatio (negative : Bool) (n : Nat) (hd : 0 < d) :
    (ofRatio negative n d).positivePart = if negative then 0 else capped (rounded n d) := by
  rcases n.eq_zero_or_pos with rfl | hn
  · rw [ofRatio, if_pos rfl, positivePart_zero, rounded_zero, capped_zero, ite_self]
  · obtain ⟨s, q, hvalue, hs, hfull, h⟩ := exists_ofRatio negative hn hd
    have hcap := lt_two_pow_iff hs hfull
    rw [h, ← hvalue, capped]
    split
    · rename_i hgreat
      rw [if_neg (mt hcap.1 (not_not.2 hgreat))]
      rfl
    · rename_i hfits
      rw [if_pos (hcap.2 hfits)]
      rfl

/-! ## Numerals -/

theorem ratio_of_power (digits : Nat) (e : Int) :
    ((digits * Nat.pow 10 e.toNat : Nat) : ℚ) / (Nat.pow 10 (-e).toNat : Nat) =
      digits * 10 ^ e := by
  rw [← pow_toNat_div (by norm_num) e]
  push_cast [Nat.pow_eq]
  rw [mul_div_assoc]

/-- Digits stand for less than the power of ten of their length in bits. -/
theorem cast_lt_pow_log2 (digits : Nat) : (digits : ℚ) < 10 ^ (digits.log2 + 1 : Int) := by
  have hbits : digits < 2 ^ (digits.log2 + 1) := Nat.lt_log2_self
  have hten : 2 ^ (digits.log2 + 1) ≤ 10 ^ (digits.log2 + 1) := Nat.pow_le_pow_left (by decide) _
  exact_mod_cast hbits.trans_le hten

/-- What is below 10^-400 is rounded to zero. -/
theorem rounded_eq_zero (hd : 0 < d) (h : (n / d : ℚ) ≤ 10 ^ (-400 : Int)) : rounded n d = 0 := by
  have hsteps : steps 1 (10 ^ 400) = 0 := by decide +kernel
  have hzero : rounded 1 (10 ^ 400) = 0 := by
    rw [rounded, hsteps, Nat.cast_zero, zero_mul]
  refine le_antisymm ?_ (rounded_nonneg n d)
  rw [← hzero]
  refine rounded_mono hd (by positivity) (h.trans_eq ?_)
  norm_num

/-- What is above 10^400 is rounded to a number that is infinite. -/
theorem capped_rounded_eq_top (hd : 0 < d) (h : (10 ^ (400 : Int) : ℚ) ≤ n / d) :
    capped (rounded n d) = ⊤ := by
  have hquantum : quantum (2 ^ 1024) 1 = 972 := by decide +kernel
  have hsteps : steps (2 ^ 1024) 1 = 2 ^ 52 := by decide +kernel
  have htop : rounded (2 ^ 1024) 1 = 2 ^ (1024 : Int) := by
    rw [rounded, hsteps, hquantum, two_pow_mul]
    rfl
  have hpower : (2 ^ 1024 : ℚ) ≤ 10 ^ 400 := by
    calc (2 ^ 1024 : ℚ) = (2 ^ 128) ^ 8 := by rw [← pow_mul]
      _ ≤ (10 ^ 50) ^ 8 := pow_le_pow_left₀ (by positivity) (by norm_num) 8
      _ = 10 ^ 400 := by rw [← pow_mul]
  have hle : rounded (2 ^ 1024) 1 ≤ rounded n d := by
    refine rounded_mono one_pos hd (le_trans ?_ h)
    rw [Nat.cast_one, div_one, Nat.cast_pow, Nat.cast_ofNat]
    exact hpower
  rw [capped, if_neg (not_lt.2 (htop ▸ hle))]

theorem mul_pow_le_of_small {digits : Nat} {e : Int} (h : e + digits.log2 + 1 < -400) :
    (digits * 10 ^ e : ℚ) ≤ 10 ^ (-400 : Int) :=
  calc (digits * 10 ^ e : ℚ) ≤ 10 ^ (digits.log2 + 1 : Int) * 10 ^ e := by
        gcongr
        exact (cast_lt_pow_log2 digits).le
    _ = 10 ^ (e + digits.log2 + 1) := by
        rw [← zpow_add₀ (by norm_num)]
        congr 1
        ring
    _ ≤ 10 ^ (-400 : Int) := zpow_le_zpow_right₀ (by norm_num) h.le

theorem le_mul_pow_of_great {digits : Nat} {e : Int} (hdigits : digits ≠ 0) (h : 400 < e) :
    (10 ^ (400 : Int) : ℚ) ≤ digits * 10 ^ e :=
  calc (10 ^ (400 : Int) : ℚ) ≤ 10 ^ e := zpow_le_zpow_right₀ (by norm_num) h.le
    _ ≤ digits * 10 ^ e :=
        le_mul_of_one_le_left (by positivity) (Nat.one_le_cast.2 (Nat.pos_of_ne_zero hdigits))

/-- A numeral is read as the number nearest to what it says, also where the
power of ten alone decides. -/
theorem positivePart_ofNumeral (negative : Bool) (digits : Nat) (e : Int) :
    (ofNumeral (.decimal negative digits e)).positivePart = if negative then 0
      else capped (rounded (digits * Nat.pow 10 e.toNat) (Nat.pow 10 (-e).toNat)) := by
  have hden : 0 < Nat.pow 10 (-e).toNat := Nat.pow_pos (by decide)
  rw [ofNumeral]
  simp only [Bool.or_eq_true, decide_eq_true_eq]
  split
  · rename_i hsmall
    have hrounded : rounded (digits * Nat.pow 10 e.toNat) (Nat.pow 10 (-e).toNat) = 0 := by
      rcases hsmall with rfl | hsmall
      · rw [zero_mul, rounded_zero]
      · refine rounded_eq_zero hden ?_
        rw [ratio_of_power]
        exact mul_pow_le_of_small hsmall
    rw [positivePart_zero, hrounded, capped_zero, ite_self]
  · rename_i hnot
    split
    · rename_i hgreat
      have htop : capped (rounded (digits * Nat.pow 10 e.toNat) (Nat.pow 10 (-e).toNat)) = ⊤ := by
        refine capped_rounded_eq_top hden ?_
        rw [ratio_of_power]
        exact le_mul_pow_of_great (not_or.1 hnot).1 hgreat
      rw [htop]
      rfl
    · exact positivePart_ofRatio negative _ hden

/-- Of two numerals the one that says more is read as a number that is no less
above zero. -/
theorem positivePart_ofNumeral_mono {b b' : Bool} {k k' : Nat} {e e' : Int}
    (h : signed b (k * 10 ^ e) ≤ signed b' (k' * 10 ^ e')) :
    (ofNumeral (.decimal b k e)).positivePart ≤ (ofNumeral (.decimal b' k' e')).positivePart := by
  have hden (i : Int) : 0 < Nat.pow 10 (-i).toNat := Nat.pow_pos (by decide)
  have hnonneg (k : Nat) (e : Int) : (0 : ℚ) ≤ k * 10 ^ e := by positivity
  have hcapped (v w : Nat) : 0 ≤ capped (rounded v w) := by
    rw [← capped_zero]
    exact capped_mono (rounded_nonneg v w)
  rw [positivePart_ofNumeral, positivePart_ofNumeral]
  cases b with
  | true =>
    cases b' with
    | true => exact le_rfl
    | false => exact hcapped _ _
  | false =>
    cases b' with
    | true =>
      -- only zero is below a number with a minus sign
      have hzero : (k * 10 ^ e : ℚ) = 0 :=
        le_antisymm (h.trans (neg_nonpos.2 (hnonneg k' e'))) (hnonneg k e)
      obtain rfl : k = 0 := Nat.cast_eq_zero.1
        ((mul_eq_zero.1 hzero).resolve_right (zpow_ne_zero e (by norm_num)))
      rw [zero_mul, rounded_zero, capped_zero]
      exact le_rfl
    | false =>
      refine capped_mono (rounded_mono (hden e) (hden e') ?_)
      rw [ratio_of_power, ratio_of_power]
      exact h

end Binary64
end AuditSettings.Number
