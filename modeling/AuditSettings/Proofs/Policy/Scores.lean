/-
AuditSettings.Proofs.Policy.Scores — a worse score is reported no less.

Of a score nothing counts but how far it is above zero, and its band is the
greatest that it reaches (`le_ofScore_iff`). A decimal numeral reaches a band
from half a step below its bound, because it is rounded
(`le_ofScore_ofNumeral_iff`). Numerals are rounded in order, so the bands of two
of them are in the order of what they say, whatever their signs and powers, and
a threshold that the smaller one reaches is reached by the greater one
(`ofScore_in_order`). A label that is nothing but a numeral is read in the same
way.
-/
import AuditSettings.Proofs.Number.Decimals
import AuditSettings.Proofs.Policy.Labels
import AuditSettings.Settings.Basic
import Mathlib.Algebra.Order.Monoid.WithTop

namespace AuditSettings

open AuditSettings.Text AuditSettings.Number AuditSettings.Policy

/-! ## Comparisons -/

namespace Number.Binary64

variable {x : Binary64}

theorem positivePart_nonneg (x : Binary64) : 0 ≤ x.positivePart := by
  cases x with
  | nan => exact le_rfl
  | infinity negative => cases negative <;> simp [positivePart]
  | finite negative s q =>
    cases negative with
    | true => exact le_rfl
    | false => exact WithTop.coe_nonneg.2 (by positivity)

theorem isNonpositive_iff (h : x ≠ .nan) : x.isNonpositive = true ↔ x.positivePart = 0 := by
  cases x with
  | nan => exact absurd rfl h
  | infinity negative => cases negative <;> simp [isNonpositive, positivePart]
  | finite negative s q =>
    cases negative with
    | true => simp [isNonpositive, positivePart]
    | false =>
      have hpow : (2 : ℚ) ^ q ≠ 0 := zpow_ne_zero q two_ne_zero
      simp [isNonpositive, positivePart, hpow]

theorem isBelow_iff (h : x ≠ .nan) {n : Nat} (hn : 0 < n) :
    x.isBelow n = true ↔ x.positivePart < n := by
  cases x with
  | nan => exact absurd rfl h
  | infinity negative => cases negative <;> simp [isBelow, positivePart, hn]
  | finite negative s q =>
    cases negative with
    | true => simp [isBelow, positivePart, hn]
    | false =>
      simp only [isBelow, positivePart, decide_eq_true_eq, Bool.false_eq_true, if_false, Nat.pow_eq]
      rw [← WithTop.coe_natCast, WithTop.coe_lt_coe, ← pow_toNat_div two_ne_zero q, mul_div_assoc',
        div_lt_iff₀ (by positivity)]
      exact_mod_cast Iff.rfl

end Number.Binary64

namespace Policy.Severity

variable {s t : Severity} {x y : Binary64} {v w : WithTop ℚ}

/-! ## Bands -/

/-- Whether a score that is so far above zero reaches a band. -/
def Reached (v : WithTop ℚ) : Severity → Prop
  | none => True
  | low => 0 < v
  | medium => 4 ≤ v
  | high => 7 ≤ v
  | critical => 9 ≤ v

theorem Reached.mono (h : s.Reached v) (hvw : v ≤ w) : s.Reached w := by
  cases s with
  | none => trivial
  | low => exact lt_of_lt_of_le h hvw
  | medium => exact le_trans h hvw
  | high => exact le_trans h hvw
  | critical => exact le_trans h hvw

theorem not_reached_zero (hs : s ≠ none) : ¬ s.Reached 0 := by
  cases s with
  | none => exact absurd rfl hs
  | low => exact lt_irrefl _
  | medium => exact not_le.2 (by norm_num)
  | high => exact not_le.2 (by norm_num)
  | critical => exact not_le.2 (by norm_num)

/-- The band of a score by how far it is above zero. -/
theorem ofScore_eq (x : Binary64) : ofScore x =
    if x.positivePart = 0 then none
    else if x.positivePart < 4 then low
    else if x.positivePart < 7 then medium
    else if x.positivePart < 9 then high
    else critical := by
  by_cases hnan : x = .nan
  · subst hnan
    rfl
  · have hzero := Binary64.isNonpositive_iff hnan
    have hbelow (n : Nat) (hn : 0 < n) := Binary64.isBelow_iff hnan hn
    simp only [ofScore, hnan, decide_false, Bool.false_or, hzero, hbelow 4 (by decide),
      hbelow 7 (by decide), hbelow 9 (by decide), Nat.cast_ofNat]

/-- The band of a score is the greatest that the score reaches. -/
theorem le_ofScore_iff : s ≤ ofScore x ↔ s.Reached x.positivePart := by
  have hpos : 0 < x.positivePart ↔ x.positivePart ≠ 0 := x.positivePart_nonneg.lt_iff_ne'
  -- the bounds are in order, so what is below one of them is below the next
  have h₄ : x.positivePart = 0 → x.positivePart < 4 := fun h => h ▸ by norm_num
  have h₇ : x.positivePart < 4 → x.positivePart < 7 := fun h => h.trans (by decide)
  have h₉ : x.positivePart < 7 → x.positivePart < 9 := fun h => h.trans (by decide)
  rw [ofScore_eq]
  cases s with
  | none => exact iff_of_true (Nat.zero_le _) trivial
  | low =>
    rw [Reached, hpos]
    split_ifs with hzero
    · exact iff_of_false (by decide) (not_not.2 hzero)
    all_goals exact iff_of_true (by decide) hzero
  | medium =>
    rw [Reached, ← not_lt]
    split_ifs with hzero hlow
    · exact iff_of_false (by decide) (not_not.2 (h₄ hzero))
    · exact iff_of_false (by decide) (not_not.2 hlow)
    all_goals exact iff_of_true (by decide) hlow
  | high =>
    rw [Reached, ← not_lt]
    split_ifs with hzero hlow hmedium
    · exact iff_of_false (by decide) (not_not.2 (h₇ (h₄ hzero)))
    · exact iff_of_false (by decide) (not_not.2 (h₇ hlow))
    · exact iff_of_false (by decide) (not_not.2 hmedium)
    all_goals exact iff_of_true (by decide) hmedium
  | critical =>
    rw [Reached, ← not_lt]
    split_ifs with hzero hlow hmedium hhigh
    · exact iff_of_false (by decide) (not_not.2 (h₉ (h₇ (h₄ hzero))))
    · exact iff_of_false (by decide) (not_not.2 (h₉ (h₇ hlow)))
    · exact iff_of_false (by decide) (not_not.2 (h₉ hmedium))
    · exact iff_of_false (by decide) (not_not.2 hhigh)
    · exact iff_of_true (by decide) hhigh

theorem ofScore_mono (h : x.positivePart ≤ y.positivePart) : ofScore x ≤ ofScore y :=
  le_ofScore_iff.2 ((le_ofScore_iff.1 (Nat.le_refl _)).mono h)

/-! ## Numerals -/

/-- Whether a number is read as a score that reaches a band. It may stay below
the bound by half of the last step there, for it is rounded up from that. -/
def Admits (r : ℚ) : Severity → Prop
  | none => True
  | low => 2 ^ (-1075 : Int) < r
  | medium => 4 - 2 ^ (-52 : Int) ≤ r
  | high => 7 - 2 ^ (-51 : Int) ≤ r
  | critical => 9 - 2 ^ (-50 : Int) ≤ r

theorem not_admits_of_nonpos {r : ℚ} (hr : r ≤ 0) (hs : s ≠ none) : ¬ s.Admits r := by
  cases s with
  | none => exact absurd rfl hs
  | low => exact not_lt.2 (hr.trans (by positivity))
  | medium => exact not_le.2 (hr.trans_lt (by norm_num))
  | high => exact not_le.2 (hr.trans_lt (by norm_num))
  | critical => exact not_le.2 (hr.trans_lt (by norm_num))

/-- A bound with an even significand is reached from half a step below. -/
theorem le_capped_rounded_iff {n d m : Nat} {p : Int} (c : ℚ) (hd : 0 < d)
    (hc : c = m * 2 ^ (p + 1)) (hm : 2 ^ 52 < m) (hm' : m ≤ 2 ^ 53) (heven : m % 2 = 0)
    (hp : Binary64.minExponent ≤ p) (hp' : p < 0) :
    c ≤ capped (rounded n d) ↔ c - 2 ^ p ≤ (n / d : ℚ) := by
  have hhalf : (m - 1 / 2 : ℚ) * 2 ^ (p + 1) = c - 2 ^ p := by
    rw [hc, zpow_add_one₀ two_ne_zero]
    ring
  have hfinite : c < 2 ^ (1024 : Int) :=
    calc c ≤ (2 ^ 53 : Nat) * 2 ^ (p + 1) := by
          rw [hc]
          gcongr
      _ = 2 ^ ((53 : Nat) + (p + 1)) := two_pow_mul 53 (p + 1)
      _ < 2 ^ (1024 : Int) := by
          refine zpow_lt_zpow_right₀ one_lt_two ?_
          push_cast
          omega
  rw [coe_le_capped_iff hfinite, hc, le_rounded_iff hd (by omega) hm hm' heven, hhalf, hc]

/-- The bands that a numeral reaches are told by what it says. -/
theorem le_ofScore_ofNumeral_iff {negative : Bool} {digits : Nat} {e : Int} :
    s ≤ ofScore (Binary64.ofNumeral (.decimal negative digits e)) ↔
      s.Admits (signed negative (digits * 10 ^ e)) := by
  have hden : 0 < Nat.pow 10 (-e).toNat := Nat.pow_pos (by decide)
  have hnonneg : (0 : ℚ) ≤ digits * 10 ^ e := by positivity
  rw [le_ofScore_iff, Binary64.positivePart_ofNumeral]
  cases negative with
  | true =>
    by_cases hs : s = none
    · subst hs
      exact Iff.rfl
    · exact iff_of_false (not_reached_zero hs) (not_admits_of_nonpos (neg_nonpos.2 hnonneg) hs)
  | false =>
    rw [signed, if_neg Bool.false_ne_true, if_neg Bool.false_ne_true, ← Binary64.ratio_of_power]
    cases s with
    | none => exact Iff.rfl
    | low => exact (coe_lt_capped_iff (by positivity)).trans (rounded_pos_iff hden)
    | medium =>
      have hbound : (4 : ℚ) = (2 ^ 53 : Nat) * 2 ^ (-52 + 1 : Int) := by norm_num
      exact le_capped_rounded_iff 4 hden hbound (by decide) (by decide) (by decide) (by decide)
        (by decide)
    | high =>
      have hbound : (7 : ℚ) = (7 * 2 ^ 50 : Nat) * 2 ^ (-51 + 1 : Int) := by norm_num
      exact le_capped_rounded_iff 7 hden hbound (by decide) (by decide) (by decide) (by decide)
        (by decide)
    | critical =>
      have hbound : (9 : ℚ) = (9 * 2 ^ 49 : Nat) * 2 ^ (-50 + 1 : Int) := by norm_num
      exact le_capped_rounded_iff 9 hden hbound (by decide) (by decide) (by decide) (by decide)
        (by decide)

/-! ## Labels -/

/-- Neither digits nor the marks around them are white space. -/
theorem not_isBlank {c : Char} (h : c.isDigit = true ∨ c ∈ ['+', '-', '.', 'e', 'E']) :
    ¬ isBlank c = true := by
  rcases h with h | h
  · have hcode := isDigit_iff.1 h
    simp only [isBlank, Bool.or_eq_true, Bool.and_eq_true, decide_eq_true_eq, beq_iff_eq]
    omega
  · have hmarks : ['+', '-', '.', 'e', 'E'].all (fun d => !isBlank d) = true := by decide
    simpa using List.all_eq_true.1 hmarks c h

/-- A label that is nothing but a numeral is a score: it has neither white
space nor parentheses, and no numeral is a word. -/
theorem ofLabel?_text {x : Decimal} {b : Binary64} (h : Binary64.read? x.text = some b) :
    ofLabel? x.text = some (ofScore b) := by
  have hopen : '(' ∉ x.text := fun hmem => absurd (x.mem_text hmem) (by decide)
  have hnone : ∀ inner, ¬ InParentheses inner x.text := by
    rintro inner ⟨before, after, htext, -⟩
    rw [htext] at hopen
    simp at hopen
  have hblank : ∀ c ∈ x.text, ¬ isBlank c := fun c hc => not_isBlank (x.mem_text hc)
  have htrim : trim x.text = x.text :=
    trim_eq_self ⟨fun hne => hblank _ (List.head_mem hne),
      fun hne => hblank _ (List.getLast_mem hne)⟩
  rw [ofLabel?_of_not_inParentheses hnone, htrim]
  exact .inr ⟨b, h, rfl⟩

end Policy.Severity

/-! ## Reports -/

namespace Policy

/-- The texts that are read as digits are the decimal numerals. The bands that
one reaches are told by what it says, be it a score or a label. Of two of them
the one that says no less is in no lower band, so whatever threshold the other
reaches, it reaches as well. -/
theorem Severity.ofScore_in_order :
    (∀ cs : List Char, (∃ x : Decimal, x.text = cs) ↔
      ∃ negative digits e, Numeral.read? cs = some (.decimal negative digits e)) ∧
    (∀ x : Decimal, ∃ b, Binary64.read? x.text = some b ∧ ofLabel? x.text = some (ofScore b) ∧
      ∀ s : Severity, s ≤ ofScore b ↔ s.Admits x.value) ∧
    ∀ x y : Decimal, x.value ≤ y.value →
      ∃ b c, Binary64.read? x.text = some b ∧ Binary64.read? y.text = some c ∧
        ofLabel? x.text = some (ofScore b) ∧ ofLabel? y.text = some (ofScore c) ∧
        ofScore b ≤ ofScore c ∧
        ∀ a : Advisories, a.reports (ofScore b) = true → a.reports (ofScore c) = true := by
  have hread (x : Decimal) : Binary64.read? x.text = some (Binary64.ofNumeral x.numeral) := by
    rw [Binary64.read?, x.read?_text, Option.map_some]
  refine ⟨fun cs => Decimal.exists_text_iff, fun x => ?_, fun x y h => ?_⟩
  · refine ⟨_, hread x, ofLabel?_text (hread x), fun s => ?_⟩
    rw [x.value_eq]
    exact le_ofScore_ofNumeral_iff
  · rw [x.value_eq, y.value_eq] at h
    have hbands : ofScore (Binary64.ofNumeral x.numeral) ≤ ofScore (Binary64.ofNumeral y.numeral) :=
      ofScore_mono (Binary64.positivePart_ofNumeral_mono h)
    refine ⟨_, _, hread x, hread y, ofLabel?_text (hread x), ofLabel?_text (hread y), hbands,
      fun a ha => ?_⟩
    rw [Advisories.reports, decide_eq_true_eq] at ha ⊢
    exact Nat.le_trans ha hbands

/-- A score that is low and one that is below four by less than is told apart
from it, written with a sign and a power. -/
theorem Severity.ofScore_in_order_below_four : ∃ x y : Decimal,
    x.text = "3.9".toList ∧ y.text = "+39999999999999999E-16".toList ∧ x.value ≤ y.value ∧
      ofLabel? x.text = some low ∧ ofLabel? y.text = some medium ∧
      ∀ a : Advisories, a.reports low = true → a.reports medium = true := by
  let x : Decimal := ⟨.unmarked, ['3'], some ['9'], Option.none, by decide, by decide, by decide⟩
  let y : Decimal := ⟨.plus, '3' :: List.replicate 16 '9', Option.none,
    some ⟨'E', .minus, ['1', '6'], .inr rfl, by decide, by decide⟩, by decide, by decide, by decide⟩
  have hvalue : x.value ≤ y.value := by decide +kernel
  obtain ⟨b, c, hb, hc, hxlabel, hylabel, -, hreports⟩ := ofScore_in_order.2.2 x y hvalue
  have hlow : ofScore b = low := by
    have hread : (Binary64.read? x.text).map ofScore = some low := by decide +kernel
    rw [hb] at hread
    exact Option.some.inj hread
  have hmedium : ofScore c = medium := by
    have hread : (Binary64.read? y.text).map ofScore = some medium := by decide +kernel
    rw [hc] at hread
    exact Option.some.inj hread
  rw [hlow, hmedium] at hreports
  refine ⟨x, y, ?_, ?_, hvalue, hlow ▸ hxlabel, hmedium ▸ hylabel, hreports⟩
  · decide
  · decide

end Policy
end AuditSettings
