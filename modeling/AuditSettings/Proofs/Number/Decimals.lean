/-
AuditSettings.Proofs.Number.Decimals — decimal numerals and what they say.

A decimal numeral is a sign, if any, digits with a point among or around them,
if any, and a power of ten, if any (`Decimal`). It says what its digits say at
their places, however many there are (`Decimal.value`). Every such text is read
as a numeral that says the same, and no other text is read as digits
(`exists_text_iff`).
-/
import AuditSettings.Proofs.Number.Digits
import AuditSettings.Proofs.Number.Rounding
import AuditSettings.Proofs.Text.DigitRows
import AuditSettings.Text.Split
import Mathlib.Data.List.TakeWhile

namespace AuditSettings.Number

open AuditSettings.Text

variable {cs ds : List Char}

/-! ## Digits at their places -/

/-- What a digit says by itself. -/
def digit (c : Char) : Nat := c.toNat - '0'.toNat

/-- What a row of digits says in front of the point: each digit counts ten
times the one after it. -/
def wholeValue : List Char → Nat
  | [] => 0
  | c :: cs => digit c * 10 ^ cs.length + wholeValue cs

/-- What a row of digits says behind the point: each digit counts a tenth of
the one before it. -/
def partValue : List Char → ℚ
  | [] => 0
  | c :: cs => (digit c + partValue cs) / 10

theorem digitValue_of_isDigit {c : Char} (h : c.isDigit = true) : digitValue c = digit c := if_pos h

theorem ofDigits_eq_wholeValue (h : AllDigits cs) : ofDigits 10 cs = wholeValue cs := by
  induction cs with
  | nil => rfl
  | cons c cs ih =>
    obtain ⟨hc, hcs⟩ := List.forall_mem_cons.1 h
    rw [ofDigits_cons, digitValue_of_isDigit hc, ih hcs, wholeValue]

theorem partValue_eq (h : AllDigits cs) : partValue cs = ofDigits 10 cs / 10 ^ cs.length := by
  induction cs with
  | nil => simp [partValue]
  | cons c cs ih =>
    obtain ⟨hc, hcs⟩ := List.forall_mem_cons.1 h
    rw [partValue, ih hcs, ofDigits_cons, digitValue_of_isDigit hc, List.length_cons, pow_succ]
    push_cast
    field_simp

/-- The digits on both sides of a point say what they say as one row, moved by
as many places as there are behind the point. -/
theorem wholeValue_add_partValue (hcs : AllDigits cs) (hds : AllDigits ds) (e : Int) :
    (wholeValue cs + partValue ds) * 10 ^ e = ofDigits 10 (cs ++ ds) * 10 ^ (e - ds.length) := by
  rw [partValue_eq hds, ← ofDigits_eq_wholeValue hcs, ofDigits_append, zpow_sub₀ (by norm_num),
    zpow_natCast]
  push_cast
  field_simp

/-! ## Signs -/

/-- How a sign is written, if it is. -/
inductive Sign where
  | unmarked
  | plus
  | minus

namespace Sign

def text : Sign → List Char
  | unmarked => []
  | plus => ['+']
  | minus => ['-']

/-- Whether a sign turns a number around. -/
def negates : Sign → Bool
  | minus => true
  | _ => false

end Sign

/-- A sign is read off any text that does not go on with another. -/
theorem splitSign_text (s : Sign) (h : ∀ c ∈ cs.head?, c ≠ '+' ∧ c ≠ '-') :
    splitSign (s.text ++ cs) = (s.negates, cs) := by
  cases s with
  | plus => rfl
  | minus => rfl
  | unmarked =>
    rw [Sign.text, List.nil_append]
    unfold splitSign
    split
    · exact absurd rfl (h _ rfl).2
    · exact absurd rfl (h _ rfl).1
    · rfl

theorem exists_sign (cs : List Char) :
    ∃ s : Sign, cs = s.text ++ (splitSign cs).2 ∧ (splitSign cs).1 = s.negates := by
  unfold splitSign
  split
  · exact ⟨.minus, rfl, rfl⟩
  · exact ⟨.plus, rfl, rfl⟩
  · exact ⟨.unmarked, rfl, rfl⟩

/-! ## Powers of ten -/

/-- A power of ten as it is written: a letter, a sign, if any, and digits. -/
structure Power where
  letter : Char
  sign : Sign
  digits : List Char
  isLetter : letter = 'e' ∨ letter = 'E'
  allDigits : AllDigits digits
  ne_nil : digits ≠ []

/-- The characters of a power of ten, if there is one. -/
def Power.text : Option Power → List Char
  | none => []
  | some p => p.letter :: (p.sign.text ++ p.digits)

/-- The power that is said: the power zero where none is written. -/
def Power.value : Option Power → Int
  | none => 0
  | some p => if p.sign.negates then -wholeValue p.digits else wholeValue p.digits

/-- The first of a row of digits is a digit. -/
theorem isDigit_of_head (h : AllDigits cs) : ∀ c ∈ cs.head?, c.isDigit = true := fun c hc =>
  h c (List.mem_of_mem_head? hc)

theorem ne_sign_of_isDigit {c : Char} (h : c.isDigit = true) : c ≠ '+' ∧ c ≠ '-' := by
  constructor <;> rintro rfl <;> exact absurd h (by decide)

theorem exponent?_text (p : Option Power) :
    Numeral.exponent? (Power.text p) = some (Power.value p) := by
  cases p with
  | none => rfl
  | some p =>
    have hsplit : splitSign (p.sign.text ++ p.digits) = (p.sign.negates, p.digits) :=
      splitSign_text p.sign fun c hc => ne_sign_of_isDigit (isDigit_of_head p.allDigits c hc)
    have hdigits : (p.digits.isEmpty || !p.digits.all Char.isDigit) = false := by
      rw [List.all_eq_true.2 p.allDigits, List.isEmpty_eq_false_iff.2 p.ne_nil]
      rfl
    rw [Power.text, Numeral.exponent?, if_pos (by simpa using p.isLetter), hsplit]
    simp only [hdigits, Bool.false_eq_true, if_false, ofDigits_eq_wholeValue p.allDigits]
    rfl

theorem exists_power {e : Int} (h : Numeral.exponent? cs = some e) : ∃ p, cs = Power.text p := by
  cases cs with
  | nil => exact ⟨none, rfl⟩
  | cons c cs =>
    obtain ⟨s, hcs, -⟩ := exists_sign cs
    rw [Numeral.exponent?] at h
    generalize splitSign cs = signed at hcs h
    obtain ⟨negative, digits⟩ := signed
    simp only [Option.ite_none_right_eq_some, Option.ite_none_left_eq_some, Bool.or_eq_true,
      decide_eq_true_eq, not_or, Bool.not_eq_true, Bool.not_eq_false', List.isEmpty_eq_false_iff,
      List.all_eq_true] at h
    obtain ⟨hletter, ⟨hne, hall⟩, -⟩ := h
    exact ⟨some ⟨c, s, digits, hletter, hall, hne⟩, by rw [Power.text, hcs]⟩

/-! ## Points -/

/-- The characters of a point and the digits behind it, if there is one. -/
def pointText : Option (List Char) → List Char
  | none => []
  | some ds => '.' :: ds

/-- Digits in front of the point end at it, or at the letter of the power. -/
theorem head_pointText (part : Option (List Char)) (p : Option Power) :
    ∀ c ∈ (pointText part ++ Power.text p).head?, c.isDigit = false := by
  cases part with
  | some ds =>
    rintro c ⟨⟩
    rfl
  | none =>
    cases p with
    | none => simp [pointText, Power.text]
    | some p =>
      rintro c ⟨⟩
      rcases p.isLetter with h | h <;> rw [h] <;> rfl

theorem fraction_text {part : Option (List Char)} (h : ∀ ds ∈ part, AllDigits ds)
    (p : Option Power) :
    Numeral.fraction (pointText part ++ Power.text p) = (part.getD [], Power.text p) := by
  cases part with
  | none =>
    cases p with
    | none => rfl
    | some p =>
      have hne : p.letter ≠ '.' := by
        rcases p.isLetter with h | h <;> rw [h] <;> decide
      rw [pointText, List.nil_append, Power.text]
      unfold Numeral.fraction
      split
      · rename_i hcons
        exact absurd (List.cons.inj hcons).1 hne
      · rfl
  | some ds =>
    have hds : ∀ c ∈ ds, c.isDigit = true := h ds rfl
    have hstop : ∀ c ∈ (Power.text p).head?, c.isDigit = false := head_pointText none p
    rw [pointText, List.cons_append, Numeral.fraction, takeWhile_append_of_stop hds hstop,
      dropWhile_append_of_stop hds hstop, Option.getD_some]

theorem exists_part (cs : List Char) : ∃ part, (∀ ds ∈ part, AllDigits ds) ∧
    part.getD [] = (Numeral.fraction cs).1 ∧ cs = pointText part ++ (Numeral.fraction cs).2 := by
  unfold Numeral.fraction
  split
  · rename_i cs
    refine ⟨some (cs.takeWhile Char.isDigit), ?_, rfl, ?_⟩
    · rintro ds ⟨⟩ c hc
      exact List.mem_takeWhile_imp hc
    · rw [pointText, List.cons_append, List.takeWhile_append_dropWhile]
  · exact ⟨none, by simp, rfl, rfl⟩

/-! ## Decimal numerals -/

/-- A decimal numeral as it is written: a sign, if any, digits, a point with
digits behind it, if any, and a power of ten, if any. There is a digit on one
side of the point. -/
structure Decimal where
  sign : Sign
  whole : List Char
  part : Option (List Char)
  power : Option Power
  whole_digits : AllDigits whole
  part_digits : ∀ ds ∈ part, AllDigits ds
  has_digit : whole ++ part.getD [] ≠ []

namespace Decimal

variable (x : Decimal)

/-- The digits behind the point. -/
def fraction : List Char := x.part.getD []

/-- The characters of a numeral without its sign. -/
def body : List Char := x.whole ++ (pointText x.part ++ Power.text x.power)

/-- The characters of a numeral. -/
def text : List Char := x.sign.text ++ x.body

/-- The number that a numeral says. -/
def value : ℚ :=
  signed x.sign.negates ((wholeValue x.whole + partValue x.fraction) * 10 ^ Power.value x.power)

theorem fraction_digits : AllDigits x.fraction := by
  rw [fraction]
  cases h : x.part with
  | none => simp [AllDigits]
  | some ds => exact x.part_digits ds h

/-- A numeral begins with a digit or with the point, its sign apart. -/
theorem exists_head : ∃ c rest, x.body = c :: rest ∧ (c.isDigit = true ∨ c = '.') := by
  rw [body]
  cases hwhole : x.whole with
  | cons c cs => exact ⟨c, _, rfl, .inl (x.whole_digits c (hwhole ▸ List.mem_cons_self))⟩
  | nil =>
    have hdigit := x.has_digit
    rw [hwhole] at hdigit
    cases hpart : x.part with
    | none => exact absurd (by rw [hpart]; rfl) hdigit
    | some ds => exact ⟨'.', _, rfl, .inr rfl⟩

theorem toLower_of_head {c : Char} (h : c.isDigit = true ∨ c = '.') : c.toLower = c := by
  rcases h with hdigit | rfl
  · refine dif_neg fun hupper => ?_
    have hcode : 0x41 ≤ c.toNat := UInt32.le_iff_toNat_le.1 hupper.1
    have hdigit := (isDigit_iff.1 hdigit).2
    omega
  · rfl

/-- The characters of a numeral are digits and the marks around them. -/
theorem mem_text {c : Char} (h : c ∈ x.text) :
    c.isDigit = true ∨ c ∈ ['+', '-', '.', 'e', 'E'] := by
  have hsign (s : Sign) (hc : c ∈ s.text) : c ∈ ['+', '-', '.', 'e', 'E'] := by
    cases s <;> simp_all [Sign.text]
  rw [text, body, List.mem_append, List.mem_append, List.mem_append] at h
  rcases h with h | h | h | h
  · exact .inr (hsign _ h)
  · exact .inl (x.whole_digits c h)
  · cases hpart : x.part with
    | none => simp [hpart, pointText] at h
    | some ds =>
      rw [hpart, pointText, List.mem_cons] at h
      rcases h with rfl | h
      · exact .inr (by decide)
      · exact .inl (x.part_digits ds hpart c h)
  · cases hpower : x.power with
    | none => simp [hpower, Power.text] at h
    | some p =>
      rw [hpower, Power.text, List.mem_cons, List.mem_append] at h
      rcases h with rfl | h | h
      · refine .inr ?_
        rcases p.isLetter with h | h <;> rw [h] <;> decide
      · exact .inr (hsign _ h)
      · exact .inl (p.allDigits c h)

/-- No numeral of digits is read as a word. -/
theorem map_toLower_ne (word : List Char) (hword : word.head? = some 'n' ∨ word.head? = some 'i') :
    x.body.map Char.toLower ≠ word := by
  obtain ⟨c, rest, hbody, hc⟩ := x.exists_head
  rintro rfl
  rw [hbody, List.map_cons, List.head?_cons, toLower_of_head hc, Option.some_inj,
    Option.some_inj] at hword
  rcases hword with rfl | rfl <;> exact absurd hc (by decide)

theorem decimal?_body (negative : Bool) : Numeral.decimal? negative x.body =
    some (.decimal negative (ofDigits 10 (x.whole ++ x.fraction))
      (Power.value x.power - x.fraction.length)) := by
  have hstop := head_pointText x.part x.power
  have hdigit : (x.whole.isEmpty && (x.part.getD []).isEmpty) = false := by
    have h := x.has_digit
    rw [ne_eq, List.append_eq_nil_iff, ← List.isEmpty_iff, ← List.isEmpty_iff, ← Bool.and_eq_true,
      Bool.not_eq_true] at h
    exact h
  rw [Numeral.decimal?, body, dropWhile_append_of_stop x.whole_digits hstop,
    takeWhile_append_of_stop x.whole_digits hstop, fraction_text x.part_digits]
  simp only [hdigit, exponent?_text, Bool.false_eq_true, if_false]
  rfl

/-- A numeral as it is read: its digits as one row, moved by as many places as
there are behind the point. -/
def numeral : Numeral :=
  .decimal x.sign.negates (ofDigits 10 (x.whole ++ x.fraction))
    (Power.value x.power - x.fraction.length)

theorem read?_text : Numeral.read? x.text = some x.numeral := by
  have hsplit : splitSign x.text = (x.sign.negates, x.body) := by
    refine splitSign_text x.sign fun c hc => ?_
    obtain ⟨d, rest, hbody, hd⟩ := x.exists_head
    rw [hbody] at hc
    obtain rfl : d = c := Option.some.inj hc
    constructor <;> rintro rfl <;> exact absurd hd (by decide)
  -- the words are looked for first, and a numeral begins with no letter of theirs
  have hnan := x.map_toLower_ne ['n', 'a', 'n'] (.inl rfl)
  have hinf := x.map_toLower_ne ['i', 'n', 'f'] (.inr rfl)
  have hinfinity := x.map_toLower_ne ['i', 'n', 'f', 'i', 'n', 'i', 't', 'y'] (.inr rfl)
  rw [Numeral.read?, hsplit]
  simp only [hnan, hinf, hinfinity, decide_false, Bool.or_self, Bool.false_eq_true, if_false]
  exact x.decimal?_body _

/-- What is read is what the numeral says. -/
theorem value_eq : x.value = signed x.sign.negates
    (ofDigits 10 (x.whole ++ x.fraction) * 10 ^ (Power.value x.power - x.fraction.length)) := by
  rw [value, wholeValue_add_partValue x.whole_digits x.fraction_digits]

/-- What is read as digits is the unsigned part of a numeral. -/
theorem exists_of_decimal? {negative : Bool} {v : Numeral}
    (h : Numeral.decimal? negative cs = some v) (s : Sign) :
    ∃ x : Decimal, x.sign = s ∧ x.body = cs := by
  obtain ⟨part, hpart, hgetD, hrest⟩ := exists_part (cs.dropWhile Char.isDigit)
  rw [Numeral.decimal?] at h
  generalize Numeral.fraction (cs.dropWhile Char.isDigit) = cut at hgetD hrest h
  obtain ⟨ds, rest⟩ := cut
  simp only [Option.ite_none_left_eq_some, Bool.and_eq_true, List.isEmpty_iff,
    Option.map_eq_some_iff] at h
  obtain ⟨hdigit, e, hexponent, -⟩ := h
  obtain ⟨p, hp⟩ := exists_power hexponent
  refine ⟨⟨s, cs.takeWhile Char.isDigit, part, p, fun c hc => List.mem_takeWhile_imp hc, hpart, ?_⟩,
    rfl, ?_⟩
  · rw [hgetD, ne_eq, List.append_eq_nil_iff]
    exact hdigit
  · rw [body, ← hp, ← hrest, List.takeWhile_append_dropWhile]

/-- A text is read as digits exactly when it is a decimal numeral. -/
theorem exists_text_iff : (∃ x : Decimal, x.text = cs) ↔
    ∃ negative digits e, Numeral.read? cs = some (.decimal negative digits e) := by
  constructor
  · rintro ⟨x, rfl⟩
    exact ⟨_, _, _, x.read?_text⟩
  · rintro ⟨negative, digits, e, h⟩
    obtain ⟨s, hcs, -⟩ := exists_sign cs
    rw [Numeral.read?] at h
    generalize splitSign cs = cut at hcs h
    obtain ⟨negative', rest⟩ := cut
    dsimp only at h
    split at h
    · cases h
    · split at h
      · cases h
      · obtain ⟨x, hsign, hbody⟩ := exists_of_decimal? h s
        exact ⟨x, by rw [text, hsign, hbody, hcs]⟩

end Decimal
end AuditSettings.Number
