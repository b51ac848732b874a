/-
AuditSettings.Proofs.Toml.Numerals — the number that a numeral denotes.

A numeral denotes a whole number by the places of its digits, in base ten
or in the base that its front names (`denoted`). That knows nothing of a
width. A token writes the number that its text denotes as long as the
number has room in 64 bits (`HasRoom`), and otherwise zero
(`Token.integer_of_scalar`).
-/
import AuditSettings.Proofs.Number.Digits
import AuditSettings.Proofs.Toml.Standing
import Mathlib.Data.List.TakeWhile
import Mathlib.Data.Nat.Digits.Defs
import Mathlib.Tactic.Ring

namespace AuditSettings.Toml

open AuditSettings.Text AuditSettings.Number

/-! ## What a numeral denotes -/

/-- The digits of all bases, each at the place that is its value. -/
def allDigits : List Char :=
  ['0', '1', '2', '3', '4', '5', '6', '7', '8', '9', 'a', 'b', 'c', 'd', 'e', 'f']

/-- The number that a row of digits denotes in a base. Underscores between
them mean nothing. -/
def natural (base : Nat) (cs : List Char) : Nat :=
  Nat.ofDigits base ((cs.filter (· ≠ '_')).map fun c => allDigits.idxOf c.toLower).reverse

/-- The whole number that a numeral denotes. -/
def denoted : List Char → Int
  | '0' :: 'x' :: cs => natural 16 cs
  | '0' :: 'o' :: cs => natural 8 cs
  | '0' :: 'b' :: cs => natural 2 cs
  | '-' :: cs => -natural 10 cs
  | '+' :: cs => natural 10 cs
  | cs => natural 10 cs

/-- Whether a number has room in 64 bits, of which a negative one needs one
for its sign. -/
def HasRoom (n : Int) : Prop := -2 ^ 63 ≤ n ∧ n < 2 ^ 64

instance (n : Int) : Decidable (HasRoom n) := inferInstanceAs (Decidable (_ ∧ _))

/-! ## Rows of digits -/

/-- A digit has the value that is its place among the digits. -/
theorem digitValue_eq {c : Char} (h : isHexDigit c = true) :
    digitValue c = allDigits.idxOf c.toLower := by
  -- a digit is one of the first 128 characters, so there are few cases to look at
  have hascii : ∀ n < 128, isHexDigit (Char.ofNat n) = true →
      digitValue (Char.ofNat n) = allDigits.idxOf (Char.ofNat n).toLower := by
    decide +kernel
  have hlt : c.toNat < 128 := by
    simp only [isHexDigit, Char.isDigit, Bool.or_eq_true, Bool.and_eq_true, decide_eq_true_eq,
      ge_iff_le, UInt32.le_iff_toNat_le, Char.le_def] at h
    simp only [Char.toNat]
    rcases h with (⟨-, h⟩ | ⟨-, h⟩) | ⟨-, h⟩
    · exact lt_of_le_of_lt h (by decide)
    · exact lt_of_le_of_lt h (by decide)
    · exact lt_of_le_of_lt h (by decide)
  simpa [Char.ofNat_toNat] using hascii c.toNat hlt (by simpa [Char.ofNat_toNat] using h)

theorem ofDigits_eq {base : Nat} {cs : List Char} (h : ∀ c ∈ cs, isHexDigit c = true) :
    ofDigits base cs = Nat.ofDigits base (cs.map fun c => allDigits.idxOf c.toLower).reverse := by
  induction cs using List.reverseRecOn with
  | nil => rfl
  | append_singleton cs c ih =>
    have hfront : ∀ d ∈ cs, isHexDigit d = true := fun d hd => h d (by simp [hd])
    have hlast : isHexDigit c = true := h c (by simp)
    rw [ofDigits_concat, ih hfront, digitValue_eq hlast, List.map_append, List.reverse_append]
    simp only [List.map_cons, List.map_nil, List.reverse_singleton, List.singleton_append,
      Nat.ofDigits_cons]
    ring

/-- A row of digits is read as the number that it denotes. -/
theorem ofDigits_eq_natural {base : Nat} {cs : List Char}
    (h : ∀ c ∈ cs, isHexDigit c = true ∨ c = '_') :
    ofDigits base (dropUnderscores cs) = natural base cs := by
  refine ofDigits_eq fun c hc => ?_
  obtain ⟨hmem, hne⟩ := List.mem_filter.1 hc
  exact (h c hmem).resolve_right (by simpa using hne)

/-- Without a sign and a base of its own a row of digits is in base ten. -/
theorem denoted_of_digits {cs : List Char} (h : ∀ c ∈ cs, c.isDigit = true ∨ c = '_') :
    denoted cs = natural 10 cs := by
  unfold denoted
  split
  · exact absurd (h 'x' (by simp)) (by decide)
  · exact absurd (h 'o' (by simp)) (by decide)
  · exact absurd (h 'b' (by simp)) (by decide)
  · exact absurd (h '-' (by simp)) (by decide)
  · exact absurd (h '+' (by simp)) (by decide)
  · rfl

theorem natural_toDigits (n : Nat) : natural 10 (Nat.toDigits 10 n) = n := by
  have hdigits : ∀ c ∈ Nat.toDigits 10 n, isHexDigit c = true ∧ c ≠ '_' :=
    forall_mem_toDigits (by decide) (by decide)
  have hplain : dropUnderscores (Nat.toDigits 10 n) = Nat.toDigits 10 n :=
    List.filter_eq_self.2 fun c hc => decide_eq_true (hdigits c hc).2
  rw [← ofDigits_eq_natural fun c hc => .inl (hdigits c hc).1, hplain,
    ofDigits_toDigits (by decide) (by decide)]

/-- A number as it is shown denotes itself. -/
theorem denoted_toString (n : Int) : denoted (toString n).toList = n := by
  cases n with
  | ofNat n =>
    have htext : (toString (Int.ofNat n)).toList = Nat.toDigits 10 n := Nat.toList_repr
    rw [htext, denoted_of_digits fun c hc => .inl (Nat.isDigit_of_mem_toDigits (by decide) (by decide) hc),
      natural_toDigits]
    rfl
  | negSucc n =>
    have htext : (toString (Int.negSucc n)).toList = '-' :: Nat.toDigits 10 (n + 1) := by
      change ("-" ++ Nat.repr (n + 1)).toList = _
      rw [String.toList_append, Nat.toList_repr]
      rfl
    rw [htext, denoted, natural_toDigits]
    rfl

/-! ## Tokens that write whole numbers -/

theorem take_length_takeWhile {p : Char → Bool} (cs : List Char) :
    cs.take (cs.takeWhile p).length = cs.takeWhile p :=
  (List.prefix_iff_eq_take.1 (List.takeWhile_prefix p)).symm

/-- A zero and a letter begin a numeral that has a base of its own. -/
theorem text_of_radixLength {letter : Char} {digit : Char → Bool} {cs : List Char} {n : Nat}
    (h : n + 1 = radixLength letter digit cs) : ∃ digits,
    cs.take (n + 1) = '0' :: letter :: digits ∧ ∀ c ∈ digits, digit c = true ∨ c = '_' := by
  unfold radixLength at h
  split at h
  · next c cs =>
    simp only at h
    split at h
    · next hletter =>
      obtain ⟨rfl, -⟩ : c = letter ∧ _ := by simpa using hletter
      refine ⟨cs.takeWhile fun d => digit d || d = '_', ?_, fun d hd => ?_⟩
      · rw [h, List.take_succ_cons, List.take_succ_cons, take_length_takeWhile]
      · simpa using List.mem_takeWhile_imp hd
    · omega
  · omega

/-- A sign, if any, begins a numeral in base ten. -/
theorem text_of_integerLength {cs : List Char} {n : Nat} (h : n + 1 = integerLength cs) :
    ∃ sign digits, cs.take (n + 1) = sign ++ digits ∧ sign ∈ [[], ['+'], ['-']] ∧
      ∀ c ∈ digits, c.isDigit = true ∨ c = '_' := by
  unfold integerLength at h
  simp only at h
  split at h
  · omega
  · refine ⟨cs.take (signLength cs),
      (cs.drop (signLength cs)).takeWhile fun c => c.isDigit || c = '_', ?_, ?_, fun c hc => ?_⟩
    · rw [h, List.take_add, digitsLength, take_length_takeWhile]
    · unfold signLength
      split
      · split
        · next hc => simpa using hc
        · simp
      · simp
    · simpa using List.mem_takeWhile_imp hc

/-- What is fitted is the number itself, if it has room. -/
theorem fitted_eq (negative : Bool) (n : Nat) :
    fitted negative n =
      if HasRoom (if negative then -(n : Int) else n) then (if negative then -(n : Int) else n)
      else 0 := by
  have h63 : Nat.pow 2 63 = 9223372036854775808 := rfl
  have h64 : Nat.pow 2 64 = 18446744073709551616 := rfl
  unfold fitted HasRoom
  rw [h63, h64]
  cases negative
  · simp only [Bool.false_eq_true, if_false]
    split <;> split <;> omega
  · simp only [if_true]
    split <;> split <;> omega

/-- The kinds of token that write a whole number. -/
def integerKinds : List Kind := [.integer, .hexInteger, .octalInteger, .binaryInteger]

theorem isHexDigit_of_isDigit {c : Char} (h : c.isDigit = true) : isHexDigit c = true := by
  simp [isHexDigit, h]

theorem isHexDigit_of_isOctalDigit {c : Char} (h : isOctalDigit c = true) :
    isHexDigit c = true := by
  rw [isOctalDigit, Bool.and_eq_true, decide_eq_true_iff, decide_eq_true_iff] at h
  refine isHexDigit_of_isDigit ?_
  rw [Char.isDigit, Bool.and_eq_true, decide_eq_true_iff, decide_eq_true_iff]
  exact ⟨h.1, UInt32.le_trans h.2 (by decide)⟩

theorem isHexDigit_of_isBinaryDigit {c : Char} (h : isBinaryDigit c = true) :
    isHexDigit c = true := by
  have hc : c = '0' ∨ c = '1' := by simpa [isBinaryDigit] using h
  rcases hc with rfl | rfl <;> decide

/-- A numeral in base ten denotes what its digits do, with its sign. -/
theorem denoted_eq_of_sign {sign digits : List Char} (hsign : sign ∈ [[], ['+'], ['-']])
    (hdigits : ∀ c ∈ digits, c.isDigit = true ∨ c = '_') :
    denoted (sign ++ digits) = if (splitSign (sign ++ digits)).1
      then -(ofDigits 10 (dropUnderscores (splitSign (sign ++ digits)).2) : Int)
      else ofDigits 10 (dropUnderscores (splitSign (sign ++ digits)).2) := by
  have hvalue : ofDigits 10 (dropUnderscores digits) = natural 10 digits :=
    ofDigits_eq_natural fun c hc => (hdigits c hc).imp_left isHexDigit_of_isDigit
  simp only [List.mem_cons, List.not_mem_nil, or_false] at hsign
  rcases hsign with rfl | rfl | rfl
  · have hsplit : splitSign digits = (false, digits) := by
      unfold splitSign
      split
      · exact absurd (hdigits '-' (by simp)) (by decide)
      · exact absurd (hdigits '+' (by simp)) (by decide)
      · rfl
    rw [List.nil_append, hsplit, denoted_of_digits hdigits, ← hvalue]
    rfl
  · exact congrArg Nat.cast hvalue.symm
  · exact congrArg (fun n : Nat => -(n : Int)) hvalue.symm

/-- A token in base ten writes what it denotes, if that has room. -/
theorem Token.integer_of_decimal {t : Token} {n : Int} {rest : List Char} {m : Nat}
    (hread : m + 1 = integerLength rest) (htext : t.text = rest.take (m + 1))
    (h : fitted (splitSign t.text).1 (ofDigits 10 (dropUnderscores (splitSign t.text).2)) = n) :
    n = if HasRoom (denoted t.text) then denoted t.text else 0 := by
  obtain ⟨sign, digits, hparts, hsign, hdigits⟩ := text_of_integerLength hread
  rw [htext, hparts] at h ⊢
  rw [← h, fitted_eq, denoted_eq_of_sign hsign hdigits]

/-- A token in a base of its own writes what it denotes, if that has
room. -/
theorem Token.integer_of_radix {t : Token} {base : Nat} {letter : Char} {digit : Char → Bool}
    {n : Int} {rest : List Char} {m : Nat} (hread : m + 1 = radixLength letter digit rest)
    (htext : t.text = rest.take (m + 1)) (hhex : ∀ c, digit c = true → isHexDigit c = true)
    (hbase : ∀ cs, denoted ('0' :: letter :: cs) = natural base cs)
    (h : t.radixInteger base digit = .ok (.integer n)) :
    n = if HasRoom (denoted t.text) then denoted t.text else 0 := by
  obtain ⟨digits, hparts, hdigits⟩ := text_of_radixLength hread
  obtain ⟨-, -, hn⟩ := exists_of_bind_eq_ok h
  have hvalue : ofDigits base (dropUnderscores digits) = natural base digits :=
    ofDigits_eq_natural fun c hc => (hdigits c hc).imp_left (hhex c)
  rw [htext, hparts] at hn ⊢
  rw [← Scalar.integer.inj (Except.ok.inj hn), fitted_eq, hbase, List.drop_succ_cons,
    List.drop_succ_cons, List.drop_zero, hvalue]
  rfl

/-- A token that writes a whole number writes the one that its text denotes,
if that has room. -/
theorem Token.integer_of_scalar {text : List Char} {t : Token} {n : Int} (ht : t ∈ scan text)
    (h : t.scalar = .ok (.integer n)) :
    t.kind ∈ integerKinds ∧ n = if HasRoom (denoted t.text) then denoted t.text else 0 := by
  obtain ⟨rest, m, -, hlex, htext⟩ := exists_lexeme ht
  cases hk : t.kind with
  | integer =>
    rw [hk] at hlex
    simp only [scalar, hk] at h
    have hread := mem_readings hlex (by decide)
    split at h
    · cases h
    · obtain ⟨-, -, hn⟩ := exists_of_bind_eq_ok h
      exact ⟨by decide, integer_of_decimal (by simpa [readings] using hread) htext
        (Scalar.integer.inj (Except.ok.inj hn))⟩
  | hexInteger =>
    rw [hk] at hlex
    simp only [scalar, hk] at h
    have hread := mem_readings hlex (by decide)
    exact ⟨by decide, integer_of_radix (by simpa [readings] using hread) htext (fun _ => id)
      (fun _ => rfl) h⟩
  | octalInteger =>
    rw [hk] at hlex
    simp only [scalar, hk] at h
    have hread := mem_readings hlex (by decide)
    exact ⟨by decide, integer_of_radix (by simpa [readings] using hread) htext
      (fun _ => isHexDigit_of_isOctalDigit) (fun _ => rfl) h⟩
  | binaryInteger =>
    rw [hk] at hlex
    simp only [scalar, hk] at h
    have hread := mem_readings hlex (by decide)
    exact ⟨by decide, integer_of_radix (by simpa [readings] using hread) htext
      (fun _ => isHexDigit_of_isBinaryDigit) (fun _ => rfl) h⟩
  | float =>
    simp only [scalar, hk] at h
    split at h
    · cases h
    · obtain ⟨-, -, hn⟩ := exists_of_bind_eq_ok h
      cases hn
  | basic | multiBasic | literal | multiLiteral =>
    simp only [scalar, hk] at h
    obtain ⟨_, -, hn⟩ := exists_of_bind_eq_ok h
    cases hn
  | _ =>
    simp only [scalar, hk] at h
    cases h

end AuditSettings.Toml
