/-
AuditSettings.Proofs.Policy.AdvisoryNames — the names that have the usual
form.

The check cuts a name at its hyphens, which gives as many pieces as there are
hyphens and one more. So a name passes exactly if it is `RUSTSEC-`, four
digits, a hyphen and a row of digits (`IsUsual`), and nothing may stand before,
between or behind them (`isRustsec_accepts`). It makes no difference whether
the year is measured in characters or in bytes, because a byte that is a digit
is a whole character.
-/
import AuditSettings.Policy.Advisory
import AuditSettings.Proofs.Text.DigitRows
import AuditSettings.Text.Blank

namespace AuditSettings.Policy

open AuditSettings.Text

/-! ## The usual form -/

namespace AdvisoryId

/-- The letters that a name of the usual form begins with. -/
def family : List Char := ['R', 'U', 'S', 'T', 'S', 'E', 'C']

/-- Whether a name is `RUSTSEC-`, a year of four digits, a hyphen and a
sequence number, and nothing else. -/
structure IsUsual (id : AdvisoryId) (year sequence : List Char) : Prop where
  text : id.toList = family ++ ['-'] ++ year ++ ['-'] ++ sequence
  year_length : year.length = 4
  year_digits : AllDigits year
  sequence_ne_nil : sequence ≠ []
  sequence_digits : AllDigits sequence

/-- Whether the hyphens of a name cut it into the family, four bytes that are
digits and one such byte or more. -/
structure IsUsualInBytes (id : AdvisoryId) (year sequence : List Char) : Prop where
  pieces : pieces '-' id.toList = [family, year, sequence]
  year_length : (Utf8.encode year).length = 4
  year_digits : ∀ b ∈ Utf8.encode year, isDigitByte b = true
  sequence_ne_nil : Utf8.encode sequence ≠ []
  sequence_digits : ∀ b ∈ Utf8.encode sequence, isDigitByte b = true

variable {id : AdvisoryId} {year sequence : List Char}

/-- The check is of the pieces between hyphens. -/
theorem isRustsec_iff_pieces : id.isRustsec = true ↔ ∃ year sequence,
    Text.pieces '-' id.toList = [family, year, sequence] ∧ year.length = 4 ∧ AllDigits year ∧
      sequence ≠ [] ∧ AllDigits sequence := by
  unfold isRustsec
  split
  · next family' year' sequence' hpieces =>
    simp only [hpieces, List.cons.injEq, and_true, Bool.and_eq_true, beq_iff_eq, List.all_eq_true,
      Bool.not_eq_true', List.isEmpty_eq_false_iff]
    constructor
    · rintro ⟨⟨⟨⟨rfl, hlength⟩, hyear⟩, hne⟩, hsequence⟩
      exact ⟨year', sequence', ⟨rfl, rfl, rfl⟩, hlength, hyear, hne, hsequence⟩
    · rintro ⟨year, sequence, ⟨rfl, rfl, rfl⟩, hlength, hyear, hne, hsequence⟩
      exact ⟨⟨⟨⟨rfl, hlength⟩, hyear⟩, hne⟩, hsequence⟩
  · next hpieces =>
    refine iff_of_false Bool.false_ne_true ?_
    rintro ⟨year, sequence, h, -⟩
    exact hpieces _ _ _ h

theorem hyphen_not_mem {cs : List Char} (h : AllDigits cs) : '-' ∉ cs := by
  intro hmem
  exact absurd (h '-' hmem) (by decide)

/-- Where the parts are digits, the hyphens that cut a name are the two
between its parts. -/
theorem pieces_eq_iff_of_digits (hyear : AllDigits year) (hsequence : AllDigits sequence) :
    Text.pieces '-' id.toList = [family, year, sequence] ↔
      id.toList = family ++ ['-'] ++ year ++ ['-'] ++ sequence := by
  have hparts : ∀ p ∈ [family, year, sequence], '-' ∉ p := by
    simp only [List.forall_mem_cons]
    exact ⟨by decide, hyphen_not_mem hyear, hyphen_not_mem hsequence, List.forall_mem_nil _⟩
  have hjoin : ['-'].intercalate [family, year, sequence] =
      family ++ ['-'] ++ year ++ ['-'] ++ sequence := by
    simp [List.intercalate, List.intersperse]
  rw [pieces_eq_iff (by simp), hjoin, and_iff_left hparts]

theorem isRustsec_iff_isUsual :
    id.isRustsec = true ↔ ∃ year sequence, id.IsUsual year sequence := by
  rw [isRustsec_iff_pieces]
  constructor
  · rintro ⟨year, sequence, hpieces, hlength, hyear, hne, hsequence⟩
    exact ⟨year, sequence, (pieces_eq_iff_of_digits hyear hsequence).1 hpieces, hlength, hyear, hne,
      hsequence⟩
  · rintro ⟨year, sequence, h⟩
    exact ⟨year, sequence, (pieces_eq_iff_of_digits h.year_digits h.sequence_digits).2 h.text,
      h.year_length, h.year_digits, h.sequence_ne_nil, h.sequence_digits⟩

theorem isRustsec_iff_isUsualInBytes :
    id.isRustsec = true ↔ ∃ year sequence, id.IsUsualInBytes year sequence := by
  rw [isRustsec_iff_pieces]
  refine exists_congr fun year => exists_congr fun sequence => ?_
  constructor
  · rintro ⟨hpieces, hlength, hyear, hne, hsequence⟩
    refine ⟨hpieces, ?_, (allDigits_encode_iff year).2 hyear, ?_,
      (allDigits_encode_iff sequence).2 hsequence⟩
    · rw [length_encode_of_digits hyear, hlength]
    · rwa [← List.length_pos_iff, length_encode_of_digits hsequence, List.length_pos_iff]
  · -- bytes that are digits are characters, and only then are there as many of both
    rintro ⟨hpieces, hlength, hyear, hne, hsequence⟩
    have hyear' := (allDigits_encode_iff year).1 hyear
    have hsequence' := (allDigits_encode_iff sequence).1 hsequence
    rw [length_encode_of_digits hyear'] at hlength
    rw [← List.length_pos_iff, length_encode_of_digits hsequence', List.length_pos_iff] at hne
    exact ⟨hpieces, hlength, hyear', hne, hsequence'⟩

/-! ## What no such name holds -/

/-- Whether a character is white space, of another alphabet or row of digits
than ASCII's, or a small letter. -/
def IsForeign (c : Char) : Prop := isBlank c = true ∨ 0x80 ≤ c.toNat ∨ c.isLower = true

instance (c : Char) : Decidable (IsForeign c) := inferInstanceAs (Decidable (_ ∨ _ ∨ _))

theorem not_isForeign_of_isDigit {c : Char} (h : c.isDigit = true) : ¬ IsForeign c := by
  have hten : ∀ n < 10, ¬ IsForeign (Char.ofNat (0x30 + n)) := by decide
  obtain ⟨n, hn⟩ := Nat.exists_eq_add_of_le (isDigit_iff.1 h).1
  have hdigit := hten n (by have := (isDigit_iff.1 h).2; omega)
  rwa [← hn, Char.ofNat_toNat] at hdigit

theorem IsUsual.not_isForeign (h : id.IsUsual year sequence) {c : Char} (hc : c ∈ id.toList) :
    ¬ IsForeign c := by
  have hall : (family ++ ['-']).all (fun d => !decide (IsForeign d)) = true := by decide
  have hletters : ∀ d ∈ family ++ ['-'], ¬ IsForeign d := by
    intro d hd
    simpa using List.all_eq_true.1 hall d hd
  simp only [h.text, List.mem_append] at hc
  rcases hc with (((hc | hc) | hc) | hc) | hc
  · exact hletters c (List.mem_append_left _ hc)
  · exact hletters c (List.mem_append_right _ hc)
  · exact not_isForeign_of_isDigit (h.year_digits c hc)
  · exact hletters c (List.mem_append_right _ hc)
  · exact not_isForeign_of_isDigit (h.sequence_digits c hc)

theorem IsUsual.count_hyphen (h : id.IsUsual year sequence) : id.toList.count '-' = 2 := by
  rw [h.text]
  simp only [List.count_append, List.count_eq_zero_of_not_mem (hyphen_not_mem h.year_digits),
    List.count_eq_zero_of_not_mem (hyphen_not_mem h.sequence_digits)]
  rfl

/-! ## All names -/

/-- A name passes exactly if it has the usual form, whether the year is
measured in characters or in bytes. So a name fails that has a hyphen more or
less, and one that has white space, a digit of another row or a small letter
anywhere. -/
theorem isRustsec_accepts (id : AdvisoryId) :
    (id.isRustsec = true ↔ ∃ year sequence, id.IsUsual year sequence) ∧
    (id.isRustsec = true ↔ ∃ year sequence, id.IsUsualInBytes year sequence) ∧
    (id.toList.count '-' ≠ 2 → id.isRustsec = false) ∧
    ∀ c ∈ id.toList, IsForeign c → id.isRustsec = false := by
  refine ⟨isRustsec_iff_isUsual, isRustsec_iff_isUsualInBytes, ?_, ?_⟩
  · intro hcount
    rw [← Bool.not_eq_true, isRustsec_iff_isUsual]
    rintro ⟨year, sequence, h⟩
    exact hcount h.count_hyphen
  · intro c hc hforeign
    rw [← Bool.not_eq_true, isRustsec_iff_isUsual]
    rintro ⟨year, sequence, h⟩
    exact h.not_isForeign hc hforeign

/-- The full-width year fills four characters and twelve bytes, the last name
has a hyphen too many. -/
theorem isRustsec_accepts_ascii_only :
    isRustsec "RUSTSEC-2024-0437" = true ∧
    '２' ∈ "RUSTSEC-２０２４-0437".toList ∧ IsForeign '２' ∧
    isRustsec "RUSTSEC-２０２４-0437" = false ∧
    "RUSTSEC-2024-0437-1".toList.count '-' ≠ 2 ∧ isRustsec "RUSTSEC-2024-0437-1" = false := by
  have husual : IsUsual "RUSTSEC-2024-0437" ['2', '0', '2', '4'] ['0', '4', '3', '7'] :=
    ⟨rfl, rfl, by decide, by decide, by decide⟩
  have hmem : '２' ∈ "RUSTSEC-２０２４-0437".toList := by decide
  have hforeign : IsForeign '２' := by decide
  have hcount : "RUSTSEC-2024-0437-1".toList.count '-' ≠ 2 := by decide
  obtain ⟨hpass, -, -, -⟩ := isRustsec_accepts "RUSTSEC-2024-0437"
  obtain ⟨-, -, -, hwide⟩ := isRustsec_accepts "RUSTSEC-２０２４-0437"
  obtain ⟨-, -, hlong, -⟩ := isRustsec_accepts "RUSTSEC-2024-0437-1"
  exact ⟨hpass.2 ⟨_, _, husual⟩, hmem, hforeign, hwide _ hmem hforeign, hcount, hlong hcount⟩

end AdvisoryId

end AuditSettings.Policy
