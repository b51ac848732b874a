/-
AuditSettings.Proofs.Policy.Labels — what the label of a report says.

A label is read in one of three ways. If something is closed in its first
parentheses, that alone decides: it is the word for a band, with white space
around it or not, or the label says nothing, whatever else it holds. Where
nothing is, the whole label is a word or a score. Which way is taken does not
depend on the white space around the label, because no parenthesis is white
space (`ofLabel?_reads`).
-/
import AuditSettings.Policy.Severity
import AuditSettings.Proofs.Text.Trimming

namespace AuditSettings

open AuditSettings.Text AuditSettings.Number

namespace Text

variable {mark : Char} {u cs : List Char}

/-- Text without a mark in front of another does not change the cut. -/
theorem splitOnce_append_left (h : mark ∉ u) (cs : List Char) :
    splitOnce mark (u ++ cs) = (splitOnce mark cs).map fun (before, rest) => (u ++ before, rest) := by
  induction u with
  | nil => simp
  | cons c u ih =>
    rw [List.mem_cons, not_or] at h
    rw [List.cons_append, splitOnce, if_neg (Ne.symm h.1), ih h.2, Option.map_map]
    rfl

/-- Nor does text without a mark at the end. -/
theorem splitOnce_append_right (h : mark ∉ u) (cs : List Char) :
    splitOnce mark (cs ++ u) = (splitOnce mark cs).map fun (before, rest) => (before, rest ++ u) := by
  induction cs with
  | nil =>
    have hnone := splitOnce_append_left h []
    rwa [List.append_nil] at hnone
  | cons c cs ih =>
    rw [List.cons_append, splitOnce, splitOnce]
    split
    · rfl
    · rw [ih, Option.map_map, Option.map_map]
      rfl

end Text

namespace Policy.Severity

variable {label inner : List Char} {s : Severity}

/-! ## Parentheses -/

/-- Whether a text is what the first parentheses of a label hold, up to the
first that closes them. -/
def InParentheses (inner label : List Char) : Prop :=
  ∃ before after, label = before ++ '(' :: (inner ++ ')' :: after) ∧ '(' ∉ before ∧ ')' ∉ inner

theorem parenthesised_eq_some_iff :
    parenthesised label = some inner ↔ InParentheses inner label := by
  simp only [parenthesised, Option.bind_eq_bind, Option.bind_eq_some_iff, Prod.exists,
    splitOnce_eq_some_iff, InParentheses]
  constructor
  · rintro ⟨before, rest, ⟨rfl, hopen⟩, inner', after, ⟨rfl, hclose⟩, h⟩
    obtain rfl : inner' = inner := Option.some.inj h
    exact ⟨before, after, rfl, hopen, hclose⟩
  · rintro ⟨before, after, rfl, hopen, hclose⟩
    exact ⟨before, _, ⟨rfl, hopen⟩, inner, after, ⟨rfl, hclose⟩, rfl⟩

/-- White space around a label is not in its parentheses. -/
theorem parenthesised_pad {w₁ w₂ : List Char} (h₁ : AllBlank w₁) (h₂ : AllBlank w₂)
    (label : List Char) : parenthesised (w₁ ++ label ++ w₂) = parenthesised label := by
  have hopen : '(' ∉ w₁ := h₁.not_mem rfl
  have hopen' : '(' ∉ w₂ := h₂.not_mem rfl
  have hclose : ')' ∉ w₂ := h₂.not_mem rfl
  rw [parenthesised, splitOnce_append_right hopen', splitOnce_append_left hopen, parenthesised]
  cases splitOnce '(' label with
  | none => rfl
  | some cut =>
    obtain ⟨before, rest⟩ := cut
    simp only [Option.map_some, Option.bind_eq_bind, Option.bind_some]
    rw [splitOnce_append_right hclose]
    cases splitOnce ')' rest <;> rfl

theorem parenthesised_trim (label : List Char) :
    parenthesised (trim label) = parenthesised label := by
  obtain ⟨w₁, w₂, h₁, h₂, hlabel⟩ := exists_trim label
  have hpad := parenthesised_pad h₁ h₂ (trim label)
  rw [← hlabel] at hpad
  exact hpad.symm

/-! ## Words and scores -/

/-- The characters of the word for a band. -/
def letters (s : Severity) : List Char := (Keyword.word s).toList

theorem ofWord?_ofList_iff {cs : List Char} :
    Keyword.ofWord? (String.ofList cs) = some s ↔ cs = s.letters := by
  rw [Keyword.ofWord?_eq_some_iff]
  constructor
  · intro h
    rw [letters, h, String.toList_ofList]
  · rintro rfl
    rw [letters, String.ofList_toList]

theorem letters_injective {a b : Severity} (h : a.letters = b.letters) : a = b :=
  Keyword.word_injective a b (String.toList_inj.1 h)

/-- The words have no white space around them. -/
theorem isTrimmed_letters (s : Severity) : IsTrimmed s.letters := by
  cases s <;> exact ⟨by decide, by decide⟩

theorem close_not_mem_letters (s : Severity) : ')' ∉ s.letters := by
  cases s <;> decide

/-- No word is a numeral. -/
theorem read?_letters (s : Severity) : Binary64.read? s.letters = Option.none := by
  cases s <;> decide

/-- What is closed in the first parentheses decides alone. -/
theorem ofLabel?_of_inParentheses (h : InParentheses inner label) :
    ofLabel? label = some s ↔ trim inner = s.letters := by
  have hinner : parenthesised (trim label) = some inner := by
    rw [parenthesised_trim, parenthesised_eq_some_iff]
    exact h
  rw [ofLabel?, hinner]
  exact ofWord?_ofList_iff

/-- Where nothing is, the label is a word or a score. -/
theorem ofLabel?_of_not_inParentheses (h : ∀ inner, ¬ InParentheses inner label) :
    ofLabel? label = some s ↔ trim label = s.letters ∨
      ∃ x, Binary64.read? (trim label) = some x ∧ ofScore x = s := by
  have hinner : parenthesised (trim label) = Option.none := by
    rw [parenthesised_trim, Option.eq_none_iff_forall_ne_some]
    intro inner hinner
    exact h inner (parenthesised_eq_some_iff.1 hinner)
  rw [ofLabel?, hinner]
  cases hword : (Keyword.ofWord? (String.ofList (trim label)) : Option Severity) with
  | some a =>
    have ha : trim label = a.letters := ofWord?_ofList_iff.1 hword
    rw [ha, read?_letters]
    constructor
    · intro h
      exact .inl (congrArg letters (Option.some.inj h))
    · intro h
      rcases h with h | ⟨x, hx, -⟩
      · rw [letters_injective h]
      · cases hx
  | none =>
    have hnot : trim label ≠ s.letters := by
      intro h
      rw [ofWord?_ofList_iff.2 h] at hword
      cases hword
    simp only [hnot, false_or]
    exact Option.map_eq_some_iff

/-! ## All labels -/

/-- How labels are read. White space around a label makes no difference. A
word in the first parentheses, with white space around it or not, decides,
whatever stands before and after; anything else that is closed there says
nothing. Where nothing is closed there, the label is a word or a score, with
white space around it or not. What is trimmed off a text is all of the white
space at its ends, and nothing else. -/
theorem ofLabel?_reads :
    (∀ label w₁ w₂ : List Char, AllBlank w₁ → AllBlank w₂ →
      ofLabel? (w₁ ++ label ++ w₂) = ofLabel? label) ∧
    (∀ (s : Severity) (p w₁ w₂ q : List Char), '(' ∉ p → AllBlank w₁ → AllBlank w₂ →
      ofLabel? (p ++ '(' :: (w₁ ++ s.letters ++ w₂ ++ ')' :: q)) = some s) ∧
    (∀ (label inner : List Char) (s : Severity), InParentheses inner label →
      (ofLabel? label = some s ↔ trim inner = s.letters)) ∧
    (∀ (label : List Char) (s : Severity), (∀ inner, ¬ InParentheses inner label) →
      (ofLabel? label = some s ↔ trim label = s.letters ∨
        ∃ x, Binary64.read? (trim label) = some x ∧ ofScore x = s)) ∧
    ∀ cs, IsTrimmed (trim cs) ∧
      ∃ w₁ w₂, AllBlank w₁ ∧ AllBlank w₂ ∧ cs = w₁ ++ trim cs ++ w₂ := by
  refine ⟨?_, ?_, ?_, ?_, fun cs => ⟨isTrimmed_trim cs, exists_trim cs⟩⟩
  · intro label w₁ w₂ h₁ h₂
    rw [ofLabel?, trim_pad h₁ h₂, ofLabel?]
  · intro s p w₁ w₂ q hp h₁ h₂
    have hclose : ')' ∉ w₁ ++ s.letters ++ w₂ := by
      simp only [List.mem_append, not_or]
      exact ⟨⟨h₁.not_mem rfl, close_not_mem_letters s⟩, h₂.not_mem rfl⟩
    rw [ofLabel?_of_inParentheses ⟨p, q, rfl, hp, hclose⟩, trim_pad h₁ h₂]
    exact trim_eq_self (isTrimmed_letters s)
  · intro label inner s h
    exact ofLabel?_of_inParentheses h
  · intro label s h
    exact ofLabel?_of_not_inParentheses h

/-- A low word with ideographic white space after a critical score, a text
that is no word before one that is, and a score without parentheses. -/
theorem ofLabel?_reads_contradicting :
    ofLabel? (['\u00a0'] ++ (['9', '.', '8', ' '] ++
      '(' :: (['\u3000'] ++ low.letters ++ ['\t'] ++ ')' :: [')'])) ++ ['\n']) = some low ∧
    ofLabel? ['6', '(', 'n', '/', 'a', ')', '(', 'l', 'o', 'w', ')'] = Option.none ∧
    ofLabel? [' ', '7', '.', '5', ')', '('] = Option.none ∧
    ofLabel? [' ', '7', '.', '5', '\t'] = some high := by
  obtain ⟨hpad, hword, hinside, hplain, -⟩ := ofLabel?_reads
  have hopen (label : List Char) (h : parenthesised label = Option.none) :
      ∀ inner, ¬ InParentheses inner label := by
    intro inner hinner
    rw [parenthesised_eq_some_iff.2 hinner] at h
    cases h
  refine ⟨?_, ?_, ?_, ?_⟩
  · rw [hpad _ _ _ (by decide) (by decide)]
    exact hword low _ _ _ _ (by decide) (by decide) (by decide)
  · rw [Option.eq_none_iff_forall_ne_some]
    intro s hs
    have hinner : InParentheses ['n', '/', 'a']
        ['6', '(', 'n', '/', 'a', ')', '(', 'l', 'o', 'w', ')'] :=
      ⟨['6'], ['(', 'l', 'o', 'w', ')'], rfl, by decide, by decide⟩
    have hna := (hinside _ _ s hinner).1 hs
    cases s <;> exact absurd hna (by decide)
  · rw [Option.eq_none_iff_forall_ne_some]
    intro s hs
    have hread : Binary64.read? (trim [' ', '7', '.', '5', ')', '(']) = Option.none := by decide
    rcases (hplain _ s (hopen _ (by decide))).1 hs with h | ⟨x, hx, -⟩
    · cases s <;> exact absurd h (by decide)
    · rw [hread] at hx
      cases hx
  · have hread : (Binary64.read? (trim [' ', '7', '.', '5', '\t'])).map ofScore = some high := by
      decide +kernel
    exact (hplain _ high (hopen _ (by decide))).2 (.inr (Option.map_eq_some_iff.1 hread))

end Policy.Severity
end AuditSettings
