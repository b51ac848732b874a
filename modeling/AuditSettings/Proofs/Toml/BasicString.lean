/-
AuditSettings.Proofs.Toml.BasicString — strings in double quotes, written
and read back.

`basicText` writes any string between double quotes: the quote and the
backslash after a backslash, every control character by its number, and
anything else as itself. `isWord_basicText` says that this is one token
before whatever is no quote, and `string_basicText` that the token is refused
for no character of it and reads as the string it was written for.
-/
import AuditSettings.Proofs.Toml.Row
import AuditSettings.Toml.Scalar

namespace AuditSettings.Toml

open AuditSettings.Text AuditSettings.Number

/-! ## Writing -/

/-- The number of a character below U+0100, in four hexadecimal digits. -/
def shortEscape (c : Char) : List Char :=
  ['\\', 'u', '0', '0', Nat.digitChar (c.toNat / 16), Nat.digitChar (c.toNat % 16)]

/-- How a character is written in a string in double quotes. -/
def basicChar (c : Char) : List Char :=
  if c = '"' then ['\\', '"']
  else if c = '\\' then ['\\', '\\']
  else if isControl c then shortEscape c
  else [c]

/-- A string in double quotes. -/
def basicText (s : String) : List Char := '"' :: (s.toList.flatMap basicChar ++ ['"'])

/-! ## The digits of an escape -/

theorem toNat_lt_of_isControl {c : Char} (h : isControl c = true) : c.toNat < 160 := by
  simp only [isControl, Bool.or_eq_true, Bool.and_eq_true, decide_eq_true_eq] at h
  omega

/-- Whether a character stands for itself in a string in double quotes. -/
def isPlain (c : Char) : Bool := c ≠ '"' && c ≠ '\\' && !refusedInBasic c

theorem digitChar_of_lt : ∀ d < 16,
    isHexDigit (Nat.digitChar d) = true ∧ digitValue (Nat.digitChar d) = d ∧
      isPlain (Nat.digitChar d) = true := by
  decide

theorem isPlain_iff {c : Char} :
    isPlain c = true ↔ c ≠ '"' ∧ c ≠ '\\' ∧ refusedInBasic c = false := by
  simp [isPlain, and_assoc]

theorem codePoint?_eq_some {count : Nat} {cs : List Char} {c : Char}
    (hlength : (cs.take count).length = count) (hall : (cs.take count).all isHexDigit = true)
    (hn : ofDigits 16 (cs.take count) = c.toNat) : codePoint? count cs = some c := by
  unfold codePoint?
  rw [if_pos (by simp only [hlength, hall, decide_true, Bool.and_self])]
  generalize ofDigits 16 (cs.take count) = n at hn ⊢
  subst hn
  exact dif_pos c.valid

/-- The digits of a control character are read as that character. -/
theorem codePoint?_digits {c : Char} (h : isControl c = true) (rest : List Char) :
    codePoint? 4 ('0' :: '0' :: Nat.digitChar (c.toNat / 16) :: Nat.digitChar (c.toNat % 16) :: rest) =
      some c := by
  have hlt := toNat_lt_of_isControl h
  obtain ⟨hx₁, hv₁, -⟩ := digitChar_of_lt (c.toNat / 16) (by omega)
  obtain ⟨hx₂, hv₂, -⟩ := digitChar_of_lt (c.toNat % 16) (by omega)
  have hz : isHexDigit '0' = true ∧ digitValue '0' = 0 := by decide
  refine codePoint?_eq_some rfl ?_ ?_
  · simp only [List.take_succ_cons, List.take_zero, List.all_cons, List.all_nil, hx₁, hx₂, hz,
      Bool.and_self]
  · simp only [List.take_succ_cons, List.take_zero, ofDigits, List.foldl_cons, List.foldl_nil, hz,
      hv₁, hv₂]
    omega

/-- A character is written in one of three ways: as itself, as one
character after a backslash, or by its number. -/
theorem basicChar_cases (c : Char) :
    isPlain c = true ∧ basicChar c = [c] ∨
      (c = '"' ∨ c = '\\') ∧ basicChar c = ['\\', c] ∨
      isControl c = true ∧ basicChar c = shortEscape c := by
  unfold basicChar
  split
  · next h => simp [h]
  · next hq =>
    split
    · next h => simp [h]
    · next hb =>
      split
      · next h => exact .inr (.inr ⟨h, rfl⟩)
      · next h =>
        refine .inl ⟨isPlain_iff.2 ⟨hq, hb, ?_⟩, rfl⟩
        simp only [isControl, refusedInBasic, Bool.or_eq_true, Bool.and_eq_true, decide_eq_true_eq,
          not_or, not_and, Bool.or_eq_false_iff, Bool.and_eq_false_iff, decide_eq_false_iff_not] at h ⊢
        omega

/-! ## One token -/

theorem basicClose?_plain {c : Char} (h : isPlain c = true) (rest : List Char) :
    basicClose? false (c :: rest) = (basicClose? false rest).map (· + 1) := by
  obtain ⟨hq, hb, -⟩ := isPlain_iff.1 h
  simp [basicClose?, hq, hb]

theorem basicClose?_escaped (c : Char) (rest : List Char) :
    basicClose? false ('\\' :: c :: rest) = (basicClose? false rest).map (· + 2) := by
  simp only [basicClose?, Option.map_map, Bool.not_true, Bool.and_false, Bool.not_false,
    Bool.and_true, Bool.false_eq_true, if_false, decide_true, Char.reduceEq, decide_false]
  rfl

/-- The quote that closes a string is not found inside a written
character. -/
theorem basicClose?_basicChar (c : Char) (rest : List Char) :
    basicClose? false (basicChar c ++ rest) =
      (basicClose? false rest).map (· + (basicChar c).length) := by
  rcases basicChar_cases c with ⟨hp, hc⟩ | ⟨-, hc⟩ | ⟨hk, hc⟩
  · rw [hc]
    exact basicClose?_plain hp rest
  · rw [hc]
    exact basicClose?_escaped c rest
  · have hlt := toNat_lt_of_isControl hk
    obtain ⟨-, -, h₁⟩ := digitChar_of_lt (c.toNat / 16) (by omega)
    obtain ⟨-, -, h₂⟩ := digitChar_of_lt (c.toNat % 16) (by omega)
    have hz : isPlain '0' = true := by decide
    rw [hc, shortEscape]
    simp only [List.cons_append, List.nil_append]
    rw [basicClose?_escaped, basicClose?_plain hz, basicClose?_plain hz, basicClose?_plain h₁,
      basicClose?_plain h₂]
    simp only [Option.map_map]
    rfl

theorem basicClose?_flatMap_basicChar (rest : List Char) : ∀ cs : List Char,
    basicClose? false (cs.flatMap basicChar ++ '"' :: rest) =
      some ((cs.flatMap basicChar).length + 1)
  | [] => rfl
  | c :: cs => by
      rw [List.flatMap_cons, List.append_assoc, basicClose?_basicChar,
        basicClose?_flatMap_basicChar rest cs]
      simp
      omega

/-- A written character never begins with a quote. -/
theorem head?_basicChar (c : Char) : ∃ d ds, basicChar c = d :: ds ∧ d ≠ '"' := by
  rcases basicChar_cases c with ⟨hp, hc⟩ | ⟨-, hc⟩ | ⟨-, hc⟩
  · exact ⟨c, [], hc, (isPlain_iff.1 hp).1⟩
  · exact ⟨'\\', [c], hc, by decide⟩
  · exact ⟨_, _, hc, by decide⟩

/-- A quote that is not followed by two more begins a string that ends at
the next quote no backslash escapes. -/
theorem lexeme_quote {cs : List Char} {n : Nat} (h : basicClose? false cs = some n)
    (hne : ∀ ds, cs ≠ '"' :: '"' :: ds) : lexeme ('"' :: cs) = (.basic, n + 1) := by
  unfold lexeme
  split
  case h_1 ds heq => exact absurd (List.cons.inj heq).2 (hne ds)
  case h_3 ds heq =>
    obtain ⟨-, rfl⟩ := List.cons.inj heq
    rw [h]
  all_goals simp_all

/-- A written string is one token before anything but a quote: then it
would be two quotes of three. -/
theorem isWord_basicText (s : String) : IsWord (.basic, basicText s) := by
  refine ⟨by simp [basicText], fun rest hrest => ?_⟩
  have hclose := basicClose?_flatMap_basicChar rest s.toList
  have htext : basicText s ++ rest = '"' :: (s.toList.flatMap basicChar ++ '"' :: rest) := by
    simp [basicText]
  rw [htext, lexeme_quote hclose]
  · simp [basicText]
  · intro ds hds
    cases hs : s.toList with
    | nil =>
      rw [hs] at hds
      simp only [List.flatMap_nil, List.nil_append, List.cons.injEq, true_and] at hds
      have := hrest '"' (by simp [hds])
      simp [Kind.endsBefore] at this
    | cons c cs =>
      obtain ⟨d, es, hc, hd⟩ := head?_basicChar c
      rw [hs, List.flatMap_cons, hc] at hds
      exact hd (List.cons.inj hds).1

/-! ## Reading back -/

theorem unescape_basicChar (l : Location) (c : Char) (rest : List Char) :
    unescape l 0 (basicChar c ++ rest) =
      (unescape (l.after (basicChar c)) 0 rest).map (c :: ·) := by
  rcases basicChar_cases c with ⟨hp, hc⟩ | ⟨rfl | rfl, hc⟩ | ⟨hk, hc⟩
  · rw [hc, List.singleton_append, unescape, if_neg (isPlain_iff.1 hp).2.1]
    rfl
  · rw [hc]
    rfl
  · rw [hc]
    rfl
  · rw [hc, shortEscape]
    simp only [List.cons_append, List.nil_append]
    rw [unescape, if_pos rfl, escape?, codePoint?_digits hk]
    rfl

/-- Written characters are read back one by one. -/
theorem unescape_flatMap_basicChar : ∀ (cs : List Char) (l : Location),
    unescape l 0 (cs.flatMap basicChar) = .ok cs
  | [], _ => rfl
  | c :: cs, l => by
      rw [List.flatMap_cons, unescape_basicChar, unescape_flatMap_basicChar cs]
      rfl

theorem refusedInBasic_basicText {s : String} {c : Char} (h : c ∈ basicText s) :
    refusedInBasic c = false := by
  simp only [basicText, List.mem_cons, List.mem_append, List.mem_flatMap, List.not_mem_nil,
    or_false] at h
  rcases h with rfl | ⟨d, -, h⟩ | rfl
  · decide
  · rcases basicChar_cases d with ⟨hp, hd⟩ | ⟨hq, hd⟩ | ⟨hk, hd⟩
    · rw [hd, List.mem_singleton] at h
      subst h
      exact (isPlain_iff.1 hp).2.2
    · rw [hd] at h
      simp only [List.mem_cons, List.not_mem_nil, or_false] at h
      rcases h with rfl | rfl
      · decide
      · rcases hq with rfl | rfl <;> decide
    · have hlt := toNat_lt_of_isControl hk
      obtain ⟨-, -, h₁⟩ := digitChar_of_lt (d.toNat / 16) (by omega)
      obtain ⟨-, -, h₂⟩ := digitChar_of_lt (d.toNat % 16) (by omega)
      simp only [hd, shortEscape, List.mem_cons, List.not_mem_nil, or_false] at h
      rcases h with rfl | rfl | rfl | rfl | rfl | rfl
      all_goals first | decide | exact (isPlain_iff.1 h₁).2.2 | exact (isPlain_iff.1 h₂).2.2
  · decide

/-- A written string reads as the string it was written for. -/
theorem string_basicText (s : String) (l : Location) :
    Token.string ⟨.basic, basicText s, l⟩ = .ok s := by
  have hrefuse : Token.refuse ⟨.basic, basicText s, l⟩ refusedInBasic .stringCharacter = .ok () := by
    have : (basicText s).findIdx? refusedInBasic = none :=
      List.findIdx?_eq_none_iff.2 fun c hc => refusedInBasic_basicText hc
    simp [Token.refuse, this]
  have hinner : Token.inner ⟨.basic, basicText s, l⟩ 1 = s.toList.flatMap basicChar := by
    simp [Token.inner, basicText]
  unfold Token.string
  simp only [hrefuse, hinner, unescape_flatMap_basicChar]
  simp [bind, Except.bind, pure, Except.pure]

end AuditSettings.Toml
