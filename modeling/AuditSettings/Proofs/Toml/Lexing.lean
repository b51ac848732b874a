/-
AuditSettings.Proofs.Toml.Lexing — the words that a settings document needs.

Each section shows for one kind of word that its characters make one token
before anything they may stand before: the single characters of the
grammar, white space, truth values, bare names, and strings in double
quotes. A bare name is a word of the characters of bare keys that begins
with a letter and is none of the four words that mean a value.
-/
import AuditSettings.Proofs.Toml.Row
import AuditSettings.Text.Split

namespace AuditSettings.Toml

open AuditSettings.Text

/-! ## The longest reading -/

theorem foldl_longest_of_le {best : Kind × Nat} : ∀ {rs : List (Kind × Nat)},
    (∀ r ∈ rs, r.2 ≤ best.2) →
    rs.foldl (fun best r => if best.2 < r.2 then r else best) best = best
  | [], _ => rfl
  | r :: rs, h => by
      have hr : ¬ best.2 < r.2 := by
        have := h r List.mem_cons_self
        omega
      rw [List.foldl_cons, if_neg hr]
      exact foldl_longest_of_le fun x hx => h x (List.mem_cons_of_mem _ hx)

theorem foldl_longest_lt {n : Nat} : ∀ {rs : List (Kind × Nat)} {best : Kind × Nat},
    best.2 < n → (∀ r ∈ rs, r.2 < n) →
    (rs.foldl (fun best r => if best.2 < r.2 then r else best) best).2 < n
  | [], _, hb, _ => hb
  | r :: rs, best, hb, h => by
      have hr := h r List.mem_cons_self
      rw [List.foldl_cons]
      refine foldl_longest_lt ?_ fun x hx => h x (List.mem_cons_of_mem _ hx)
      split
      · exact hr
      · exact hb

/-- A reading wins when those before it are shorter and those after it no
longer. -/
theorem longest_eq (before after : List (Kind × Nat)) {k : Kind} {n : Nat} (hn : 0 < n)
    (hb : ∀ r ∈ before, r.2 < n) (ha : ∀ r ∈ after, r.2 ≤ n) :
    longest (before ++ (k, n) :: after) = (k, n) := by
  rw [longest, List.foldl_append, List.foldl_cons, if_pos (foldl_longest_lt hn hb)]
  exact foldl_longest_of_le ha

/-- Where no quote stands at the front, the longest reading is the token. -/
theorem lexeme_of_longest {k : Kind} {w rest : List Char} (hw : w ≠ [])
    (hb : ∀ c ∈ w.head?, c ≠ '"' ∧ c ≠ '\'')
    (hl : longest (readings (w ++ rest)) = (k, w.length)) : lexeme (w ++ rest) = (k, w.length) := by
  obtain ⟨c, w, rfl⟩ := List.exists_cons_of_ne_nil hw
  have hq := hb c rfl
  unfold lexeme
  split
  case h_5 =>
    rw [hl]
    rfl
  all_goals simp_all

/-! ## Readings that do not apply -/

theorem twoDigits?_of_not_isDigit {a b : Char} (h : a.isDigit = false) : twoDigits? a b = none := by
  simp [twoDigits?, h]

/-- Days and times begin with a digit. -/
theorem datetimeLength_of_not_isDigit {c : Char} {cs : List Char} (h : c.isDigit = false) :
    datetimeLength (c :: cs) = 0 := by
  have hd : dateLength (c :: cs) = 0 := by
    unfold dateLength
    split
    · next heq =>
      simp only [List.cons.injEq] at heq
      simp [← heq.1, twoDigits?_of_not_isDigit h]
    · rfl
  have ht : timeLength (c :: cs) = 0 := by
    unfold timeLength
    split
    · next heq =>
      simp only [List.cons.injEq] at heq
      simp [← heq.1, twoDigits?_of_not_isDigit h]
    · rfl
  simp [datetimeLength, hd, ht]

theorem radixLength_of_ne_zero {letter c : Char} {digit : Char → Bool} {cs : List Char}
    (h : c ≠ '0') : radixLength letter digit (c :: cs) = 0 := by
  unfold radixLength
  split
  · next heq => simp_all
  · rfl

/-- Whole numbers begin with a sign, a digit or an underscore. -/
theorem integerLength_of_not {c : Char} {cs : List Char} (hd : c.isDigit = false) (hu : c ≠ '_')
    (hp : c ≠ '+') (hm : c ≠ '-') : integerLength (c :: cs) = 0 := by
  simp [integerLength, signLength, digitsLength, hd, hu, hp, hm]

/-- Without a number or a sign in front, only two words read as one. -/
theorem floatLength_of_not {c : Char} {cs : List Char} (hd : c.isDigit = false) (hu : c ≠ '_')
    (hp : c ≠ '+') (hm : c ≠ '-') :
    floatLength (c :: cs) = wordLength [['n', 'a', 'n'], ['i', 'n', 'f']] (c :: cs) := by
  have hs : signLength (c :: cs) = 0 := by simp [signLength, hp, hm]
  unfold floatLength
  simp only [hs, integerLength_of_not hd hu hp hm, List.drop_zero, Nat.zero_add]
  split
  · rfl
  · next h => simp only [if_true]; omega

/-! ## Single characters -/

/-- The characters that the grammar is made of. -/
def markKind? : Char → Option Kind
  | '.' => some .dot
  | ',' => some .comma
  | '=' => some .equals
  | '[' => some .bracketOpen
  | ']' => some .bracketClose
  | '\x7b' => some .braceOpen
  | '\x7d' => some .braceClose
  | _ => none

theorem isWord_mark {c : Char} {k : Kind} (h : markKind? c = some k) : IsWord (k, [c]) := by
  refine ⟨by simp, fun rest _ => ?_⟩
  have hl : longest (readings (c :: rest)) = (k, 1) := by
    unfold markKind? at h
    split at h <;> cases h <;>
      simp [longest, readings, blankLength, newlineLength, commentLength,
        datetimeLength_of_not_isDigit, booleanLength, wordLength, radixLength, integerLength_of_not,
        floatLength_of_not, bareLength, isBare, globLength, charLength]
  have hb : c ≠ '"' := by rintro rfl; simp [markKind?] at h
  have hq : c ≠ '\'' := by rintro rfl; simp [markKind?] at h
  exact lexeme_of_longest (by simp) (by simp [hb, hq]) hl

/-! ## White space -/

theorem isWord_space : IsWord (.blank, [' ']) := by
  refine ⟨by simp, fun rest hrest => ?_⟩
  have hb : rest.takeWhile (fun c => c = ' ' || c = '\t') = [] := by
    cases rest with
    | nil => rfl
    | cons c rest =>
      have := hrest c rfl
      simp only [Kind.endsBefore, Bool.not_eq_true', Bool.or_eq_false_iff, decide_eq_false_iff_not]
        at this
      simp [this]
  have hl : longest (readings (' ' :: rest)) = (.blank, 1) := by
    refine longest_eq [] _ (by simp [blankLength, hb]) (by simp) ?_ |>.trans ?_
    · simp [newlineLength, commentLength, datetimeLength_of_not_isDigit, booleanLength, wordLength,
        radixLength, integerLength_of_not, floatLength_of_not, bareLength, isBare, globLength,
        charLength]
    · simp [blankLength, hb]
  exact lexeme_of_longest (by simp) (by simp) hl

theorem isWord_newline : IsWord (.newline, ['\n']) := by
  refine ⟨by simp, fun rest hrest => ?_⟩
  have hn : newlineLength rest = 0 := by
    cases rest with
    | nil => rfl
    | cons c rest =>
      have := hrest c rfl
      simp only [Kind.endsBefore, Bool.not_eq_true', Bool.or_eq_false_iff, decide_eq_false_iff_not]
        at this
      unfold newlineLength
      split <;> simp_all
  have hl : longest (readings ('\n' :: rest)) = (.newline, 1) := by
    simp [longest, readings, blankLength, newlineLength, hn, commentLength,
      datetimeLength_of_not_isDigit, booleanLength, wordLength, radixLength, integerLength_of_not,
      floatLength_of_not, bareLength, isBare, globLength, charLength]
  exact lexeme_of_longest (by simp) (by simp) hl

/-! ## Truth values and bare names -/

/-- The words that are read as values though they are made of the
characters of bare keys. -/
def valueWords : List (List Char) :=
  [['t', 'r', 'u', 'e'], ['f', 'a', 'l', 's', 'e'], ['n', 'a', 'n'], ['i', 'n', 'f']]

theorem isBare_of_mem_valueWords {w : List Char} (hw : w ∈ valueWords) :
    ∀ c ∈ w, isBare c = true := by
  have hall : valueWords.all (fun w => w.all isBare) = true := by decide
  exact List.all_eq_true.1 (List.all_eq_true.1 hall w hw)

/-- Characters that write a bare key and nothing else: they begin with a
letter and are no word for a value. -/
def IsBareName (cs : List Char) : Prop :=
  cs.head?.any Char.isAlpha = true ∧ cs.all isBare = true ∧ cs ∉ valueWords

instance (cs : List Char) : Decidable (IsBareName cs) :=
  inferInstanceAs (Decidable (_ ∧ _ ∧ _))

/-- A bare name begins with a letter. -/
theorem IsBareName.exists_cons {cs : List Char} (h : IsBareName cs) :
    ∃ d ds, cs = d :: ds ∧ d.isAlpha = true := by
  cases cs with
  | nil => simp [IsBareName] at h
  | cons d ds => exact ⟨d, ds, rfl, h.1⟩

/-- A word of a list that stands at the front of a text ends no later than
a longer name there, unless it is that name. -/
theorem wordLength_lt {words : List (List Char)} {w rest : List Char} (hne : w ≠ [])
    (hwords : ∀ v ∈ words, ∀ c ∈ v, isBare c = true) (hw : w ∉ words)
    (hrest : ∀ c ∈ rest.head?, isBare c = false) : wordLength words (w ++ rest) < w.length := by
  unfold wordLength
  split
  · next v hv =>
    have hmem : v ∈ words := List.mem_of_find?_eq_some hv
    have hpre : v <+: w ++ rest := by simpa using List.find?_some hv
    rcases List.prefix_or_prefix_of_prefix hpre (List.prefix_append w rest) with h | ⟨u, rfl⟩
    · rcases Nat.lt_or_ge v.length w.length with hlt | hge
      · exact hlt
      · exact absurd (h.eq_of_length_le hge ▸ hmem) hw
    · cases u with
      | nil => exact absurd (by simpa using hmem) hw
      | cons c u =>
        obtain ⟨r, rfl⟩ := (List.prefix_append_right_inj w).1 hpre
        have hb := hwords _ hmem c (by simp)
        have hs := hrest c rfl
        rw [hb] at hs
        cases hs
  · exact List.length_pos_iff.2 hne

/-- A letter begins no number and no mark. -/
theorem ne_of_isAlpha {c d : Char} (h : c.isAlpha = true) (hd : d.isAlpha = false) : c ≠ d := by
  rintro rfl
  rw [h] at hd
  cases hd

theorem isDigit_of_isAlpha {c : Char} (h : c.isAlpha = true) : c.isDigit = false := by
  unfold Char.isAlpha Char.isUpper Char.isLower at h
  unfold Char.isDigit
  simp only [Bool.or_eq_true, Bool.and_eq_true, decide_eq_true_eq, Bool.and_eq_false_iff,
    decide_eq_false_iff_not, UInt32.le_iff_toNat_le] at h ⊢
  have : '0'.val.toNat = 48 := rfl
  have : '9'.val.toNat = 57 := rfl
  have : 'A'.val.toNat = 65 := rfl
  have : 'Z'.val.toNat = 90 := rfl
  have : 'a'.val.toNat = 97 := rfl
  have : 'z'.val.toNat = 122 := rfl
  omega

theorem isWord_bare {w : List Char} (hw : IsBareName w) : IsWord (.bare, w) := by
  obtain ⟨c, cs, rfl, hc⟩ := hw.exists_cons
  obtain ⟨-, hall, hvalue⟩ := hw
  have hbare : ∀ d ∈ c :: cs, isBare d = true := List.all_eq_true.1 hall
  have hne : c :: cs ≠ [] := List.cons_ne_nil c cs
  refine ⟨hne, fun rest hrest => ?_⟩
  have hstop : ∀ d ∈ rest.head?, isBare d = false ∧ d ≠ '*' ∧ d ≠ '?' := by
    intro d hd
    simpa [Kind.endsBefore, and_assoc] using hrest d hd
  have hbareLength : bareLength (c :: cs ++ rest) = (c :: cs).length := by
    rw [bareLength, takeWhile_append_of_stop hbare fun d hd => (hstop d hd).1]
  have hglobLength : globLength (c :: cs ++ rest) = (c :: cs).length := by
    rw [globLength, takeWhile_append_of_stop (fun d hd => by simp [hbare d hd])
      fun d hd => by simp [hstop d hd]]
  have hword (words : List (List Char)) (h : words ⊆ valueWords) :
      wordLength words (c :: (cs ++ rest)) < (c :: cs).length :=
    wordLength_lt hne (fun v hv => isBare_of_mem_valueWords (h hv)) (fun hmem => hvalue (h hmem))
      fun d hd => (hstop d hd).1
  have hd := isDigit_of_isAlpha hc
  have hne' {d : Char} (h : d.isAlpha = false) : c ≠ d := ne_of_isAlpha hc h
  have hl : longest (readings (c :: cs ++ rest)) = (.bare, (c :: cs).length) := by
    rw [readings, hbareLength, hglobLength]
    refine longest_eq [_, _, _, _, _, _, _, _, _, _] [_, _, _, _, _, _, _, _] (by simp) ?_ ?_
    · have hbool := hword [['t', 'r', 'u', 'e'], ['f', 'a', 'l', 's', 'e']] (by decide)
      have hfloat := hword [['n', 'a', 'n'], ['i', 'n', 'f']] (by decide)
      simp [blankLength, newlineLength, commentLength, datetimeLength_of_not_isDigit hd,
        booleanLength, radixLength_of_ne_zero, integerLength_of_not hd, floatLength_of_not hd, hne']
      simp only [List.length_cons] at hbool hfloat
      omega
    · simp [charLength, hne']
  exact lexeme_of_longest hne (by simp [hne']) hl

/-- The words of the two truth values. -/
def booleanWord (b : Bool) : List Char :=
  if b then ['t', 'r', 'u', 'e'] else ['f', 'a', 'l', 's', 'e']

/-- A truth value is read as one though it is also a bare key, since it
stands before bare keys among the readings. -/
theorem isWord_boolean (b : Bool) : IsWord (.boolean, booleanWord b) := by
  refine ⟨by cases b <;> simp [booleanWord], fun rest hrest => ?_⟩
  have hstop : ∀ d ∈ rest.head?, isBare d = false ∧ d ≠ '*' ∧ d ≠ '?' := by
    intro d hd
    simpa [Kind.endsBefore, and_assoc] using hrest d hd
  have hbare : ∀ d ∈ booleanWord b, isBare d = true :=
    isBare_of_mem_valueWords (by cases b <;> decide)
  have hbareLength : bareLength (booleanWord b ++ rest) = (booleanWord b).length := by
    rw [bareLength, takeWhile_append_of_stop hbare fun d hd => (hstop d hd).1]
  have hglobLength : globLength (booleanWord b ++ rest) = (booleanWord b).length := by
    rw [globLength, takeWhile_append_of_stop (fun d hd => by simp [hbare d hd])
      fun d hd => by simp [hstop d hd]]
  have hl : longest (readings (booleanWord b ++ rest)) = (.boolean, (booleanWord b).length) := by
    rw [readings, hbareLength, hglobLength]
    cases b <;>
      simp [longest, booleanWord, blankLength, newlineLength, commentLength,
        datetimeLength_of_not_isDigit, booleanLength, wordLength, radixLength, integerLength_of_not,
        floatLength_of_not, charLength]
  exact lexeme_of_longest (by cases b <;> simp [booleanWord])
    (by cases b <;> simp [booleanWord]) hl

end AuditSettings.Toml
