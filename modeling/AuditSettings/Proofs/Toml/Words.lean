/-
AuditSettings.Proofs.Toml.Words — the words of a text that goes on after a
line break.

A text is cut into the same words wherever it begins, so its words are a
function of its characters alone. When a text is cut into words of which none
is stray, it may go on after a line break, and every word up to there stays
what it is (`lexeme_append_break`): all readings but that of a line break stop
there, and a string that was closed stays closed. Only where it ends in line
breaks does its last word grow. A bare key before a closing bracket is one
word, whatever other words it may begin with (`IsName.word`).
-/
import AuditSettings.Proofs.Toml.Stops
import AuditSettings.Proofs.Toml.Lexing
import AuditSettings.Proofs.Toml.Order

namespace AuditSettings.Toml

open AuditSettings.Text

/-! ## Words -/

/-- The words of a text. -/
def wordsOf (cs : List Char) : List Word := (Token.scan cs).map Token.word

/-- Where a text begins has no part in how it is cut. -/
theorem map_word_scanFrom (l : Location) (inside : Nat) (cs : List Char) :
    (Token.scanFrom l inside cs).map Token.word =
      (Token.scanFrom .origin inside cs).map Token.word := by
  induction cs generalizing l inside with
  | nil => cases inside <;> rfl
  | cons c cs ih =>
    cases inside with
    | succ inside => rw [Token.scanFrom, Token.scanFrom, ih, ← ih]
    | zero =>
      simp only [Token.scanFrom, List.map_cons, Token.word]
      rw [ih, ← ih (Location.origin.advance c)]

/-- A lexeme at the front of a text is its first word. -/
theorem wordsOf_lexeme {k : Kind} {w rest : List Char} (hw : w ≠ [])
    (h : lexeme (w ++ rest) = (k, w.length)) : wordsOf (w ++ rest) = (k, w) :: wordsOf rest := by
  rw [wordsOf, Token.scan, scanFrom_lexeme _ hw h, List.map_cons, map_word_scanFrom]
  rfl

/-! ## The length of a lexeme -/

theorem newlineLength_le : ∀ cs : List Char, newlineLength cs ≤ cs.length := by
  intro cs
  fun_induction newlineLength cs with
  | case1 cs ih => simpa using ih
  | case2 cs ih => simpa using ih
  | case3 cs => exact Nat.zero_le _

theorem readings_le_length (cs : List Char) : ∀ r ∈ readings cs, r.2 ≤ cs.length := by
  have hn : IsStop '\n' := .inl rfl
  have hmark {mark : Char} (h : mark ≠ '\n') : charLength mark cs ≤ cs.length :=
    (stopsAt_char h).le_length cs
  simp only [readings, List.forall_mem_cons, List.not_mem_nil, false_implies, implies_true, and_true]
  exact ⟨(stopsAt_blank hn).le_length _, newlineLength_le _, (stopsAt_comment (.inl rfl)).le_length _,
    (stopsAt_datetime hn).le_length _, (stopsAt_boolean hn).le_length _,
    (stopsAt_radix hn (by decide) rfl).le_length _, (stopsAt_radix hn (by decide) rfl).le_length _,
    (stopsAt_radix hn (by decide) rfl).le_length _, (stopsAt_integer hn).le_length _,
    (stopsAt_float hn).le_length _, (stopsAt_bare hn).le_length _, (stopsAt_glob hn).le_length _,
    hmark (by decide), hmark (by decide), hmark (by decide), hmark (by decide), hmark (by decide),
    hmark (by decide), hmark (by decide)⟩

theorem longest_le_length (cs : List Char) : (longest (readings cs)).2 ≤ cs.length := by
  have hmem : longest (readings cs) ∈ (Kind.stray, 0) :: readings cs := foldl_longest_mem _ _
  rcases List.mem_cons.1 hmem with h | h
  · rw [h]
    exact Nat.zero_le _
  · exact readings_le_length cs _ h

/-! ## Strings that are closed -/

/-- Which quote closes a string is told by the characters up to it. -/
theorem basicClose?_split {escaped : Bool} {u : List Char} {n : Nat}
    (h : basicClose? escaped u = some n) :
    ∃ w rest, u = w ++ rest ∧ w.length = n ∧ ∀ v, basicClose? escaped (w ++ v) = some n := by
  induction u generalizing escaped n with
  | nil => cases h
  | cons c u ih =>
    rw [basicClose?] at h
    split at h
    · next hc =>
      cases h
      exact ⟨[c], u, rfl, rfl, fun v => if_pos hc⟩
    · next hc =>
      obtain ⟨m, hm, rfl⟩ := Option.map_eq_some_iff.1 h
      obtain ⟨w, rest, rfl, rfl, hclose⟩ := ih hm
      refine ⟨c :: w, rest, rfl, rfl, fun v => ?_⟩
      rw [List.cons_append, basicClose?, if_neg hc, hclose v]
      rfl

theorem literalClose?_split {u : List Char} {n : Nat} (h : literalClose? u = some n) :
    ∃ w rest, u = w ++ rest ∧ w.length = n ∧ ∀ v, literalClose? (w ++ v) = some n := by
  induction u generalizing n with
  | nil => cases h
  | cons c u ih =>
    rw [literalClose?] at h
    split at h
    · next hc =>
      cases h
      exact ⟨[c], u, rfl, rfl, fun v => if_pos hc⟩
    · next hc =>
      obtain ⟨m, hm, rfl⟩ := Option.map_eq_some_iff.1 h
      obtain ⟨w, rest, rfl, rfl, hclose⟩ := ih hm
      refine ⟨c :: w, rest, rfl, rfl, fun v => ?_⟩
      rw [List.cons_append, literalClose?, if_neg hc, hclose v]
      rfl

/-- Which row of quotes closes a string is told by the characters up to its
end and by the next one, which is no quote. -/
theorem tripleClose?_split {quote : Char} {escapes : Bool} {row : Nat} {escaped : Bool}
    {u : List Char} {n : Nat} (h : tripleClose? quote escapes row escaped u = some n) :
    ∃ w rest, u = w ++ rest ∧ w.length = n ∧ rest.head? ≠ some quote ∧
      ∀ v : List Char, v.head? ≠ some quote →
        tripleClose? quote escapes row escaped (w ++ v) = some n := by
  induction u generalizing row escaped n with
  | nil => cases h
  | cons c u ih =>
    -- what is closed behind this character is closed with it in front
    have hbehind {row : Nat} {escaped : Bool}
        (h : (tripleClose? quote escapes row escaped u).map (· + 1) = some n) :
        ∃ w rest, u = w ++ rest ∧ w.length + 1 = n ∧ rest.head? ≠ some quote ∧
          ∀ v : List Char, v.head? ≠ some quote →
            (tripleClose? quote escapes row escaped (w ++ v)).map (· + 1) = some n := by
      obtain ⟨m, hm, rfl⟩ := Option.map_eq_some_iff.1 h
      obtain ⟨w, rest, hu, rfl, hrest, hclose⟩ := ih hm
      exact ⟨w, rest, hu, rfl, hrest, fun v hv => congrArg _ (hclose v hv)⟩
    rw [tripleClose?] at h
    split at h
    · next hescape =>
      obtain ⟨w, rest, rfl, rfl, hrest, hclose⟩ := hbehind h
      refine ⟨c :: w, rest, rfl, rfl, hrest, fun v hv => ?_⟩
      rw [List.cons_append, tripleClose?, if_pos hescape, hclose v hv]
    · next hescape =>
      split at h
      · next hquote =>
        split at h
        · next hrow =>
          simp only at h
          split at h
          · next htwo =>
            cases h
            refine ⟨c :: u.takeWhile (· = quote), u.dropWhile (· = quote),
              by rw [List.cons_append, List.takeWhile_append_dropWhile], rfl, ?_, fun v hv => ?_⟩
            · intro hhead
              have := List.head?_dropWhile_not (· = quote) u
              rw [hhead] at this
              simp at this
            · have hrun : (u.takeWhile (· = quote) ++ v).takeWhile (· = quote) =
                  u.takeWhile (· = quote) := by
                refine takeWhile_append_of_stop (List.all_eq_true.1 List.all_takeWhile) ?_
                intro c hc
                rw [Option.mem_def.1 hc, ne_eq, Option.some_inj] at hv
                exact decide_eq_false hv
              rw [List.cons_append, tripleClose?, if_neg hescape, if_pos hquote, if_pos hrow, hrun]
              exact if_pos htwo
          · cases h
        · next hrow =>
          obtain ⟨w, rest, rfl, rfl, hrest, hclose⟩ := hbehind h
          refine ⟨c :: w, rest, rfl, rfl, hrest, fun v hv => ?_⟩
          rw [List.cons_append, tripleClose?, if_neg hescape, if_pos hquote, if_neg hrow,
            hclose v hv]
      · next hquote =>
        obtain ⟨w, rest, rfl, rfl, hrest, hclose⟩ := hbehind h
        refine ⟨c :: w, rest, rfl, rfl, hrest, fun v hv => ?_⟩
        rw [List.cons_append, tripleClose?, if_neg hescape, if_neg hquote, hclose v hv]

/-! ## Lexemes before a line break -/

theorem lexeme_triple (cs : List Char) : lexeme ('"' :: '"' :: '"' :: cs) =
    match tripleClose? '"' true 0 false cs with
    | some n => (.multiBasic, n + 3)
    | none => (.stray, 3) := rfl

theorem lexeme_literalTriple (cs : List Char) : lexeme ('\'' :: '\'' :: '\'' :: cs) =
    match tripleClose? '\'' false 0 false cs with
    | some n => (.multiLiteral, n + 3)
    | none => (.stray, 3) := rfl

theorem lexeme_basic {cs : List Char} (h : ∀ ds, cs ≠ '"' :: '"' :: ds) : lexeme ('"' :: cs) =
    match basicClose? false cs with
    | some n => (.basic, n + 1)
    | none => (.stray, 1) := by
  unfold lexeme
  split
  case h_1 ds heq => exact absurd (List.cons.inj heq).2 (h ds)
  case h_3 ds heq =>
    obtain ⟨-, rfl⟩ := List.cons.inj heq
    rfl
  all_goals simp_all

theorem lexeme_literal {cs : List Char} (h : ∀ ds, cs ≠ '\'' :: '\'' :: ds) :
    lexeme ('\'' :: cs) =
      match literalClose? cs with
      | some n => (.literal, n + 1)
      | none => (.stray, 1) := by
  unfold lexeme
  split
  case h_2 ds heq => exact absurd (List.cons.inj heq).2 (h ds)
  case h_4 ds heq =>
    obtain ⟨-, rfl⟩ := List.cons.inj heq
    rfl
  all_goals simp_all

/-- Where no quote stands at the front, the longest reading is the lexeme. -/
theorem lexeme_reading {c : Char} {cs : List Char} (hb : c ≠ '"') (hl : c ≠ '\'') :
    lexeme (c :: cs) =
      match longest (readings (c :: cs)) with
      | (_, 0) => (.stray, 1)
      | (kind, n + 1) => (kind, n + 1) := by
  unfold lexeme
  split
  case h_5 => rfl
  all_goals simp_all

/-- A line feed or carriage return begins a line break or nothing. -/
theorem lexeme_lineBreak {c : Char} (hc : c = '\n' ∨ c = '\r') (cs : List Char) :
    lexeme (c :: cs) =
      if 0 < newlineLength (c :: cs) then (.newline, newlineLength (c :: cs)) else (.stray, 1) := by
  have hlong : longest (readings (c :: cs)) =
      if 0 < newlineLength (c :: cs) then (.newline, newlineLength (c :: cs)) else (.stray, 0) := by
    rcases hc with rfl | rfl
    all_goals
      simp [longest, readings, blankLength, commentLength, datetimeLength_of_not_isDigit,
        booleanLength, wordLength, radixLength, integerLength_of_not, floatLength_of_not,
        bareLength, isBare, globLength, charLength]
  rw [lexeme_reading (by rcases hc with rfl | rfl <;> decide)
    (by rcases hc with rfl | rfl <;> decide), hlong]
  cases newlineLength (c :: cs) with
  | zero => rfl
  | succ m => rfl

/-- No reading goes past a line break or a closing bracket, but that a comment
goes past the bracket and a row of line breaks past a line break. -/
theorem readings_append_stop {stop c : Char} (hs : IsStop stop) (hn : c ≠ '\n') (hr : c ≠ '\r')
    (hc : c = '#' → stop = '\n' ∨ stop = '\r') (u v : List Char) :
    readings (c :: (u ++ stop :: v)) = readings (c :: u) := by
  have hbreak (cs : List Char) : newlineLength (c :: cs) = 0 := by
    unfold newlineLength
    split
    · next heq => exact absurd (List.cons.inj heq).1 hn
    · next heq => exact absurd (List.cons.inj heq).1 hr
    · rfl
  have hcomment : commentLength (c :: u ++ stop :: v) = commentLength (c :: u) := by
    by_cases hash : c = '#'
    · rw [(stopsAt_comment (hc hash)).append]
    · simp [commentLength, hash]
  have hradix {letter : Char} {digit : Char → Bool} (hletter : letter ≠ stop)
      (hdigit : digit stop = false) : radixLength letter digit (c :: u ++ stop :: v) =
        radixLength letter digit (c :: u) := (stopsAt_radix hs hletter hdigit).append _ _
  have hmark (mark : Char) : charLength mark (c :: u ++ stop :: v) = charLength mark (c :: u) := rfl
  rw [← List.cons_append]
  unfold readings
  rw [(stopsAt_blank hs).append, hcomment, (stopsAt_datetime hs).append,
    (stopsAt_boolean hs).append, hradix (by rcases hs with rfl | rfl | rfl <;> decide),
    hradix (by rcases hs with rfl | rfl | rfl <;> decide),
    hradix (by rcases hs with rfl | rfl | rfl <;> decide), (stopsAt_integer hs).append,
    (stopsAt_float hs).append, (stopsAt_bare hs).append, (stopsAt_glob hs).append,
    hmark, hmark, hmark, hmark, hmark, hmark, hmark, hbreak, List.cons_append, hbreak]
  all_goals rcases hs with rfl | rfl | rfl <;> rfl

/-- What is in quotes and is no stray character has its closing quotes. -/
theorem closed_of_ne_stray {close? : Option Nat} {quoted k : Kind} {quotes n : Nat}
    (h : (match close? with
      | some m => (quoted, m + quotes)
      | none => (.stray, quotes)) = (k, n)) (hstray : k ≠ .stray) :
    k = quoted ∧ ∃ m, close? = some m ∧ n = m + quotes := by
  cases close? with
  | some m =>
    cases h
    exact ⟨rfl, m, rfl, rfl⟩
  | none =>
    cases h
    exact absurd rfl hstray

/-- A quote that is not followed by two more is not followed by them when its
string goes on otherwise, unless by a quote that was not there. -/
theorem ne_quotes_of_head? {quote : Char} {w rest v : List Char} (hw : w ≠ [])
    (h : ∀ ds, w ++ rest ≠ quote :: quote :: ds)
    (hv : v.head? = some quote → rest.head? = some quote) :
    ∀ ds, w ++ v ≠ quote :: quote :: ds := by
  intro ds heq
  match w, hw, h, heq with
  | [c], _, h, heq =>
    obtain ⟨rfl, rfl⟩ := List.cons.inj heq
    obtain ⟨rest, rfl⟩ := List.head?_eq_some_iff.1 (hv rfl)
    exact h rest rfl
  | c :: d :: w, _, h, heq =>
    obtain ⟨rfl, hrest⟩ := List.cons.inj heq
    obtain ⟨rfl, -⟩ := List.cons.inj hrest
    exact h (w ++ rest) rfl

/-- A string between double quotes is told by its own characters, unless a
quote comes to follow it. -/
theorem lexeme_basic_split {u : List Char} {k : Kind} {n : Nat}
    (h : lexeme ('"' :: u) = (k, n)) (hstray : k ≠ .stray) :
    ∃ w rest, u = w ++ rest ∧ w.length + 1 = n ∧
      ∀ v : List Char, (v.head? = some '"' → rest.head? = some '"') →
        lexeme ('"' :: (w ++ v)) = (k, n) := by
  by_cases htriple : ∃ cs, u = '"' :: '"' :: cs
  · obtain ⟨cs, rfl⟩ := htriple
    rw [lexeme_triple] at h
    obtain ⟨rfl, m, hm, rfl⟩ := closed_of_ne_stray h hstray
    obtain ⟨w, rest, rfl, rfl, hrest, hclose⟩ := tripleClose?_split hm
    refine ⟨'"' :: '"' :: w, rest, rfl, rfl, fun v hv => ?_⟩
    rw [List.cons_append, List.cons_append, lexeme_triple, hclose v fun hq => hrest (hv hq)]
  · have hne : ∀ ds, u ≠ '"' :: '"' :: ds := fun ds hds => htriple ⟨ds, hds⟩
    rw [lexeme_basic hne] at h
    obtain ⟨rfl, m, hm, rfl⟩ := closed_of_ne_stray h hstray
    obtain ⟨w, rest, rfl, rfl, hclose⟩ := basicClose?_split hm
    have hw : w ≠ [] := by
      rintro rfl
      cases hclose []
    refine ⟨w, rest, rfl, rfl, fun v hv => ?_⟩
    rw [lexeme_basic (ne_quotes_of_head? hw hne hv), hclose v]

/-- So is one between single quotes. -/
theorem lexeme_literal_split {u : List Char} {k : Kind} {n : Nat}
    (h : lexeme ('\'' :: u) = (k, n)) (hstray : k ≠ .stray) :
    ∃ w rest, u = w ++ rest ∧ w.length + 1 = n ∧
      ∀ v : List Char, (v.head? = some '\'' → rest.head? = some '\'') →
        lexeme ('\'' :: (w ++ v)) = (k, n) := by
  by_cases htriple : ∃ cs, u = '\'' :: '\'' :: cs
  · obtain ⟨cs, rfl⟩ := htriple
    rw [lexeme_literalTriple] at h
    obtain ⟨rfl, m, hm, rfl⟩ := closed_of_ne_stray h hstray
    obtain ⟨w, rest, rfl, rfl, hrest, hclose⟩ := tripleClose?_split hm
    refine ⟨'\'' :: '\'' :: w, rest, rfl, rfl, fun v hv => ?_⟩
    rw [List.cons_append, List.cons_append, lexeme_literalTriple,
      hclose v fun hq => hrest (hv hq)]
  · have hne : ∀ ds, u ≠ '\'' :: '\'' :: ds := fun ds hds => htriple ⟨ds, hds⟩
    rw [lexeme_literal hne] at h
    obtain ⟨rfl, m, hm, rfl⟩ := closed_of_ne_stray h hstray
    obtain ⟨w, rest, rfl, rfl, hclose⟩ := literalClose?_split hm
    have hw : w ≠ [] := by
      rintro rfl
      cases hclose []
    refine ⟨w, rest, rfl, rfl, fun v hv => ?_⟩
    rw [lexeme_literal (ne_quotes_of_head? hw hne hv), hclose v]

/-- The two kinds of string. -/
theorem lexeme_string_split {quote : Char} {u : List Char} {k : Kind} {n : Nat}
    (hquote : quote = '"' ∨ quote = '\'') (h : lexeme (quote :: u) = (k, n))
    (hstray : k ≠ .stray) :
    ∃ w rest, u = w ++ rest ∧ w.length + 1 = n ∧
      ∀ v : List Char, (v.head? = some quote → rest.head? = some quote) →
        lexeme (quote :: (w ++ v)) = (k, n) := by
  rcases hquote with rfl | rfl
  · exact lexeme_basic_split h hstray
  · exact lexeme_literal_split h hstray

/-- A token that is not stray lies in the text. -/
theorem lexeme_le_length {c : Char} {u : List Char} {k : Kind} {n : Nat}
    (h : lexeme (c :: u) = (k, n)) (hstray : k ≠ .stray) : n ≤ (c :: u).length := by
  by_cases hquote : c = '"' ∨ c = '\''
  · obtain ⟨w, rest, rfl, rfl, -⟩ := lexeme_string_split hquote h hstray
    simp
  · obtain ⟨hb, hl⟩ := not_or.1 hquote
    have hle := longest_le_length (c :: u)
    rw [lexeme_reading hb hl] at h
    split at h
    · cases h
      exact absurd rfl hstray
    · next hlong =>
      cases h
      rw [hlong] at hle
      exact hle

/-- So the text begins with its characters, of which there are some. -/
theorem exists_split_of_lexeme {c : Char} {u : List Char} {k : Kind} {n : Nat}
    (h : lexeme (c :: u) = (k, n)) (hstray : k ≠ .stray) :
    ∃ w rest, c :: u = w ++ rest ∧ w ≠ [] ∧ w.length = n := by
  have hpos : 0 < n := by simpa [h] using lexeme_pos (c :: u)
  have hlength : ((c :: u).take n).length = n := by
    rw [List.length_take]
    exact Nat.min_eq_left (lexeme_le_length h hstray)
  exact ⟨_, _, (List.take_append_drop n (c :: u)).symm, List.length_pos_iff.1 (by omega), hlength⟩

/-- A token that is neither stray nor a line break stays the first one when the
text goes on after a line break. -/
theorem lexeme_append_break {c : Char} {u : List Char} {k : Kind} {n : Nat}
    (h : lexeme (c :: u) = (k, n)) (hstray : k ≠ .stray) (hbreak : k ≠ .newline) (v : List Char) :
    lexeme (c :: (u ++ '\n' :: v)) = (k, n) := by
  by_cases hquote : c = '"' ∨ c = '\''
  · obtain ⟨w, rest, rfl, rfl, hsame⟩ := lexeme_string_split hquote h hstray
    have hnext : (rest ++ '\n' :: v).head? = some c → rest.head? = some c := by
      cases rest with
      | nil => rcases hquote with rfl | rfl <;> simp
      | cons d rest => exact id
    rw [List.append_assoc]
    exact hsame _ hnext
  by_cases hlf : c = '\n' ∨ c = '\r'
  · rw [lexeme_lineBreak hlf] at h
    split at h
    · cases h
      exact absurd rfl hbreak
    · cases h
      exact absurd rfl hstray
  · obtain ⟨hb, hl⟩ := not_or.1 hquote
    obtain ⟨hn, hr⟩ := not_or.1 hlf
    rw [← h, lexeme_reading hb hl, lexeme_reading hb hl,
      readings_append_stop (.inl rfl) hn hr fun _ => .inl rfl]

/-! ## Rows of line breaks -/

/-- The text is a row of line breaks, and there is at least one. -/
def AreBreaks (p : List Char) : Prop := p ≠ [] ∧ newlineLength p = p.length

theorem newlineLength_append {p : List Char} (h : newlineLength p = p.length) (rest : List Char) :
    newlineLength (p ++ rest) = p.length + newlineLength rest := by
  fun_induction newlineLength p with
  | case1 cs ih =>
    simp only [List.length_cons, Nat.add_right_cancel_iff] at h
    simp only [List.cons_append, newlineLength, ih h, List.length_cons]
    omega
  | case2 cs ih =>
    simp only [List.length_cons, Nat.add_right_cancel_iff] at h
    simp only [List.cons_append, newlineLength, ih h, List.length_cons]
    omega
  | case3 cs hn hr =>
    obtain rfl : cs = [] := List.eq_nil_of_length_eq_zero h.symm
    simp

theorem areBreaks_take {cs : List Char} (h : 0 < newlineLength cs) :
    AreBreaks (cs.take (newlineLength cs)) := by
  refine ⟨?_, ?_⟩
  · intro hnil
    have := congrArg List.length hnil
    rw [List.length_take, Nat.min_eq_left (newlineLength_le cs)] at this
    simp at this
    omega
  · clear h
    fun_induction newlineLength cs with
    | case1 cs ih => simpa [newlineLength] using ih
    | case2 cs ih => simpa [newlineLength] using ih
    | case3 cs => rfl

/-- Line breaks begin with one of two characters. -/
theorem lineBreak_of_newlineLength {c : Char} {cs : List Char} (h : 0 < newlineLength (c :: cs)) :
    c = '\n' ∨ c = '\r' := by
  unfold newlineLength at h
  split at h
  · next heq => exact .inl (List.cons.inj heq).1
  · next heq => exact .inr (List.cons.inj heq).1
  · cases h

/-- A text that begins with a line break begins with a row of them. -/
theorem lexeme_of_newlineLength {cs : List Char} (h : 0 < newlineLength cs) :
    lexeme cs = (.newline, newlineLength cs) := by
  cases cs with
  | nil => cases h
  | cons c cs => rw [lexeme_lineBreak (lineBreak_of_newlineLength h), if_pos h]

/-- Line breaks before a text are a word, alone or with those that the text
begins with. -/
theorem wordsOf_breaks {p : List Char} (hp : AreBreaks p) (rest : List Char) :
    wordsOf (p ++ rest) = (.newline, p) :: wordsOf rest ∨
      ∃ q rest', wordsOf (p ++ rest) = (.newline, q) :: wordsOf rest' ∧
        ∃ q', wordsOf rest = (.newline, q') :: wordsOf rest' := by
  have hlength := newlineLength_append hp.2 rest
  have hpos : 0 < p.length := List.length_pos_iff.2 hp.1
  have hlex : lexeme (p ++ rest) = (.newline, newlineLength (p ++ rest)) :=
    lexeme_of_newlineLength (by omega)
  rw [hlength] at hlex
  by_cases hrest : newlineLength rest = 0
  · rw [hrest, Nat.add_zero] at hlex
    exact .inl (wordsOf_lexeme hp.1 hlex)
  · obtain ⟨q, rest', hsplit, hq⟩ : ∃ q rest', rest = q ++ rest' ∧ newlineLength rest = q.length :=
      ⟨rest.take (newlineLength rest), rest.drop (newlineLength rest),
        (List.take_append_drop _ _).symm, by
          rw [List.length_take, Nat.min_eq_left (newlineLength_le rest)]⟩
    have hrestLex := lexeme_of_newlineLength (Nat.pos_of_ne_zero hrest)
    rw [hq] at hlex hrestLex
    subst hsplit
    rw [← List.append_assoc, ← List.length_append] at hlex
    refine .inr ⟨p ++ q, rest', ?_, q, wordsOf_lexeme ?_ hrestLex⟩
    · rw [← List.append_assoc]
      exact wordsOf_lexeme (by simp [hp.1]) hlex
    · rintro rfl
      exact hrest hq

/-- How a text begins: with a character that begins nothing, with line breaks,
or with a word that is the same when the text goes on after a line break. -/
inductive Begins : List Char → Prop where
  | stray {u w : List Char} {ws : List Word} (h : wordsOf u = (.stray, w) :: ws) : Begins u
  | breaks {p rest : List Char} (hp : AreBreaks p) : Begins (p ++ rest)
  | word {k : Kind} {w rest : List Char} (hw : w ≠ [])
    (h : wordsOf (w ++ rest) = (k, w) :: wordsOf rest)
    (hbreak : ∀ v, wordsOf (w ++ (rest ++ '\n' :: v)) = (k, w) :: wordsOf (rest ++ '\n' :: v)) :
    Begins (w ++ rest)

theorem begins_cons (c : Char) (u : List Char) : Begins (c :: u) := by
  obtain ⟨k, n, hlex⟩ : ∃ k n, lexeme (c :: u) = (k, n) := ⟨_, _, rfl⟩
  have hpos : 0 < n := by simpa [hlex] using lexeme_pos (c :: u)
  by_cases hstray : k = .stray
  · subst hstray
    obtain ⟨ws, hws⟩ : ∃ ws, wordsOf (c :: u) = (.stray, (c :: u).take n) :: ws := by
      rw [wordsOf, Token.scan, Token.scanFrom, hlex]
      exact ⟨_, rfl⟩
    exact .stray hws
  by_cases hbreak : k = .newline
  · subst hbreak
    obtain rfl : n = newlineLength (c :: u) := by simpa [readings] using mem_readings hlex (by decide)
    rw [← List.take_append_drop (newlineLength (c :: u)) (c :: u)]
    exact .breaks (areBreaks_take hpos)
  · obtain ⟨w, rest, hsplit, hw, rfl⟩ := exists_split_of_lexeme hlex hstray
    have happend (v : List Char) := lexeme_append_break hlex hstray hbreak v
    rw [hsplit] at hlex ⊢
    refine .word (k := k) hw (wordsOf_lexeme hw hlex) fun v => wordsOf_lexeme hw ?_
    rw [← List.append_assoc, ← hsplit]
    exact happend v

/-! ## A bare key before a closing bracket -/

/-- Whether the characters write one name of a key without quotes: they are
those of bare keys, and they write neither a day nor a number with a power of
ten that begins with a zero. -/
def IsName (n : List Char) : Prop :=
  n ≠ [] ∧ (∀ c ∈ n, isBare c = true) ∧ (lexeme n).1 ≠ .datetime ∧
    ¬ ((lexeme n).1 = .float ∧ n.head? = some '0')

instance (n : List Char) : Decidable (IsName n) :=
  decidable_of_iff (n ≠ [] ∧ n.all isBare = true ∧ (lexeme n).1 ≠ .datetime ∧
    ¬ ((lexeme n).1 = .float ∧ n.head? = some '0')) (by rw [List.all_eq_true]; rfl)

/-- The kinds of words that write one name of a key without quotes. -/
def nameKinds : List Kind :=
  [.boolean, .hexInteger, .octalInteger, .binaryInteger, .integer, .float, .bare]

/-- A reading that no other is longer than loses only to one before it. -/
theorem longest_of_le {before after : List (Kind × Nat)} {k : Kind} {n : Nat} (hn : 0 < n)
    (hb : ∀ r ∈ before, r.2 ≤ n) (ha : ∀ r ∈ after, r.2 ≤ n) :
    ∃ k', longest (before ++ (k, n) :: after) = (k', n) ∧ (k', n) ∈ before ++ [(k, n)] := by
  have hmem : longest before ∈ (Kind.stray, 0) :: before := foldl_longest_mem _ _
  rw [longest, List.foldl_append, List.foldl_cons]
  change ∃ k', (after.foldl _ (if (longest before).2 < n then (k, n) else longest before)) = _ ∧ _
  by_cases hlt : (longest before).2 < n
  · rw [if_pos hlt]
    exact ⟨k, foldl_longest_of_le ha, by simp⟩
  · -- then it is as long, and is one of those before
    rcases List.mem_cons.1 hmem with h | h
    · rw [h] at hlt
      exact absurd hn hlt
    · have hle := hb _ h
      obtain ⟨k', hk'⟩ : ∃ k', longest before = (k', n) := ⟨_, Prod.ext rfl (by simp only; omega)⟩
      rw [hk'] at h hlt ⊢
      rw [if_neg hlt]
      exact ⟨k', foldl_longest_of_le ha, List.mem_append_left _ h⟩

theorem ne_of_isBare {c d : Char} (h : isBare c = true) (hd : isBare d = false) : c ≠ d := by
  rintro rfl
  rw [h] at hd
  cases hd

/-- The longest reading of a bare key is all of it. -/
theorem longest_bare {n : List Char} (hne : n ≠ []) (hbare : ∀ c ∈ n, isBare c = true) :
    ∃ k ∈ Kind.datetime :: nameKinds, longest (readings n) = (k, n.length) := by
  obtain ⟨c, u, rfl⟩ := List.exists_cons_of_ne_nil hne
  have hle := readings_le_length (c :: u)
  have hlength : bareLength (c :: u) = (c :: u).length := by
    rw [bareLength, ← List.append_nil (c :: u), List.takeWhile_append_of_pos hbare]
    simp
  have hc {d : Char} (hd : isBare d = false) : c ≠ d :=
    ne_of_isBare (hbare c List.mem_cons_self) hd
  have hblank : blankLength (c :: u) = 0 := by
    simp [blankLength, hc (d := ' ') rfl, hc (d := '\t') rfl]
  have hbreak : newlineLength (c :: u) = 0 := by
    unfold newlineLength
    split
    · next heq => exact absurd (List.cons.inj heq).1 (hc rfl)
    · next heq => exact absurd (List.cons.inj heq).1 (hc rfl)
    · rfl
  have hcomment : commentLength (c :: u) = 0 := by simp [commentLength, hc (d := '#') rfl]
  have hpos : 0 < (c :: u).length := List.length_pos_iff.2 hne
  obtain ⟨before, after, hsplit, hbefore⟩ : ∃ before after,
      readings (c :: u) = before ++ (.bare, (c :: u).length) :: after ∧
        ∀ k, (k, (c :: u).length) ∈ before → k ∈ Kind.datetime :: nameKinds := by
    refine ⟨[_, _, _, _, _, _, _, _, _, _], _, by rw [readings, hlength]; rfl, fun k hk => ?_⟩
    rw [hblank, hbreak, hcomment] at hk
    simp only [nameKinds, List.mem_cons, Prod.mk.injEq, Nat.ne_of_gt hpos, and_false, false_or,
      List.not_mem_nil, or_false] at hk ⊢
    grind
  rw [hsplit] at hle ⊢
  obtain ⟨k, hk, hmem⟩ := longest_of_le hpos (fun r hr => hle r (List.mem_append_left _ hr))
    fun r hr => hle r (List.mem_append_right _ (List.mem_cons_of_mem _ hr))
  refine ⟨k, ?_, hk⟩
  rcases List.mem_append.1 hmem with hmem | hmem
  · exact hbefore k hmem
  · cases List.mem_singleton.1 hmem
    simp [nameKinds]

/-- Before a closing bracket a bare key is one word. -/
theorem word_bare {n : List Char} (hne : n ≠ []) (hbare : ∀ c ∈ n, isBare c = true) :
    (lexeme n).1 ∈ Kind.datetime :: nameKinds ∧
      ∀ v, wordsOf (n ++ ']' :: v) = ((lexeme n).1, n) :: wordsOf (']' :: v) := by
  obtain ⟨k, hk, hlong⟩ := longest_bare hne hbare
  obtain ⟨c, u, rfl⟩ := List.exists_cons_of_ne_nil hne
  have hc {d : Char} (hd : isBare d = false) : c ≠ d :=
    ne_of_isBare (hbare c List.mem_cons_self) hd
  have hlex (rest : List Char) (hrest : longest (readings (c :: rest)) = (k, (c :: u).length)) :
      lexeme (c :: rest) = (k, (c :: u).length) := by
    rw [lexeme_reading (hc rfl) (hc rfl), hrest]
    rfl
  rw [hlex u hlong]
  refine ⟨hk, fun v => wordsOf_lexeme hne (hlex _ ?_)⟩
  rw [← hlong]
  exact congrArg longest (readings_append_stop (.inr (.inr rfl)) (hc rfl) (hc rfl)
    (fun h => absurd h (hc rfl)) u v)

/-- Before a closing bracket a name is one word, and it is that name. -/
theorem IsName.word {n : List Char} (h : IsName n) : ∃ k ∈ nameKinds,
    (∀ v, wordsOf (n ++ ']' :: v) = (k, n) :: wordsOf (']' :: v)) ∧
      ∀ l, Token.key ⟨k, n, l⟩ = .ok (.single ⟨String.ofList n, l⟩) := by
  obtain ⟨hne, hbare, hdate, hpadded⟩ := h
  obtain ⟨hk, hword⟩ := word_bare hne hbare
  have hk := (List.mem_cons.1 hk).resolve_left hdate
  refine ⟨_, hk, hword, fun l => ?_⟩
  have hplus : n.head? ≠ some '+' := by
    intro hhead
    exact absurd (hbare '+' (List.mem_of_mem_head? hhead)) (by decide)
  have hpoint : splitOnce '.' n = none := by
    rw [Option.eq_none_iff_forall_not_mem]
    rintro ⟨whole, part⟩ hsplit
    obtain ⟨rfl, -⟩ := splitOnce_eq_some_iff.1 hsplit
    exact absurd (hbare '.' (by simp)) (by decide)
  simp only [nameKinds, List.mem_cons, List.not_mem_nil, or_false] at hk
  rcases hk with h | h | h | h | h | h | h
  all_goals simp_all [Token.key]

/-- Any other bare key is one word as well, and writes no key. -/
theorem exists_word_of_not_isName {n : List Char} (hne : n ≠ [])
    (hbare : ∀ c ∈ n, isBare c = true) (h : ¬ IsName n) :
    (∀ v, wordsOf (n ++ ']' :: v) = ((lexeme n).1, n) :: wordsOf (']' :: v)) ∧
      ((lexeme n).1 = .datetime ∨ (lexeme n).1 = .float) ∧
      ∀ l, ∃ e, Token.key ⟨(lexeme n).1, n, l⟩ = .error e := by
  obtain ⟨-, hword⟩ := word_bare hne hbare
  have hkind : (lexeme n).1 = .datetime ∨ (lexeme n).1 = .float ∧ n.head? = some '0' := by
    by_contra hnot
    rw [not_or] at hnot
    exact h ⟨hne, hbare, hnot⟩
  refine ⟨hword, hkind.imp_right And.left, fun l => ?_⟩
  rcases hkind with hk | ⟨hk, hzero⟩
  · exact ⟨_, by rw [hk]; rfl⟩
  · exact ⟨⟨.paddedNumber, l⟩, by rw [hk]; simp [Token.key, hzero]⟩

end AuditSettings.Toml
