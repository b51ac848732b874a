/-
AuditSettings.Proofs.Toml.LineBreaks — carriage returns before line feeds
change no document.

`withReturns` puts a carriage return before every line feed of a text. A text
that has none yet is cut at the same places afterwards, provided that no
token is stray and that no string goes over the end of a line: only the
tokens that are line breaks grow (`scanFrom_withReturns`). A carriage return
takes a column that the line feed behind it gives back, so every token keeps
its location, and what is read off a line break is that it is one. Hence the
two texts are one document (`Document.ofText_withReturns`).
-/
import AuditSettings.Proofs.Toml.Words

namespace AuditSettings.Text

variable {c : Char} {cs : List Char}

/-- A text with every line feed put after a carriage return. -/
def withReturns (cs : List Char) : List Char :=
  cs.flatMap fun c => if c = '\n' then ['\r', '\n'] else [c]

@[simp] theorem withReturns_nil : withReturns [] = [] := rfl

theorem withReturns_newline (cs : List Char) :
    withReturns ('\n' :: cs) = '\r' :: '\n' :: withReturns cs := rfl

theorem withReturns_cons (h : c ≠ '\n') (cs : List Char) :
    withReturns (c :: cs) = c :: withReturns cs := by
  simp [withReturns, h]

theorem withReturns_append (cs ds : List Char) :
    withReturns (cs ++ ds) = withReturns cs ++ withReturns ds :=
  List.flatMap_append

theorem withReturns_eq_self (h : '\n' ∉ cs) : withReturns cs = cs := by
  induction cs with
  | nil => rfl
  | cons c cs ih =>
    rw [List.mem_cons, not_or] at h
    rw [withReturns_cons (Ne.symm h.1), ih h.2]

/-- What is put at the front of a text is a carriage return, and nothing in
front of other characters than a line feed. -/
theorem head?_withReturns (hr : c ≠ '\r') (h : (withReturns cs).head? = some c) :
    cs.head? = some c := by
  cases cs with
  | nil => cases h
  | cons d cs =>
    by_cases hd : d = '\n'
    · subst hd
      exact absurd (Option.some.inj h).symm hr
    · rwa [withReturns_cons hd] at h

/-- The two texts end at the same place. -/
theorem Location.after_withReturns (l : Location) (cs : List Char) :
    l.after (withReturns cs) = l.after cs := by
  induction cs generalizing l with
  | nil => rfl
  | cons c cs ih =>
    by_cases hc : c = '\n'
    · subst hc
      exact ih _
    · rw [withReturns_cons hc]
      exact ih _

end AuditSettings.Text

namespace AuditSettings.Toml

open AuditSettings.Text

/-! ## The token at the front -/

/-- The readings of a text that does not begin with a line break end with its
first line at the latest. -/
theorem readings_first_line {c : Char} (hn : c ≠ '\n') (hr : c ≠ '\r') (u : List Char) :
    ∃ line rest, u = line ++ rest ∧ '\n' ∉ line ∧ readings (c :: u) = readings (c :: line) ∧
      readings (c :: withReturns u) = readings (c :: line) := by
  by_cases hu : '\n' ∈ u
  · obtain ⟨line, rest, rfl, hline⟩ := List.eq_append_cons_of_mem hu
    refine ⟨line, '\n' :: rest, rfl, hline, ?_, ?_⟩
    · exact readings_append_stop (.inl rfl) hn hr (fun _ => .inl rfl) line rest
    · rw [withReturns_append, withReturns_eq_self hline, withReturns_newline]
      exact readings_append_stop (.inr (.inl rfl)) hn hr (fun _ => .inr rfl) line _
  · exact ⟨u, [], by simp, hu, rfl, by rw [withReturns_eq_self hu]⟩

/-- Line breaks in a row stay so. -/
theorem newlineLength_withReturns {cs : List Char} (hr : '\r' ∉ cs) :
    newlineLength (withReturns cs) = (withReturns (cs.take (newlineLength cs))).length := by
  fun_induction newlineLength cs with
  | case1 cs ih =>
    rw [withReturns_newline, List.take_succ_cons, withReturns_newline, newlineLength,
      ih fun h => hr (List.mem_cons_of_mem _ h)]
    rfl
  | case2 cs ih => exact absurd List.mem_cons_self hr
  | case3 cs hn hreturn =>
    cases cs with
    | nil => rfl
    | cons c cs =>
      have hc : c ≠ '\n' := fun h => hn cs (by rw [h])
      have hc' : c ≠ '\r' := fun h => hr (by simp [h])
      rw [withReturns_cons hc]
      unfold newlineLength
      split
      · next heq => exact absurd (List.cons.inj heq).1 hc
      · next heq => exact absurd (List.cons.inj heq).1 hc'
      · rfl

/-- Of all tokens only strings and line breaks can hold a line feed. -/
theorem not_mem_take_of_lexeme {cs : List Char} {k : Kind} {n : Nat} (h : lexeme cs = (k, n))
    (hk : k ∉ [.multiBasic, .multiLiteral, .basic, .literal, .stray]) (hbreak : k ≠ .newline) :
    '\n' ∉ cs.take n := by
  cases cs with
  | nil => simp
  | cons c u =>
    have hread := mem_readings h hk
    by_cases hc : c = '\n' ∨ c = '\r'
    · rw [lexeme_lineBreak hc] at h
      split at h
      · cases h
        exact absurd rfl hbreak
      · cases h
        simp at hk
    · obtain ⟨hn, hr⟩ := not_or.1 hc
      obtain ⟨line, rest, rfl, hline, hreadings, -⟩ := readings_first_line hn hr u
      rw [hreadings] at hread
      have hle := readings_le_length (c :: line) _ hread
      rw [← List.cons_append, List.take_append_of_le_length hle]
      intro hmem
      rcases List.mem_cons.1 (List.mem_of_mem_take hmem) with rfl | hmem
      · exact hn rfl
      · exact hline hmem

/-- A token with no line feed in it, or of line breaks, stays the first one of
its text. -/
theorem lexeme_withReturns {k : Kind} {w rest : List Char} (hw : w ≠ [])
    (hnone : '\r' ∉ w ++ rest) (h : lexeme (w ++ rest) = (k, w.length)) (hstray : k ≠ .stray)
    (hline : k ≠ .newline → '\n' ∉ w) :
    lexeme (withReturns w ++ withReturns rest) = (k, (withReturns w).length) := by
  obtain ⟨c, w, rfl⟩ := List.exists_cons_of_ne_nil hw
  have hr : c ≠ '\r' := fun hc => hnone (by simp [hc])
  by_cases hbreak : k = .newline
  · subst hbreak
    have hlength : newlineLength (c :: w ++ rest) = (c :: w).length := by
      simpa [readings, eq_comm] using mem_readings h (by decide)
    have hpos : 0 < newlineLength (c :: (w ++ rest)) := by
      rw [← List.cons_append, hlength]
      exact Nat.succ_pos _
    obtain rfl : c = '\n' := (lineBreak_of_newlineLength hpos).resolve_right hr
    have hreturns := newlineLength_withReturns hnone
    rw [hlength, List.take_left] at hreturns
    rw [← withReturns_append, ← hreturns]
    exact lexeme_of_newlineLength (Nat.succ_pos _)
  · have hline := hline hbreak
    obtain ⟨hn, hline'⟩ := not_or.1 (fun h => hline (List.mem_cons.2 h))
    rw [withReturns_eq_self hline]
    by_cases hquote : c = '"' ∨ c = '\''
    · obtain ⟨w', rest', hsplit, hlength, hsame⟩ := lexeme_string_split hquote h hstray
      obtain ⟨rfl, rfl⟩ := List.append_inj hsplit.symm (Nat.succ.inj hlength)
      exact hsame _ (head?_withReturns (by rcases hquote with rfl | rfl <;> decide))
    · obtain ⟨hb, hl⟩ := not_or.1 hquote
      obtain ⟨line, -, -, -, hreadings, hreturns⟩ :=
        readings_first_line (Ne.symm hn) hr (w ++ rest)
      rw [withReturns_append, withReturns_eq_self hline'] at hreturns
      rw [List.cons_append, lexeme_reading hb hl, hreturns, ← hreadings, ← lexeme_reading hb hl,
        ← List.cons_append, h]

/-! ## The tokens of a text -/

/-- A token with its text put into the other kind of line breaks. -/
def Token.withReturns (t : Token) : Token := { t with text := Text.withReturns t.text }

/-- Whether a token keeps to its line unless it is a line break, and is not
stray. -/
def Token.KeepsLine (t : Token) : Prop :=
  t.kind ≠ .stray ∧ (t.kind ≠ .newline → '\n' ∉ t.text)

/-- A text of such tokens is cut at the same places. -/
theorem scanFrom_withReturns {cs : List Char} {l : Location} (hr : '\r' ∉ cs)
    (h : ∀ t ∈ Token.scanFrom l 0 cs, t.KeepsLine) :
    Token.scanFrom l 0 (withReturns cs) = (Token.scanFrom l 0 cs).map Token.withReturns := by
  -- by the length of what is still to be cut, token by token
  induction hlength : cs.length using Nat.strong_induction_on generalizing cs l with
  | _ m ih =>
    cases cs with
    | nil => rfl
    | cons c u =>
      obtain ⟨k, n, hlex⟩ : ∃ k n, lexeme (c :: u) = (k, n) := ⟨_, _, rfl⟩
      have hfirst : Token.KeepsLine ⟨k, (c :: u).take n, l⟩ := by
        refine h _ ?_
        rw [Token.scanFrom, hlex]
        exact List.mem_cons_self
      obtain ⟨w, rest, hsplit, hw, rfl⟩ := exists_split_of_lexeme hlex hfirst.1
      rw [hsplit, List.take_left] at hfirst
      rw [hsplit] at h hr hlex hlength ⊢
      have hlex' := lexeme_withReturns hw hr hlex hfirst.1 hfirst.2
      have hscan := scanFrom_lexeme l hw hlex
      have hne' : withReturns w ≠ [] := by
        intro hnil
        have := lexeme_pos (withReturns w ++ withReturns rest)
        rw [hlex', hnil] at this
        exact absurd this (by simp)
      rw [withReturns_append]
      rw [hscan] at h ⊢
      rw [scanFrom_lexeme l hne' hlex', List.map_cons, Location.after_withReturns]
      rw [List.mem_append, not_or] at hr
      refine congrArg _ (ih rest.length ?_ hr.2 (fun t ht => h t (List.mem_cons_of_mem _ ht)) rfl)
      have := List.length_pos_iff.2 hw
      rw [← hlength, List.length_append]
      omega

/-- What is read off a line break is that it is one, so a draft takes the two
tokens alike. -/
theorem Draft.take_withReturns (d : Draft) {t : Token} (h : t.KeepsLine) :
    d.take t.withReturns = d.take t := by
  obtain ⟨k, cs, l⟩ := t
  by_cases hbreak : k = .newline
  · subst hbreak
    obtain ⟨items, e⟩ := d
    cases e <;> rfl
  · have hcs : Text.withReturns cs = cs := withReturns_eq_self (h.2 hbreak)
    rw [Token.withReturns, hcs]

theorem Draft.foldlM_take_withReturns {ts : List Token} (h : ∀ t ∈ ts, t.KeepsLine) (d : Draft) :
    (ts.map Token.withReturns).foldlM Draft.take d = ts.foldlM Draft.take d := by
  induction ts generalizing d with
  | nil => rfl
  | cons t ts ih =>
    rw [List.map_cons, List.foldlM_cons, List.foldlM_cons,
      Draft.take_withReturns d (h t List.mem_cons_self)]
    exact congrArg _ (funext fun d' => ih (fun t ht => h t (List.mem_cons_of_mem _ ht)) d')

/-- No token of a document is stray. -/
theorem Draft.ne_stray_of_foldlM {ts : List Token} {d d' : Draft}
    (h : ts.foldlM Draft.take d = .ok d') : ∀ t ∈ ts, t.kind ≠ .stray := by
  induction ts generalizing d with
  | nil => simp
  | cons t ts ih =>
    rw [List.foldlM_cons] at h
    obtain ⟨e, he, h⟩ := exists_of_bind_eq_ok h
    intro s hs
    rcases List.mem_cons.1 hs with rfl | hs
    · intro hstray
      rw [Draft.take, hstray] at he
      cases he
    · exact ih h s hs

/-! ## Documents -/

/-- The kinds of string. -/
def stringKinds : List Kind := [.basic, .multiBasic, .literal, .multiLiteral]

/-- Every token of a document keeps its line when its strings do. -/
theorem Document.keepsLine {cs : List Char} {d : Document} (h : ofText cs = .ok d)
    (hstring : ∀ t ∈ Token.scan cs, t.kind ∈ stringKinds → '\n' ∉ t.text) :
    ∀ t ∈ Token.scan cs, t.KeepsLine := by
  obtain ⟨e, he, -⟩ := exists_of_bind_eq_ok h
  intro t ht
  have hstray := Draft.ne_stray_of_foldlM he t ht
  refine ⟨hstray, fun hbreak => ?_⟩
  by_cases hk : t.kind ∈ stringKinds
  · exact hstring t ht hk
  · obtain ⟨rest, n, -, hlex, htext⟩ := Token.exists_lexeme ht
    rw [htext]
    refine not_mem_take_of_lexeme hlex ?_ hbreak
    simp only [stringKinds, List.mem_cons, List.not_mem_nil, or_false] at hk ⊢
    grind

/-- A text whose strings keep to their lines is the same document with either
kind of line breaks. -/
theorem Document.ofText_withReturns {cs : List Char} {d : Document} (h : ofText cs = .ok d)
    (hr : '\r' ∉ cs) (hstring : ∀ t ∈ Token.scan cs, t.kind ∈ stringKinds → '\n' ∉ t.text) :
    ofText (withReturns cs) = .ok d := by
  have hline := Document.keepsLine h hstring
  have hscan : Token.scan (withReturns cs) = (Token.scan cs).map Token.withReturns :=
    scanFrom_withReturns hr hline
  rw [← h, ofText, ofText, hscan, Location.after_withReturns, ofTokens, ofTokens,
    Draft.foldlM_take_withReturns hline]

end AuditSettings.Toml
