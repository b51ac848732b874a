/-
AuditSettings.Proofs.Toml.Order — the marks of a document stand in the
order of its text.

Tokens follow each other without overlap, and what a token spells is
located inside it. So the names, scalars and opening brackets of an
accepted text, in the order of its document, have increasing locations.
The one token with two names is a number with a point, where the second
name begins after the point; that it is located inside the token takes
that such a number never ends in its point.
-/
import AuditSettings.Proofs.Text.Offsets
import AuditSettings.Proofs.Toml.Marks
import AuditSettings.Proofs.Toml.Row

namespace AuditSettings.Toml

open AuditSettings.Text

/-! ## The last character of a number -/

/-- Whether a text has `n` characters and the last of them is no point. -/
def EndsOff (n : Nat) (cs : List Char) : Prop := ∃ c, cs[n - 1]? = some c ∧ c ≠ '.'

theorem EndsOff.of_drop {n : Nat} (m : Nat) (cs : List Char) (hn : 0 < n)
    (h : EndsOff n (cs.drop m)) : EndsOff (m + n) cs := by
  obtain ⟨c, hc, hne⟩ := h
  rw [List.getElem?_drop, ← Nat.add_sub_assoc hn] at hc
  exact ⟨c, hc, hne⟩

theorem endsOff_takeWhile {p : Char → Bool} (hp : p '.' = false) {cs : List Char}
    (h : 0 < (cs.takeWhile p).length) : EndsOff (cs.takeWhile p).length cs := by
  have hlt : (cs.takeWhile p).length - 1 < (cs.takeWhile p).length := by omega
  have hcut : cs = cs.takeWhile p ++ cs.dropWhile p := List.takeWhile_append_dropWhile.symm
  refine ⟨(cs.takeWhile p)[(cs.takeWhile p).length - 1], ?_, ?_⟩
  · have hleft : (cs.takeWhile p ++ cs.dropWhile p)[(cs.takeWhile p).length - 1]? =
        (cs.takeWhile p)[(cs.takeWhile p).length - 1]? := List.getElem?_append_left hlt
    rw [← List.getElem?_eq_getElem hlt, ← hleft, ← hcut]
  · intro hdot
    have := List.all_eq_true.1 List.all_takeWhile _ (List.getElem_mem hlt)
    rw [hdot, hp] at this
    cases this

theorem endsOff_digits {cs : List Char} (h : 0 < digitsLength cs) : EndsOff (digitsLength cs) cs :=
  endsOff_takeWhile (by decide) h

theorem endsOff_integer {cs : List Char} (h : 0 < integerLength cs) :
    EndsOff (integerLength cs) cs := by
  simp only [integerLength] at h ⊢
  split at h
  · omega
  · next hd =>
    rw [if_neg hd]
    exact (endsOff_digits (by omega)).of_drop _ _ (by omega)

theorem endsOff_point {cs : List Char} (h : 0 < pointLength cs) : EndsOff (pointLength cs) cs := by
  unfold pointLength at h ⊢
  split at h
  · next cs =>
    simp only at h ⊢
    split at h
    · omega
    · next hd =>
      rw [if_neg hd, Nat.add_comm]
      exact EndsOff.of_drop 1 ('.' :: cs) (by omega) (endsOff_digits (by omega))
  · omega

theorem endsOff_power {cs : List Char} (h : 0 < powerLength cs) : EndsOff (powerLength cs) cs := by
  unfold powerLength at h ⊢
  split at h
  · next c cs =>
    simp only at h ⊢
    split at h
    · next he =>
      rw [if_pos he, Nat.add_comm]
      have hpos : 0 < integerLength cs := by
        simp only [Bool.and_eq_true, decide_eq_true_eq] at he
        exact he.2
      exact EndsOff.of_drop 1 (c :: cs) hpos (endsOff_integer hpos)
    · omega
  · omega

theorem endsOff_word {cs : List Char} (h : 0 < wordLength [['n', 'a', 'n'], ['i', 'n', 'f']] cs) :
    EndsOff (wordLength [['n', 'a', 'n'], ['i', 'n', 'f']] cs) cs := by
  unfold wordLength at h ⊢
  split at h
  · next w hw =>
    have hmem := List.mem_of_find?_eq_some hw
    obtain ⟨rest, rfl⟩ : w <+: cs := by simpa using List.find?_some hw
    simp only [List.mem_cons, List.not_mem_nil, or_false] at hmem
    rcases hmem with rfl | rfl <;> simp [EndsOff]
  · omega

/-- A number never ends in its point. -/
theorem endsOff_float {cs : List Char} (h : 0 < floatLength cs) : EndsOff (floatLength cs) cs := by
  simp only [floatLength] at h ⊢
  split at h
  · next hw =>
    rw [if_pos hw]
    exact (endsOff_word hw).of_drop _ _ hw
  · next hw =>
    rw [if_neg hw]
    split at h
    · omega
    · next hwhole =>
      rw [if_neg hwhole]
      rcases Nat.eq_zero_or_pos (powerLength (cs.drop (integerLength cs +
        pointLength (cs.drop (integerLength cs))))) with hpow | hpow
      · rw [hpow, Nat.add_zero]
        rcases Nat.eq_zero_or_pos (pointLength (cs.drop (integerLength cs))) with hpt | hpt
        · rw [hpt, Nat.add_zero]
          exact endsOff_integer (by omega)
        · exact (endsOff_point hpt).of_drop _ _ hpt
      · exact (endsOff_power hpow).of_drop _ _ hpow

/-! ## Tokens of a text -/

theorem foldl_longest_mem : ∀ (rs : List (Kind × Nat)) (best : Kind × Nat),
    rs.foldl (fun best r => if best.2 < r.2 then r else best) best ∈ best :: rs
  | [], best => List.mem_singleton.2 rfl
  | r :: rs, best => by
      have hrest := foldl_longest_mem rs (if best.2 < r.2 then r else best)
      rw [List.foldl_cons]
      rcases List.mem_cons.1 hrest with h | h
      · rw [h]
        split
        · exact List.mem_cons_of_mem _ List.mem_cons_self
        · exact List.mem_cons_self
      · exact List.mem_cons_of_mem _ (List.mem_cons_of_mem _ h)

/-- A token that is neither a string nor stray is one of the readings. -/
theorem mem_readings {cs : List Char} {k : Kind} {n : Nat} (h : lexeme cs = (k, n))
    (hk : k ∉ [.multiBasic, .multiLiteral, .basic, .literal, .stray]) : (k, n) ∈ readings cs := by
  simp only [List.mem_cons, List.not_mem_nil, or_false, not_or] at hk
  unfold lexeme at h
  split at h
  · split at h <;> cases h <;> simp at hk
  · split at h <;> cases h <;> simp at hk
  · split at h <;> cases h <;> simp at hk
  · split at h <;> cases h <;> simp at hk
  · have hmem : longest (readings cs) ∈ (Kind.stray, 0) :: readings cs :=
      foldl_longest_mem _ _
    split at h
    · cases h
      simp at hk
    · next hl =>
      cases h
      rw [hl] at hmem
      exact (List.mem_cons.1 hmem).resolve_left (by simp)

/-- A number with a point or a power is as long as it can be. -/
theorem lexeme_float {cs : List Char} {n : Nat} (h : lexeme cs = (.float, n)) :
    n = floatLength cs := by
  simpa [readings] using mem_readings h (by decide)

/-- A sign of its own is one character. -/
theorem eq_of_charLength {c : Char} {cs : List Char} {n : Nat} (h : n + 1 = charLength c cs) :
    cs.take (n + 1) = [c] := by
  cases cs with
  | nil => cases h
  | cons d cs =>
    rw [charLength] at h
    split at h
    · next hd =>
      obtain rfl : n = 0 := by omega
      rw [hd]
      rfl
    · omega

namespace Token

theorem exists_lexeme_from {t : Token} : ∀ (cs : List Char) (l : Location) (inside : Nat),
    t ∈ scanFrom l inside cs → ∃ rest n, rest ≠ [] ∧ lexeme rest = (t.kind, n + 1) ∧
      t.text = rest.take (n + 1)
  | [], l, inside, h => by simp [scanFrom] at h
  | c :: cs, l, inside + 1, h => exists_lexeme_from cs _ _ h
  | c :: cs, l, 0, h => by
      obtain ⟨k, n, hlex⟩ : ∃ k n, lexeme (c :: cs) = (k, n + 1) :=
        ⟨_, (lexeme (c :: cs)).2 - 1, Prod.ext rfl (Nat.sub_add_cancel (lexeme_pos (c :: cs))).symm⟩
      simp only [scanFrom, hlex] at h
      rcases List.mem_cons.1 h with rfl | h
      · exact ⟨c :: cs, n, by simp, hlex, rfl⟩
      · exact exists_lexeme_from cs _ _ h

/-- A token is the lexeme at the front of what is left of the text. -/
theorem exists_lexeme {text : List Char} {t : Token} (h : t ∈ scan text) :
    ∃ rest n, rest ≠ [] ∧ lexeme rest = (t.kind, n + 1) ∧ t.text = rest.take (n + 1) :=
  exists_lexeme_from _ _ _ h

/-- What the tokens of a text are like: none is empty, no number ends in
its point, and what opens an array or an inline table is one character. -/
structure Proper (t : Token) : Prop where
  text_ne_nil : t.text ≠ []
  float : t.kind = .float → t.text.getLast? ≠ some '.'
  bracketOpen : t.kind = .bracketOpen → t.text = ['[']
  braceOpen : t.kind = .braceOpen → t.text = ['\x7b']

theorem proper {text : List Char} {t : Token} (h : t ∈ scan text) : t.Proper := by
  obtain ⟨rest, n, hrest, hlex, htext⟩ := exists_lexeme h
  refine ⟨by simp [htext, hrest], fun hk => ?_, fun hk => ?_, fun hk => ?_⟩
  · rw [hk] at hlex
    have hlength := lexeme_float hlex
    obtain ⟨d, hd, hne⟩ : EndsOff (n + 1) rest := by
      rw [hlength]
      exact endsOff_float (by omega)
    obtain ⟨hlt, -⟩ := List.getElem?_eq_some_iff.1 hd
    rw [htext, List.getLast?_eq_getElem?, List.length_take,
      Nat.min_eq_left (show n + 1 ≤ rest.length by omega),
      List.getElem?_take, if_pos (by omega), hd]
    simpa using hne
  · rw [hk] at hlex
    have hread := mem_readings hlex (by decide)
    rw [htext]
    exact eq_of_charLength (by simpa [readings] using hread)
  · rw [hk] at hlex
    have hread := mem_readings hlex (by decide)
    rw [htext]
    exact eq_of_charLength (by simpa [readings] using hread)

end Token

/-! ## Marks in order -/

theorem lt_of_lt_of_not_lt {a b c : Location} (h : a < b) (hc : ¬ c < b) : a < c := by
  rcases Location.lt_or_eq_or_gt b c with hbc | rfl | hcb
  · exact Location.lt_trans h hbc
  · exact h
  · exact absurd hcb hc

/-- Where a mark is written. It is kept of names, scalars and the brackets
and braces that open something. -/
@[simp] def Mark.location? : Mark → Option Location
  | .name p => some p.location
  | .scalar l _ | .openBracket l | .openBrace l => some l
  | .equals | .secondBracket | .closeBracket | .closeBrace => none

/-- Where some marks are written. -/
def locationsIn (ms : List Mark) : List Location := ms.filterMap Mark.location?

@[simp] theorem locationsIn_nil : locationsIn [] = [] := rfl

@[simp] theorem locationsIn_cons (m : Mark) (ms : List Mark) :
    locationsIn (m :: ms) = m.location?.toList ++ locationsIn ms := by
  cases m <;> rfl

@[simp] theorem locationsIn_append (ms ns : List Mark) :
    locationsIn (ms ++ ns) = locationsIn ms ++ locationsIn ns := List.filterMap_append

@[simp] theorem locationsIn_key (k : Key) :
    locationsIn k.marks = k.parts.map KeyPart.location := by
  simp [locationsIn, Key.marks, Function.comp_def]

/-- Locations inside a stretch of text, each after those before it. -/
structure InOrder (l : Location) (cs : List Char) (ls : List Location) : Prop where
  increasing : ls.Pairwise (· < ·)
  not_lt : ∀ p ∈ ls, ¬ p < l
  lt_after : ∀ p ∈ ls, p < l.after cs

theorem inOrder_nil (l : Location) (cs : List Char) : InOrder l cs [] :=
  ⟨.nil, by simp, by simp⟩

theorem inOrder_start {cs : List Char} (h : cs ≠ []) (l : Location) : InOrder l cs [l] :=
  ⟨List.pairwise_singleton _ _, by simp [Location.not_lt_self], by simp [lt_after h]⟩

/-- How a token writes a key: bare, as a string that decodes, or as a
number whose point parts two names. -/
inductive Token.Writes (t : Token) : Key → Prop
  | bare : t.Writes (.single ⟨String.ofList t.text, t.start⟩)
  | quoted {name : String} (h : t.string = .ok name) : t.Writes (.single ⟨name, t.start⟩)
  | dotted {whole part : List Char} (hkind : t.kind = .float)
      (htext : t.text = whole ++ '.' :: part) :
      t.Writes ⟨⟨String.ofList whole, t.start⟩,
        [⟨String.ofList part, t.start.after (whole ++ ['.'])⟩]⟩

theorem Token.writes_of_key {t : Token} {k : Key} (h : t.key = .ok k) : t.Writes k := by
  unfold Token.key at h
  simp only at h
  split at h
  case h_6 =>
    split at h
    · cases h
    · cases h
      exact .bare
  case h_7 hkind =>
    split at h
    · cases h
    split at h
    · cases h
    split at h
    · next hcut =>
      cases h
      exact .dotted hkind (splitOnce_eq_some_iff.1 hcut).1
    · cases h
      exact .bare
  case h_8 | h_9 =>
    obtain ⟨name, hname, h⟩ := exists_of_bind_eq_ok h
    cases h
    exact .quoted hname
  case h_10 => cases h
  all_goals
    cases h
    exact .bare

/-- The parts of a key that a token writes stand inside it, in order. -/
theorem Token.key_inOrder {t : Token} {k : Key} (h : t.key = .ok k) (ht : t.Proper) :
    InOrder t.start t.text (k.parts.map KeyPart.location) := by
  cases Token.writes_of_key h with
  | bare | quoted => exact inOrder_start ht.text_ne_nil t.start
  | @dotted whole part hkind htext =>
    have hpart : part ≠ [] := by
      rintro rfl
      exact ht.float hkind (by simp [htext])
    have hlt := lt_after (show whole ++ ['.'] ≠ [] by simp) t.start
    have hend : t.start.after (whole ++ ['.']) < t.start.after t.text := by
      rw [show t.text = (whole ++ ['.']) ++ part by simp [htext],
        Location.after_append _ (whole ++ ['.']) part]
      exact lt_after hpart _
    refine ⟨by simpa [Key.parts] using hlt, ?_, ?_⟩
    · simp only [Key.parts, List.map_cons, List.map_nil, List.mem_cons, List.not_mem_nil,
        or_false, forall_eq_or_imp, forall_eq]
      exact ⟨Location.not_lt_self _, Location.not_lt_of_lt hlt⟩
    · simp only [Key.parts, List.map_cons, List.map_nil, List.mem_cons, List.not_mem_nil,
        or_false, forall_eq_or_imp, forall_eq]
      exact ⟨lt_after ht.text_ne_nil _, hend⟩

/-- What a token spells stands inside it. -/
theorem Token.Spells.inOrder {t : Token} {ms : List Mark} (h : t.Spells ms) (ht : t.Proper) :
    InOrder t.start t.text (locationsIn ms) := by
  cases h with
  | names h =>
    rw [locationsIn_key]
    exact t.key_inOrder h ht
  | nothing | equals | secondBracket | closeBracket | closeBrace => exact inOrder_nil _ _
  | scalar | openBracket | openBrace => exact inOrder_start ht.text_ne_nil _

/-- What a row of tokens spells stands in the order of the row. -/
theorem Spelled.increasing : ∀ {ws : List Word} {l : Location} {ms : List Mark},
    Spelled (layOut l ws) ms → (∀ t ∈ layOut l ws, t.Proper) →
    (locationsIn ms).Pairwise (· < ·) ∧ ∀ p ∈ locationsIn ms, ¬ p < l
  | [], l, ms, h, _ => by
      cases h
      simp
  | (k, cs) :: ws, l, ms, h, hproper => by
      cases h with
      | @cons _ _ ms ns hms hns =>
        have ht := hproper _ List.mem_cons_self
        have hfirst := hms.inOrder ht
        obtain ⟨hrest, hlate⟩ :=
          hns.increasing fun t hmem => hproper t (List.mem_cons_of_mem _ hmem)
        rw [locationsIn_append]
        refine ⟨List.pairwise_append.2 ⟨hfirst.increasing, hrest, ?_⟩, ?_⟩
        · intro p hp q hq
          exact lt_of_lt_of_not_lt (hfirst.lt_after p hp) (hlate q hq)
        · intro p hp hlt
          rcases List.mem_append.1 hp with hp | hp
          · exact hfirst.not_lt p hp hlt
          · exact hlate p hp (Location.lt_trans hlt (lt_after ht.text_ne_nil l))

/-- What an accepted text says stands in it in the order of its document,
and nothing before the text. -/
theorem Document.marks_in_order {cs : List Char} {d : Document} (h : ofText cs = .ok d) :
    (locationsIn d.marks).Pairwise (· < ·) ∧ ∀ p ∈ locationsIn d.marks, ¬ p < .origin := by
  have hspelled := ofText_spelled h
  rw [scan_eq_layOut] at hspelled
  refine hspelled.increasing ?_
  intro t ht
  rw [← scan_eq_layOut] at ht
  exact Token.proper ht

/-! ## Names in order -/

/-- The name that a mark is, if it is one. -/
@[simp] def Mark.name? : Mark → Option KeyPart
  | .name p => some p
  | _ => none

/-- The names among some marks. -/
def namesIn (ms : List Mark) : List KeyPart := ms.filterMap Mark.name?

@[simp] theorem namesIn_nil : namesIn [] = [] := rfl

@[simp] theorem namesIn_cons (m : Mark) (ms : List Mark) :
    namesIn (m :: ms) = m.name?.toList ++ namesIn ms := by
  cases m <;> rfl

@[simp] theorem namesIn_append (ms ns : List Mark) :
    namesIn (ms ++ ns) = namesIn ms ++ namesIn ns := List.filterMap_append

theorem mem_namesIn {p : KeyPart} {ms : List Mark} : p ∈ namesIn ms ↔ .name p ∈ ms := by
  simp only [namesIn, List.mem_filterMap]
  constructor
  · rintro ⟨m, hm, hp⟩
    cases m <;> cases hp
    exact hm
  · intro h
    exact ⟨_, h, rfl⟩

@[simp] theorem namesIn_key (k : Key) : namesIn k.marks = k.parts := by
  simp [namesIn, Key.marks, Mark.name?, Function.comp_def]

/-- Key parts of which each is written after those before it. -/
def Increasing (ps : List KeyPart) : Prop := ps.Pairwise fun p q => p.location < q.location

/-- Names are written among other marks. -/
theorem sublist_locationsIn (ms : List Mark) :
    ((namesIn ms).map KeyPart.location).Sublist (locationsIn ms) := by
  induction ms with
  | nil => exact .slnil
  | cons m ms ih =>
    cases m with
    | name p => exact ih.cons_cons p.location
    | scalar l v | openBracket l | openBrace l => exact ih.cons l
    | equals | secondBracket | closeBracket | closeBrace => exact ih

/-- The names of an accepted text stand in the order of its document, and
none before the text. -/
theorem Document.names_in_order {cs : List Char} {d : Document} (h : ofText cs = .ok d) :
    Increasing (namesIn d.marks) ∧ ∀ p ∈ namesIn d.marks, ¬ p.location < .origin := by
  obtain ⟨hinc, horigin⟩ := marks_in_order h
  have hsub := sublist_locationsIn d.marks
  refine ⟨List.pairwise_map.1 (hinc.sublist hsub), fun p hp => ?_⟩
  exact horigin _ (hsub.subset (List.mem_map_of_mem hp))

end AuditSettings.Toml
