/-
AuditSettings.Proofs.Settings.Spelling — settings written as a document.

Settings have a JSON object, and everything in that object but a null can
be written as the value of a key. `Spelling` names three ways to write the
sections of the object down: under headers, with dotted keys, and as
inline tables. `Settings.document` is the text, put together from the
names and words of the JSON object and from nothing else.

The same text is then given as a row of words, value by value. A value may
stand before a comma, a bracket, a space or the end of its line, and these
are the only characters that ever follow one; with that the words keep
apart (`LineStart.sections`) and the text is cut into just them.
-/
import AuditSettings.Proofs.Toml.BasicString
import AuditSettings.Proofs.Toml.Lexing
import AuditSettings.Report.Json

namespace AuditSettings

open AuditSettings.Toml

/-! ## Values -/

namespace Json

mutual

/-- A value as it is written after a key. There is no way to write that a
value is missing. -/
def literal : Json → List Char
  | null => []
  | boolean b => booleanWord b
  | string s => basicText s
  | array [] => ['[', ']']
  | array (v :: vs) => '[' :: literal v ++ itemsLiteral vs ++ [']']
  | object [] => ['\x7b', '\x7d']
  | object ((k, v) :: members) =>
    '\x7b' :: ' ' :: k.toList ++ ' ' :: '=' :: ' ' :: literal v ++ membersLiteral members ++
      [' ', '\x7d']

/-- The items of an array after its first. -/
def itemsLiteral : List Json → List Char
  | [] => []
  | v :: vs => ',' :: ' ' :: literal v ++ itemsLiteral vs

/-- The members of an inline table after its first. -/
def membersLiteral : List (String × Json) → List Char
  | [] => []
  | (k, v) :: members =>
    ',' :: ' ' :: k.toList ++ ' ' :: '=' :: ' ' :: literal v ++ membersLiteral members

end

/-- Whether there is nothing to write. -/
def isNull : Json → Bool
  | null => true
  | _ => false

/-- The members of an object that say something. -/
def present : Json → List (String × Json)
  | object members => members.filter fun m => !m.2.isNull
  | _ => []

end Json

/-! ## Documents -/

/-- A way to write the sections of some settings. -/
inductive Spelling where
  /-- A header, then a line for every field. -/
  | headers
  /-- A line for every field, with the section before a dot. -/
  | dottedKeys
  /-- A line for every section, with the fields in braces. -/
  | inlineTables
deriving DecidableEq, Repr

/-- A key, its value, and the end of the line. -/
def line (key : List Char) (v : Json) : List Char :=
  key ++ ' ' :: '=' :: ' ' :: v.literal ++ ['\n']

/-- A section and its fields as one of the spellings has them. -/
def Spelling.text : Spelling → String × List (String × Json) → List Char
  | headers, (name, fields) =>
    '[' :: name.toList ++ ']' :: '\n' :: fields.flatMap fun f => line f.1.toList f.2
  | dottedKeys, (name, fields) =>
    fields.flatMap fun f => line (name.toList ++ '.' :: f.1.toList) f.2
  | inlineTables, (name, fields) => line name.toList (.object fields)

namespace Settings

/-- The sections of the JSON object with the fields that say something. -/
def sections (s : Settings) : List (String × List (String × Json)) :=
  s.json.present.map fun m => (m.1, m.2.present)

/-- The settings as a document. -/
def document (s : Settings) (w : Spelling) : List Char := s.sections.flatMap w.text

end Settings

/-! ## What can be written -/

namespace Json

mutual

/-- A value without nulls whose objects have bare names, no name twice. -/
def IsWritable : Json → Prop
  | null => False
  | boolean _ => True
  | string _ => True
  | array items => AreWritable items
  | object members => (members.map Prod.fst).Nodup ∧ MembersWritable members

/-- Writable items. -/
def AreWritable : List Json → Prop
  | [] => True
  | v :: vs => v.IsWritable ∧ AreWritable vs

/-- Writable values under bare names. -/
def MembersWritable : List (String × Json) → Prop
  | [] => True
  | (k, v) :: members => IsBareName k.toList ∧ v.IsWritable ∧ MembersWritable members

end

/-! ## Words -/

mutual

/-- The words that a value is written with. -/
def words : Json → List Word
  | null => []
  | boolean b => [(.boolean, booleanWord b)]
  | string s => [(.basic, basicText s)]
  | array [] => [(.bracketOpen, ['[']), (.bracketClose, [']'])]
  | array (v :: vs) => (.bracketOpen, ['[']) :: words v ++ itemsWords vs ++ [(.bracketClose, [']'])]
  | object [] => [(.braceOpen, ['\x7b']), (.braceClose, ['\x7d'])]
  | object ((k, v) :: members) =>
    (.braceOpen, ['\x7b']) :: (.blank, [' ']) :: (.bare, k.toList) :: (.blank, [' ']) ::
      (.equals, ['=']) :: (.blank, [' ']) :: words v ++ membersWords members ++
      [(.blank, [' ']), (.braceClose, ['\x7d'])]

/-- The words of the items after the first. -/
def itemsWords : List Json → List Word
  | [] => []
  | v :: vs => (.comma, [',']) :: (.blank, [' ']) :: words v ++ itemsWords vs

/-- The words of the members after the first. -/
def membersWords : List (String × Json) → List Word
  | [] => []
  | (k, v) :: members =>
    (.comma, [',']) :: (.blank, [' ']) :: (.bare, k.toList) :: (.blank, [' ']) ::
      (.equals, ['=']) :: (.blank, [' ']) :: words v ++ membersWords members

end

mutual

theorem lettering_words : ∀ v : Json, lettering v.words = v.literal
  | null => rfl
  | boolean b => by simp [words, literal]
  | string s => by simp [words, literal]
  | array [] => rfl
  | array (v :: vs) => by simp [words, literal, lettering_words v, lettering_itemsWords vs]
  | object [] => rfl
  | object ((k, v) :: members) => by
      simp [words, literal, lettering_words v, lettering_membersWords members]

theorem lettering_itemsWords : ∀ vs : List Json, lettering (itemsWords vs) = itemsLiteral vs
  | [] => rfl
  | v :: vs => by simp [itemsWords, itemsLiteral, lettering_words v, lettering_itemsWords vs]

theorem lettering_membersWords : ∀ ms : List (String × Json),
    lettering (membersWords ms) = membersLiteral ms
  | [] => rfl
  | (k, v) :: ms => by
      simp [membersWords, membersLiteral, lettering_words v, lettering_membersWords ms]

end

/-! ## Words keep apart -/

/-- The characters that may follow a value. -/
def isSeam (c : Char) : Bool := c = ',' || c = ']' || c = ' ' || c = '\n'

/-- Words before which a value may stand. -/
def MayFollowValue (ws : List Word) : Prop := ∀ c ∈ (lettering ws).head?, isSeam c = true

/-- The characters that may follow a bare name. -/
def isNameEnd (c : Char) : Bool := c = ' ' || c = '.' || c = ']'

theorem row_mark {c : Char} {k : Kind} {rest : List Word} (h : markKind? c = some k)
    (hrest : Row rest) : Row ((k, [c]) :: rest) := by
  refine ⟨isWord_mark h, fun d _ => ?_, hrest⟩
  unfold markKind? at h
  split at h <;> cases h <;> rfl

/-- Characters that do not begin with a blank. -/
def NoBlank (cs : List Char) : Prop := ∀ c ∈ cs.head?, c ≠ ' ' ∧ c ≠ '\t'

theorem row_space {rest : List Word} (hrest : Row rest) (hhead : NoBlank (lettering rest)) :
    Row ((.blank, [' ']) :: rest) := by
  refine ⟨isWord_space, fun c hc => ?_, hrest⟩
  simp [Kind.endsBefore, hhead c hc]

theorem row_name {name : List Char} {rest : List Word} (hn : IsBareName name) (hrest : Row rest)
    (hhead : ∀ c ∈ (lettering rest).head?, isNameEnd c = true) : Row ((.bare, name) :: rest) := by
  refine ⟨isWord_bare hn, fun c hc => ?_, hrest⟩
  have hend := hhead c hc
  simp only [isNameEnd, Bool.or_eq_true, decide_eq_true_eq] at hend
  rcases hend with (rfl | rfl) | rfl <;> rfl

theorem row_value {w : Word} {rest : List Word} (hw : IsWord w)
    (hk : w.1 = .boolean ∨ w.1 = .basic) (hrest : Row rest)
    (hhead : MayFollowValue rest) : Row (w :: rest) := by
  refine ⟨hw, fun c hc => ?_, hrest⟩
  have hseam := hhead c hc
  simp only [isSeam, Bool.or_eq_true, decide_eq_true_eq] at hseam
  rcases hk with hk | hk <;> rw [hk] <;> rcases hseam with ((rfl | rfl) | rfl) | rfl <;> rfl

theorem noBlank_name {name : List Char} (hn : IsBareName name) (rest : List Char) :
    NoBlank (name ++ rest) := by
  obtain ⟨d, ds, rfl, hd⟩ := hn.exists_cons
  intro c hcd
  cases hcd
  exact ⟨ne_of_isAlpha hd (by decide), ne_of_isAlpha hd (by decide)⟩

theorem noBlank_literal {v : Json} (hv : v.IsWritable) (rest : List Char) :
    NoBlank (v.literal ++ rest) := by
  cases v with
  | null => simp [IsWritable] at hv
  | boolean b => cases b <;> simp [NoBlank, literal, booleanWord]
  | string s => simp [NoBlank, literal, basicText]
  | array vs => cases vs <;> simp [NoBlank, literal]
  | object ms => cases ms <;> simp [NoBlank, literal]

theorem noBlank_words {v : Json} (hv : v.IsWritable) (rest : List Word) :
    NoBlank (lettering (v.words ++ rest)) := by
  rw [lettering_append, lettering_words]
  exact noBlank_literal hv _

theorem row_pair {k : String} {v : Json} {rest : List Word} (hk : IsBareName k.toList)
    (hv : v.IsWritable) (hrow : Row (v.words ++ rest)) :
    Row ((.bare, k.toList) :: (.blank, [' ']) :: (.equals, ['=']) :: (.blank, [' ']) ::
      (v.words ++ rest)) := by
  have hspace : Row ((.blank, [' ']) :: (v.words ++ rest)) :=
    row_space hrow (noBlank_words hv rest)
  have heq : Row ((.blank, [' ']) :: (.equals, ['=']) :: (.blank, [' ']) :: (v.words ++ rest)) :=
    row_space (row_mark rfl hspace) (by simp [NoBlank])
  exact row_name hk heq (by simp [isNameEnd])

theorem mayFollowValue_itemsWords {vs : List Json} {rest : List Word} (h : MayFollowValue rest) :
    MayFollowValue (itemsWords vs ++ rest) := by
  cases vs with
  | nil => exact h
  | cons v vs => simp [MayFollowValue, itemsWords, isSeam]

theorem mayFollowValue_membersWords {ms : List (String × Json)} {rest : List Word}
    (h : MayFollowValue rest) : MayFollowValue (membersWords ms ++ rest) := by
  cases ms with
  | nil => exact h
  | cons m ms => simp [MayFollowValue, membersWords, isSeam]

mutual

/-- The words of a value keep apart before anything a value may stand
before. -/
theorem row_words : ∀ {v : Json}, v.IsWritable → ∀ {rest : List Word}, Row rest →
    MayFollowValue rest → Row (v.words ++ rest)
  | null, h, _, _, _ => absurd h (by simp [IsWritable])
  | boolean b, _, _, hrest, hhead => row_value (isWord_boolean b) (.inl rfl) hrest hhead
  | string s, _, _, hrest, hhead => row_value (isWord_basicText s) (.inr rfl) hrest hhead
  | array [], _, _, hrest, _ => row_mark rfl (row_mark rfl hrest)
  | array (v :: vs), h, rest, hrest, _ => by
      simp only [IsWritable, AreWritable] at h
      obtain ⟨hv, hvs⟩ := h
      have hclose : Row ((.bracketClose, [']']) :: rest) := row_mark rfl hrest
      have hseam : MayFollowValue ((.bracketClose, [']']) :: rest) := by
        simp [MayFollowValue, isSeam]
      have hitems := row_itemsWords hvs hclose hseam
      have hfirst := row_words hv hitems (mayFollowValue_itemsWords hseam)
      simpa [words] using row_mark (k := .bracketOpen) rfl hfirst
  | object [], _, _, hrest, _ => row_mark rfl (row_mark rfl hrest)
  | object ((k, v) :: members), h, rest, hrest, _ => by
      simp only [IsWritable, MembersWritable] at h
      obtain ⟨-, hk, hv, hms⟩ := h
      have hclose : Row ((.blank, [' ']) :: (.braceClose, ['\x7d']) :: rest) :=
        row_space (row_mark rfl hrest) (by simp [NoBlank])
      have hseam : MayFollowValue ((.blank, [' ']) :: (.braceClose, ['\x7d']) :: rest) := by
        simp [MayFollowValue, isSeam]
      have hmembers := row_membersWords hms hclose hseam
      have hpair := row_pair hk hv
        (row_words hv hmembers (mayFollowValue_membersWords hseam))
      simpa [words] using row_mark (k := .braceOpen) rfl
        (row_space hpair (noBlank_name hk _))

theorem row_itemsWords : ∀ {vs : List Json}, AreWritable vs → ∀ {rest : List Word}, Row rest →
    MayFollowValue rest → Row (itemsWords vs ++ rest)
  | [], _, _, hrest, _ => hrest
  | v :: vs, h, rest, hrest, hhead => by
      obtain ⟨hv, hvs⟩ := h
      have hitems := row_itemsWords hvs hrest hhead
      have hfirst := row_words hv hitems (mayFollowValue_itemsWords hhead)
      simpa [itemsWords] using row_mark (k := .comma) rfl
        (row_space hfirst (noBlank_words hv _))

theorem row_membersWords : ∀ {ms : List (String × Json)}, MembersWritable ms →
    ∀ {rest : List Word}, Row rest → MayFollowValue rest → Row (membersWords ms ++ rest)
  | [], _, _, hrest, _ => hrest
  | (k, v) :: ms, h, rest, hrest, hhead => by
      obtain ⟨hk, hv, hms⟩ := h
      have hmembers := row_membersWords hms hrest hhead
      have hpair := row_pair hk hv (row_words hv hmembers (mayFollowValue_membersWords hhead))
      simpa [membersWords] using row_mark (k := .comma) rfl
        (row_space hpair (noBlank_name hk _))

end

end Json

/-! ## Lines -/

open Json

/-- The words of a pair. -/
def pairWords (k : String) (v : Json) : List Word :=
  (.bare, k.toList) :: (.blank, [' ']) :: (.equals, ['=']) :: (.blank, [' ']) :: v.words

/-- The words of the line of a key, behind the name of its section if it
stands there. -/
def lineWords : Option String → String × Json → List Word
  | none, (k, v) => pairWords k v ++ [(.newline, ['\n'])]
  | some name, (k, v) =>
    (.bare, name.toList) :: (.dot, ['.']) :: pairWords k v ++ [(.newline, ['\n'])]

/-- The words of a section. -/
def Spelling.words : Spelling → String × List (String × Json) → List Word
  | headers, (name, fields) =>
    (.bracketOpen, ['[']) :: (.bare, name.toList) :: (.bracketClose, [']']) ::
      (.newline, ['\n']) :: fields.flatMap (lineWords none)
  | dottedKeys, (name, fields) => fields.flatMap (lineWords (some name))
  | inlineTables, (name, fields) => lineWords none (name, .object fields)

theorem lettering_flatMap {α : Type} (f : α → List Word) : ∀ xs : List α,
    lettering (xs.flatMap f) = xs.flatMap fun x => lettering (f x)
  | [] => rfl
  | x :: xs => by simp [lettering_flatMap f xs]

theorem lettering_lineWords_none (m : String × Json) :
    lettering (lineWords none m) = line m.1.toList m.2 := by
  simp [lineWords, pairWords, line, lettering_words]

theorem lettering_lineWords_some (name : String) (m : String × Json) :
    lettering (lineWords (some name) m) = line (name.toList ++ '.' :: m.1.toList) m.2 := by
  simp [lineWords, pairWords, line, lettering_words]

theorem Spelling.lettering_words (w : Spelling) (m : String × List (String × Json)) :
    lettering (w.words m) = w.text m := by
  cases w with
  | headers => simp [words, text, lettering_flatMap, lettering_lineWords_none]
  | dottedKeys => simp [words, text, lettering_flatMap, lettering_lineWords_some]
  | inlineTables => simp [words, text, lettering_lineWords_none]

/-- The words of the document. -/
def Settings.words (s : Settings) (w : Spelling) : List Word := s.sections.flatMap w.words

theorem Settings.lettering_words (s : Settings) (w : Spelling) :
    lettering (s.words w) = s.document w := by
  simp only [words, document, lettering_flatMap, Spelling.lettering_words]

/-! ## Lines keep apart -/

/-- A row that may stand at the start of a line. -/
def LineStart (ws : List Word) : Prop :=
  Row ws ∧ ∀ c ∈ (lettering ws).head?, c ≠ '\n' ∧ c ≠ '\r'

theorem lineStart_nil : LineStart [] := ⟨trivial, by simp⟩

theorem LineStart.row_newline {rest : List Word} (h : LineStart rest) :
    Row ((.newline, ['\n']) :: rest) :=
  ⟨isWord_newline, fun c hc => by simp [Kind.endsBefore, h.2 c hc], h.1⟩

theorem LineStart.of_name {name : String} {rest : List Word} (hn : IsBareName name.toList)
    (hrow : Row ((.bare, name.toList) :: rest)) : LineStart ((.bare, name.toList) :: rest) := by
  refine ⟨hrow, ?_⟩
  obtain ⟨d, ds, hname, hd⟩ := hn.exists_cons
  rw [lettering_cons, hname]
  intro c hcd
  cases hcd
  exact ⟨ne_of_isAlpha hd (by decide), ne_of_isAlpha hd (by decide)⟩

theorem LineStart.line (name? : Option String) {k : String} {v : Json} {rest : List Word}
    (hname : ∀ name ∈ name?, IsBareName name.toList) (hk : IsBareName k.toList)
    (hv : v.IsWritable) (hrest : LineStart rest) : LineStart (lineWords name? (k, v) ++ rest) := by
  have hpair : Row (pairWords k v ++ (.newline, ['\n']) :: rest) :=
    row_pair hk hv (row_words hv hrest.row_newline (by simp [MayFollowValue, isSeam]))
  cases name? with
  | none => simpa [lineWords, pairWords] using LineStart.of_name hk hpair
  | some name =>
    have hn := hname name rfl
    have hdot := row_name hn (row_mark (c := '.') rfl hpair) (by simp [isNameEnd])
    simpa [lineWords] using LineStart.of_name hn hdot

theorem LineStart.lines (name? : Option String) (hname : ∀ name ∈ name?, IsBareName name.toList)
    {rest : List Word} (hrest : LineStart rest) : ∀ {fields : List (String × Json)},
    MembersWritable fields → LineStart (fields.flatMap (lineWords name?) ++ rest)
  | [], _ => hrest
  | (k, v) :: fields, h => by
      obtain ⟨hk, hv, hfields⟩ := h
      rw [List.flatMap_cons, List.append_assoc]
      exact LineStart.line name? hname hk hv (LineStart.lines name? hname hrest hfields)

/-- A section that can be written: a bare name and an object. -/
def IsSection (m : String × List (String × Json)) : Prop :=
  IsBareName m.1.toList ∧ (Json.object m.2).IsWritable

theorem LineStart.section {m : String × List (String × Json)} (hm : IsSection m)
    {rest : List Word} (hrest : LineStart rest) (w : Spelling) : LineStart (w.words m ++ rest) := by
  obtain ⟨name, fields⟩ := m
  obtain ⟨hn, hobject⟩ := hm
  have hfields : MembersWritable fields := by
    simp only [IsWritable] at hobject
    exact hobject.2
  cases w with
  | headers =>
    have hlines := LineStart.lines none (by simp) hrest hfields
    have hname := row_name hn (row_mark (c := ']') rfl hlines.row_newline) (by simp [isNameEnd])
    refine ⟨by simpa [Spelling.words] using row_mark (c := '[') rfl hname, ?_⟩
    simp [Spelling.words]
  | dottedKeys => exact LineStart.lines (some name) (by simpa using hn) hrest hfields
  | inlineTables => exact LineStart.line none (by simp) hn hobject hrest

theorem LineStart.sections (w : Spelling) : ∀ {ms : List (String × List (String × Json))},
    (∀ m ∈ ms, IsSection m) → LineStart (ms.flatMap w.words)
  | [], _ => lineStart_nil
  | m :: ms, h => by
      rw [List.flatMap_cons]
      exact LineStart.section (h m List.mem_cons_self)
        (LineStart.sections w fun x hx => h x (List.mem_cons_of_mem _ hx)) w

end AuditSettings
