/-
AuditSettings.Proofs.Toml.Joining — the document of a text made of parts.

A document that ends where an item is finished goes on after a line break as
if it began there: one line break or many, the next item is expected on a new
line, and nothing that was read before has a part in reading on. So a text
that is a document can be put before another one (`walk_append_break`), and a
header with the pairs of a third text can be put between them: the document
of the whole has one section more, and is otherwise that of the two
(`ofText_withSection`).
-/
import AuditSettings.Proofs.Toml.AtOrigin
import AuditSettings.Proofs.Toml.Marks

namespace AuditSettings.Toml

open AuditSettings.Text

namespace Draft

/-! ## Line breaks -/

/-- The draft after a line break. -/
def onNewLine (d : Draft) : Option Draft := d.step (.newline, ['\n'])

/-- All rows of line breaks are read alike. -/
theorem step_newline (d : Draft) (w : List Char) : d.step (.newline, w) = d.onNewLine := by
  obtain ⟨items, expecting⟩ := d
  cases expecting with
  | keyEnd use key => cases use <;> rfl
  | item onNewLine => rfl
  | headerKind l => rfl
  | name use before => rfl
  | secondBracket l key => rfl
  | value place => rfl
  | arrayRest outer l before last => rfl
  | inlineRest outer l before last => rfl

/-- Two rows of line breaks are read as one. -/
theorem onNewLine_onNewLine (d : Draft) : d.onNewLine.bind onNewLine = d.onNewLine := by
  obtain ⟨items, expecting⟩ := d
  cases expecting with
  | item onNewLine =>
    show some (atOrigin ⟨_, .item true⟩) = some _
    simp [atOrigin, Function.comp_def, Expecting.atOrigin, expect]
  | keyEnd use key => cases use <;> rfl
  | headerKind l => rfl
  | name use before => cases before <;> rfl
  | secondBracket l key => rfl
  | value place => rfl
  | arrayRest outer l before last => exact congrArg some (atOrigin_atOrigin _)
  | inlineRest outer l before last => rfl

/-- Line breaks before a text are read as one. -/
theorem walk_breaks {p : List Char} (hp : AreBreaks p) (d : Draft) (rest : List Char) :
    d.walk (wordsOf (p ++ rest)) = d.onNewLine.bind fun d' => d'.walk (wordsOf rest) := by
  rcases wordsOf_breaks hp rest with hwords | ⟨q, rest', hwords, q', hrest⟩
  · rw [hwords, walk_cons, step_newline]
  · rw [hwords, walk_cons, step_newline, hrest, ← onNewLine_onNewLine d, Option.bind_assoc]
    simp only [walk_cons, step_newline]
    rw [← Option.bind_assoc, onNewLine_onNewLine, ← Option.bind_assoc, onNewLine_onNewLine]

/-- A text that was read to its end goes on after a line break. -/
theorem walk_append_break {u : List Char} {d d' : Draft} (h : d.walk (wordsOf u) = some d')
    (v : List Char) :
    d.walk (wordsOf (u ++ '\n' :: v)) = d'.onNewLine.bind fun e => e.walk (wordsOf v) := by
  -- by the length of what is still to be read, word by word
  induction hlength : u.length using Nat.strong_induction_on generalizing u d with
  | _ n ih =>
    have hbegins : u = [] ∨ Begins u := by
      cases u with
      | nil => exact .inl rfl
      | cons c u => exact .inr (begins_cons c u)
    rcases hbegins with rfl | hbegins
    · obtain rfl : d = d' := Option.some.inj h
      have hbreak : AreBreaks ['\n'] := ⟨by simp, rfl⟩
      exact walk_breaks hbreak d v
    cases hbegins with
    | stray hwords =>
      rw [hwords] at h
      cases h
    | @breaks p rest hp =>
      rw [walk_breaks hp] at h
      obtain ⟨e, he, h⟩ := Option.bind_eq_some_iff.1 h
      have hpos : 0 < p.length := List.length_pos_iff.2 hp.1
      rw [List.append_assoc, walk_breaks hp, he]
      refine ih rest.length ?_ h rfl
      rw [← hlength, List.length_append]
      omega
    | @word k w rest hw hwords hbreak =>
      rw [hwords, walk_cons] at h
      obtain ⟨e, he, h⟩ := Option.bind_eq_some_iff.1 h
      have hpos : 0 < w.length := List.length_pos_iff.2 hw
      rw [List.append_assoc, hbreak, walk_cons, he]
      refine ih rest.length ?_ h rfl
      rw [← hlength, List.length_append]
      omega

end Draft

/-! ## The header of a section -/

theorem Draft.step_of_take {d d' : Draft} {k : Kind} {cs : List Char}
    (h : d.take ⟨k, cs, .origin⟩ = .ok d') (hd : d'.atOrigin = d') : d.step (k, cs) = some d' := by
  rw [step, h, outcome_ok, hd]

/-- An opening bracket where an item may stand begins a header. -/
theorem Draft.walk_bracket {items : List Item} (hitems : items.map Item.atOrigin = items)
    (cs : List Char) : Draft.walk ⟨items, .item true⟩ (wordsOf ('[' :: cs)) =
      Draft.walk ⟨items, .headerKind .origin⟩ (wordsOf cs) := by
  have hopen : wordsOf ('[' :: cs) = (.bracketOpen, ['[']) :: wordsOf cs :=
    wordsOf_lexeme (by simp) ((isWord_mark rfl).2 _ (by simp [Kind.endsBefore]))
  have hbegin : Draft.take ⟨items, .item true⟩ ⟨.bracketOpen, ['['], .origin⟩ =
      .ok ⟨items, .headerKind .origin⟩ := rfl
  rw [hopen, walk_cons, step_of_take hbegin (by rw [Draft.atOrigin, hitems]; rfl), Option.bind_some]

/-- A bare key between brackets is a table header. -/
theorem Draft.walk_header {n : List Char} (hn : IsName n) {items : List Item}
    (hitems : items.map Item.atOrigin = items) (rest : List Char) :
    Draft.walk ⟨items, .item true⟩ (wordsOf ('[' :: (n ++ ']' :: rest))) =
      Draft.walk ⟨.heading (.table .origin (.single ⟨String.ofList n, .origin⟩)) :: items,
        .item false⟩ (wordsOf rest) := by
  obtain ⟨k, hk, hword, hkey⟩ := hn.word
  have hclose : wordsOf (']' :: rest) = (.bracketClose, [']']) :: wordsOf rest :=
    wordsOf_lexeme (by simp) ((isWord_mark rfl).2 _ (by simp [Kind.endsBefore]))
  have hat (e : Expecting) (he : e.atOrigin = e) : Draft.atOrigin ⟨items, e⟩ = ⟨items, e⟩ := by
    rw [Draft.atOrigin, hitems, he]
  have hname : Draft.take ⟨items, .headerKind .origin⟩ ⟨k, n, .origin⟩ =
      .ok ⟨items, .keyEnd (.header .origin) (.single ⟨String.ofList n, .origin⟩)⟩ := by
    have hread : Draft.take ⟨items, .headerKind .origin⟩ ⟨k, n, .origin⟩ =
        Draft.takeName ⟨items, .headerKind .origin⟩ (.header .origin) none ⟨k, n, .origin⟩ := by
      simp only [nameKinds, List.mem_cons, List.not_mem_nil, or_false] at hk
      rcases hk with rfl | rfl | rfl | rfl | rfl | rfl | rfl <;> rfl
    rw [hread, Draft.takeName, if_neg (by simp), hkey]
    rfl
  have hend : Draft.take ⟨items, .keyEnd (.header .origin) (.single ⟨String.ofList n, .origin⟩)⟩
      ⟨.bracketClose, [']'], .origin⟩ =
      .ok ⟨.heading (.table .origin (.single ⟨String.ofList n, .origin⟩)) :: items, .item false⟩ :=
    rfl
  rw [walk_bracket hitems, hword, walk_cons, step_of_take hname (hat _ rfl), hclose,
    Option.bind_some, walk_cons, step_of_take hend, Option.bind_some]
  simp [atOrigin, hitems, Item.atOrigin, Heading.atOrigin, Key.atOrigin, Key.single,
    KeyPart.atOrigin, Expecting.atOrigin]

/-- A bare key that is no name is refused there. -/
theorem Draft.walk_header_eq_none {n : List Char} (hne : n ≠ [])
    (hbare : ∀ c ∈ n, isBare c = true) (hn : ¬ IsName n) {items : List Item}
    (hitems : items.map Item.atOrigin = items) (rest : List Char) :
    Draft.walk ⟨items, .item true⟩ (wordsOf ('[' :: (n ++ ']' :: rest))) = none := by
  obtain ⟨hword, hkind, hkey⟩ := exists_word_of_not_isName hne hbare hn
  obtain ⟨e, he⟩ := hkey .origin
  have hread : Draft.take ⟨items, .headerKind .origin⟩ ⟨(lexeme n).1, n, .origin⟩ =
      Draft.takeName ⟨items, .headerKind .origin⟩ (.header .origin) none
        ⟨(lexeme n).1, n, .origin⟩ := by
    rcases hkind with hk | hk <;> rw [hk] <;> rfl
  have hfail : Draft.take ⟨items, .headerKind .origin⟩ ⟨(lexeme n).1, n, .origin⟩ = .error e := by
    rw [hread, Draft.takeName, if_neg (by simp), he]
    rfl
  rw [walk_bracket hitems, hword, walk_cons, step, hfail, outcome_error, Option.bind_none]

/-! ## Drafts that are finished -/

namespace Draft

theorem walk_atOrigin_eq {ws : List Word} {d d' : Draft} (hd : d.atOrigin = d)
    (h : d.walk ws = some d') : d'.atOrigin = d' := by
  induction ws generalizing d with
  | nil =>
    obtain rfl : d = d' := Option.some.inj h
    exact hd
  | cons w ws ih =>
    rw [walk_cons] at h
    obtain ⟨e, he, h⟩ := Option.bind_eq_some_iff.1 h
    obtain ⟨e', -, rfl⟩ := Option.map_eq_some_iff.1 he
    exact ih (atOrigin_atOrigin e') h

/-- A finished draft that goes on after a line break expects an item. -/
theorem expecting_of_onNewLine {d d' : Draft} {doc : Document} (h : d.finished = some doc)
    (h' : d.onNewLine = some d') : ∃ y, d.expecting = .item y := by
  obtain ⟨items, expecting⟩ := d
  cases expecting with
  | item y => exact ⟨y, rfl⟩
  | secondBracket l key => cases h'
  | name use before => cases before <;> cases h
  | headerKind l => cases h
  | keyEnd use key => cases h
  | value place => cases h
  | arrayRest outer l before last => cases h
  | inlineRest outer l before last => cases h

/-- A text that ends where an item is finished adds its items, whatever comes
before and after it. -/
theorem walk_lines {u : List Char} {items base : List Item} {y : Bool}
    (h : empty.walk (wordsOf u) = some ⟨items, .item y⟩) (hbase : base.map Item.atOrigin = base)
    (v : List Char) : walk ⟨base, .item true⟩ (wordsOf (u ++ '\n' :: v)) =
      walk ⟨items ++ base, .item true⟩ (wordsOf v) := by
  have hitems : items.map Item.atOrigin = items := congrArg Draft.items (walk_atOrigin_eq rfl h)
  have hread : walk ⟨base, .item true⟩ (wordsOf u) = some ⟨items ++ base, .item y⟩ := by
    have honto := walk_onto hbase (wordsOf u) empty
    rw [h] at honto
    exact honto
  have hbreak : onNewLine ⟨items ++ base, .item y⟩ = some ⟨items ++ base, .item true⟩ := by
    have htake : take ⟨items ++ base, .item y⟩ ⟨.newline, ['\n'], .origin⟩ =
        .ok ⟨items ++ base, .item true⟩ := rfl
    exact step_of_take htake (by simp [atOrigin, hitems, hbase, Expecting.atOrigin])
  rw [walk_append_break hread, hbreak, Option.bind_some]

/-- The items of a finished draft come after those that were finished before
it. -/
theorem exists_items {d : Draft} {first : List Item} {doc : Document}
    (h : (d.onto first).finished = some doc) :
    ∃ items, ∀ base : List Item, base.map Item.atOrigin = base →
      (d.onto base).finished = some (.ofItems (base.reverse ++ items)) := by
  obtain ⟨items, expecting⟩ := d
  have hfinished (items : List Item) (b : Bool) : finished ⟨items, .item b⟩ =
      some (.ofItems (items.map Item.atOrigin).reverse) := by
    rw [finished, finish, ← List.map_reverse, ← Document.atOrigin_ofItems]
    rfl
  cases expecting with
  | item b =>
    refine ⟨(items.map Item.atOrigin).reverse, fun base hbase => ?_⟩
    rw [onto, hfinished, List.map_append, hbase, List.reverse_append]
  | secondBracket l key =>
    have hlast (items : List Item) : finished ⟨items, .secondBracket l key⟩ =
        finished ⟨.heading (.element l key) :: items, .item true⟩ := rfl
    refine ⟨((Item.heading (.element l key) :: items).map Item.atOrigin).reverse,
      fun base hbase => ?_⟩
    rw [onto, hlast, hfinished, List.map_cons, List.map_append, hbase, List.map_cons,
      ← List.cons_append, List.reverse_append]
  | name use before => cases before <;> cases h
  | headerKind l => cases h
  | keyEnd use key => cases h
  | value place => cases h
  | arrayRest outer l before last => cases h
  | inlineRest outer l before last => cases h

end Draft

/-! ## Documents -/

namespace Document

/-- Items before others of which none is a pair before the first header. -/
theorem ofItems_append (items : List Item) {more : List Item} (h : (ofItems more).opening = []) :
    ofItems (items ++ more) =
      ⟨(ofItems items).opening, (ofItems items).sections ++ (ofItems more).sections⟩ := by
  induction items with
  | nil =>
    show ofItems more = ⟨[], (ofItems more).sections⟩
    generalize ofItems more = d at h
    cases d
    cases h
    rfl
  | cons i items ih =>
    have hcons (items : List Item) : ofItems (i :: items) = (ofItems items).cons i := rfl
    rw [List.cons_append, hcons, ih, hcons]
    cases i <;> rfl

/-- A header and the pairs that follow it are a section between the sections
before and after it. -/
theorem ofItems_section (first : List Item) {pairs second : List Item} (h : Heading)
    (hpairs : (ofItems pairs).sections = []) (hsecond : (ofItems second).opening = []) :
    ofItems (first ++ .heading h :: (pairs ++ second)) = ⟨(ofItems first).opening,
      (ofItems first).sections ++ ⟨h, (ofItems pairs).opening⟩ :: (ofItems second).sections⟩ := by
  have hsection : ofItems (.heading h :: (pairs ++ second)) =
      ⟨[], ⟨h, (ofItems pairs).opening⟩ :: (ofItems second).sections⟩ := by
    show (ofItems (pairs ++ second)).cons (.heading h) = _
    rw [ofItems_append _ hsecond, hpairs]
    rfl
  rw [ofItems_append _ (by rw [hsection]), hsection]

/-- The text is a document of pairs only. -/
def IsPairs (cs : List Char) : Prop := ∃ d, ofText cs = .ok d ∧ d.sections = []

/-- No pair stands before the first header of the text, if it is a
document. -/
def IsSections (cs : List Char) : Prop := ∀ d, ofText cs = .ok d → d.opening = []

theorem isSections_nil : IsSections [] := by
  intro d hd
  cases hd
  rfl

/-- A text that begins with a bracket begins with a header. -/
theorem isSections_bracket (cs : List Char) : IsSections ('[' :: cs) := by
  intro d hd
  have hspelled := ofText_spelled hd
  have hscan : Token.scan ('[' :: cs) = ⟨.bracketOpen, ['['], .origin⟩ ::
      Token.scanFrom (Location.origin.after ['[']) 0 cs :=
    scanFrom_lexeme _ (by simp) ((isWord_mark rfl).2 _ (by simp [Kind.endsBefore]))
  rw [hscan] at hspelled
  cases hopening : d.opening with
  | nil => rfl
  | cons p ps =>
    -- then the first mark would be a name
    have hname : d.marks.head? = some (.name p.1.head) := by
      rw [marks, hopening]
      rfl
    obtain ⟨ms, ns, hmarks, hspells⟩ : ∃ ms ns, d.marks = ms ++ ns ∧
        Token.Spells ⟨.bracketOpen, ['['], .origin⟩ ms := by
      generalize d.marks = marks at hspelled
      cases hspelled with
      | cons hspells _ => exact ⟨_, _, rfl, hspells⟩
    rw [hmarks] at hname
    cases hspells with
    | nothing hk => simp at hk
    | names hkey => cases hkey
    | scalar hv => cases hv
    | equals hk => cases hk
    | openBracket hk => cases hname
    | secondBracket hk => cases hname
    | closeBracket hk => cases hk
    | openBrace hk => cases hk
    | closeBrace hk => cases hk

/-- A text that is put together from two parts and a section between them. -/
def withSection (t₁ n b t₂ : List Char) : List Char :=
  t₁ ++ ['\n', '['] ++ n ++ [']', '\n'] ++ b ++ ['\n'] ++ t₂

theorem withSection_eq (t₁ n b t₂ : List Char) : withSection t₁ n b t₂ =
    t₁ ++ '\n' :: ('[' :: (n ++ ']' :: (['\n'] ++ (b ++ '\n' :: t₂)))) := by
  simp [withSection]

theorem exists_walk {cs : List Char} {d : Document} (h : ofText cs = .ok d) :
    ∃ r, Draft.empty.walk (wordsOf cs) = some r ∧ r.finished = some d.atOrigin ∧ r.atOrigin = r := by
  have hwalk := ofText_atOrigin cs
  rw [h] at hwalk
  obtain ⟨r, hr, hfinished⟩ := Option.bind_eq_some_iff.1 hwalk.symm
  exact ⟨r, hr, hfinished, Draft.walk_atOrigin_eq rfl hr⟩

theorem exists_ofText {cs : List Char} {d : Document} {r : Draft}
    (h : Draft.empty.walk (wordsOf cs) = some r) (hr : r.finished = some d) :
    ∃ d', ofText cs = .ok d' ∧ d'.atOrigin = d := by
  have hwalk := ofText_atOrigin cs
  rw [h, Option.bind_some, hr] at hwalk
  exact exists_of_toOption_map hwalk

/-- A document of pairs adds them, whatever comes before and after it. -/
theorem exists_pairs {b : List Char} {e : Document} (hb : ofText b = .ok e) (he : e.sections = []) :
    ∃ pairs : List Item, pairs.map Item.atOrigin = pairs ∧ e.atOrigin = ofItems pairs.reverse ∧
      ∀ base : List Item, base.map Item.atOrigin = base → ∀ v,
        Draft.walk ⟨base, .item true⟩ (wordsOf (b ++ '\n' :: v)) =
          Draft.walk ⟨pairs ++ base, .item true⟩ (wordsOf v) := by
  obtain ⟨⟨items, expecting⟩, hwalk, hfinished, hat⟩ := exists_walk hb
  have hitems : items.map Item.atOrigin = items := congrArg Draft.items hat
  cases expecting with
  | item y =>
    have hdoc : some (ofItems items.reverse).atOrigin = some e.atOrigin := hfinished
    refine ⟨items, hitems, ?_, fun base hbase v => Draft.walk_lines hwalk hbase v⟩
    rw [← Option.some.inj hdoc, atOrigin_ofItems, List.map_reverse, hitems]
  | secondBracket l key =>
    -- then the text would end in a header
    have hdoc : some (ofItems (.heading (.element l key) :: items).reverse).atOrigin =
        some e.atOrigin := hfinished
    have hsections := congrArg sections (Option.some.inj hdoc)
    rw [List.reverse_cons, ofItems_append _ rfl] at hsections
    simp [atOrigin, he, ofItems, cons] at hsections
  | name use before => cases before <;> cases hfinished
  | headerKind l => cases hfinished
  | keyEnd use key => cases hfinished
  | value place => cases hfinished
  | arrayRest outer l before last => cases hfinished
  | inlineRest outer l before last => cases hfinished

/-- A text of two documents, of which the second has no pair before its first
header, is read as the first and then the second. -/
theorem exists_parts {t₁ t₂ : List Char} {d₁ d : Document} (h₁ : ofText t₁ = .ok d₁)
    (h₂ : IsSections t₂) (h : ofText (t₁ ++ '\n' :: t₂) = .ok d) :
    ∃ (first second : List Item) (r : Draft), first.map Item.atOrigin = first ∧
      (∀ v, Draft.empty.walk (wordsOf (t₁ ++ '\n' :: v)) =
        Draft.walk ⟨first, .item true⟩ (wordsOf v)) ∧
      Draft.empty.walk (wordsOf t₂) = some r ∧ (ofItems second).opening = [] ∧
      d.atOrigin = ofItems (first.reverse ++ second) ∧
      ∀ base : List Item, base.map Item.atOrigin = base →
        (r.onto base).finished = some (ofItems (base.reverse ++ second)) := by
  obtain ⟨⟨first, expecting⟩, hwalk₁, hfinished₁, hat₁⟩ := exists_walk h₁
  obtain ⟨r, hwalk, hfinished, -⟩ := exists_walk h
  obtain ⟨y, rfl⟩ : ∃ y, expecting = .item y := by
    rw [Draft.walk_append_break hwalk₁] at hwalk
    obtain ⟨s, hs, -⟩ := Option.bind_eq_some_iff.1 hwalk
    exact Draft.expecting_of_onNewLine hfinished₁ hs
  have hfirst : first.map Item.atOrigin = first := congrArg Draft.items hat₁
  have hread (v : List Char) : Draft.empty.walk (wordsOf (t₁ ++ '\n' :: v)) =
      Draft.walk ⟨first, .item true⟩ (wordsOf v) := by
    have hnone : ([] : List Item).map Item.atOrigin = [] := rfl
    have hlines := Draft.walk_lines hwalk₁ hnone v
    rwa [List.append_nil] at hlines
  have honto := Draft.walk_onto hfirst (wordsOf t₂) Draft.empty
  rw [hread, show (⟨first, .item true⟩ : Draft) = Draft.empty.onto first from rfl, honto] at hwalk
  obtain ⟨r₂, hwalk₂, rfl⟩ := Option.map_eq_some_iff.1 hwalk
  obtain ⟨second, hsecond⟩ := Draft.exists_items hfinished
  have hdoc := hsecond _ hfirst
  rw [hfinished] at hdoc
  refine ⟨first, second, r₂, hfirst, hread, hwalk₂, ?_, Option.some.inj hdoc, hsecond⟩
  have hself : r₂.finished = some (ofItems second) := by
    have hnone := hsecond [] rfl
    rwa [Draft.onto, List.append_nil] at hnone
  obtain ⟨d₂, hd₂, hat₂⟩ := exists_ofText hwalk₂ hself
  rw [← hat₂]
  simp [atOrigin, h₂ d₂ hd₂, Expr.pairsAtOrigin]

/-- The document of a text with a section put into it has that section more,
and is otherwise, apart from where everything stands, the document of the text
without it. -/
theorem ofText_withSection {t₁ t₂ b n : List Char} {d₁ d e : Document}
    (h₁ : ofText t₁ = .ok d₁) (h₂ : IsSections t₂) (h : ofText (t₁ ++ '\n' :: t₂) = .ok d)
    (hb : ofText b = .ok e) (he : e.sections = []) (hn : IsName n) :
    ∃ opening before after d', ofText (withSection t₁ n b t₂) = .ok d' ∧
      d.atOrigin = ⟨opening, before ++ after⟩ ∧
      d'.atOrigin = ⟨opening, before ++ ⟨.table .origin (.single ⟨String.ofList n, .origin⟩),
        e.atOrigin.opening⟩ :: after⟩ := by
  obtain ⟨first, second, r, hfirst, hread₁, hwalk₂, hopening, hdoc, hfinished⟩ :=
    exists_parts h₁ h₂ h
  obtain ⟨pairs, hpairs, hedoc, hreadb⟩ := exists_pairs hb he
  obtain ⟨g, hg⟩ : ∃ g, g = Heading.table .origin (.single ⟨String.ofList n, .origin⟩) := ⟨_, rfl⟩
  have hbase : (.heading g :: first).map Item.atOrigin = .heading g :: first := by
    rw [List.map_cons, hfirst, hg]
    rfl
  have hall : (pairs ++ .heading g :: first).map Item.atOrigin = pairs ++ .heading g :: first := by
    rw [List.map_append, hpairs, hbase]
  -- the whole is read part by part
  have hwalk : Draft.empty.walk (wordsOf (withSection t₁ n b t₂)) =
      some (r.onto (pairs ++ .heading g :: first)) := by
    have hbreak : AreBreaks ['\n'] := ⟨by simp, rfl⟩
    have hnew : Draft.onNewLine ⟨.heading g :: first, .item false⟩ =
        some ⟨.heading g :: first, .item true⟩ := by
      have htake : Draft.take ⟨.heading g :: first, .item false⟩ ⟨.newline, ['\n'], .origin⟩ =
          .ok ⟨.heading g :: first, .item true⟩ := rfl
      exact Draft.step_of_take htake (by rw [Draft.atOrigin, hbase]; rfl)
    have honto := Draft.walk_onto hall (wordsOf t₂) Draft.empty
    rw [hwalk₂] at honto
    rw [withSection_eq, hread₁, Draft.walk_header hn hfirst, ← hg, Draft.walk_breaks hbreak, hnew,
      Option.bind_some, hreadb _ hbase]
    exact honto
  obtain ⟨d', hd', hat'⟩ := exists_ofText hwalk (hfinished _ hall)
  have hpairsSections : (ofItems pairs.reverse).sections = [] := by
    rw [← hedoc]
    simp [atOrigin, he]
  refine ⟨(ofItems first.reverse).opening, (ofItems first.reverse).sections,
    (ofItems second).sections, d', hd', ?_, ?_⟩
  · rw [hdoc, ofItems_append _ hopening]
  · have hreverse : (pairs ++ .heading g :: first).reverse ++ second =
        first.reverse ++ .heading g :: (pairs.reverse ++ second) := by simp
    rw [hat', hreverse, ofItems_section _ _ hpairsSections hopening, hedoc, hg]

/-- A text with a section put into it is none of a document when what stands
between the brackets is a bare key but no name. -/
theorem ofText_withSection_ne_ok {t₁ t₂ n : List Char} {d₁ d : Document}
    (h₁ : ofText t₁ = .ok d₁) (h₂ : IsSections t₂) (h : ofText (t₁ ++ '\n' :: t₂) = .ok d)
    (hne : n ≠ []) (hbare : ∀ c ∈ n, isBare c = true) (hn : ¬ IsName n) (b : List Char)
    (d' : Document) : ofText (withSection t₁ n b t₂) ≠ .ok d' := by
  intro hd'
  obtain ⟨first, -, -, hfirst, hread₁, -⟩ := exists_parts h₁ h₂ h
  obtain ⟨r, hwalk, -⟩ := exists_walk hd'
  rw [withSection_eq, hread₁, Draft.walk_header_eq_none hne hbare hn hfirst] at hwalk
  cases hwalk

end Document

end AuditSettings.Toml
