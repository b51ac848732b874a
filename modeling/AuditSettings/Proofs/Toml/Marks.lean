/-
AuditSettings.Proofs.Toml.Marks — a document says what its text says.

A document is put back into marks: the names of its keys, its scalars, and
the signs that hold them together, in order. Each token of a text spells
some marks, by its kind and characters alone: most spell one, a number
with a point can spell two names, and white space spells none. What an
accepted text spells is exactly the marks of its document
(`ofText_spelled`), so nothing in a document was lost, added or moved on
the way from the text.

The walk over the tokens keeps this at every step: one token adds what it
spells to the marks of the draft.
-/
import AuditSettings.Proofs.Outcome
import AuditSettings.Toml.Parse

namespace AuditSettings.Toml

open AuditSettings.Text

/-- One thing that is written in a document, and where. -/
inductive Mark where
  | name (part : KeyPart)
  | scalar (location : Location) (value : Scalar)
  | equals
  | openBracket (location : Location)
  /-- The second opening bracket of an array header. -/
  | secondBracket
  | closeBracket
  | openBrace (location : Location)
  | closeBrace
deriving DecidableEq, Repr

/-! ## Marks of a document -/

/-- The names of a key. -/
def Key.marks (k : Key) : List Mark := k.parts.map .name

mutual

/-- What a value is written as. -/
def Expr.marks : Expr → List Mark
  | .scalar l v => [.scalar l v]
  | .array l items => .openBracket l :: Expr.itemMarks items ++ [.closeBracket]
  | .inlineTable l pairs => .openBrace l :: Expr.pairMarks pairs ++ [.closeBrace]

/-- What some items are written as. -/
def Expr.itemMarks : List Expr → List Mark
  | [] => []
  | e :: es => e.marks ++ Expr.itemMarks es

/-- What some pairs are written as. -/
def Expr.pairMarks : List (Key × Expr) → List Mark
  | [] => []
  | (k, e) :: pairs => k.marks ++ .equals :: e.marks ++ Expr.pairMarks pairs

end

/-- What a header is written as. -/
def Heading.marks : Heading → List Mark
  | .table l k => .openBracket l :: k.marks ++ [.closeBracket]
  | .element l k => .openBracket l :: .secondBracket :: k.marks ++ [.closeBracket]

/-- What an item is written as. -/
def Item.marks : Item → List Mark
  | .pair k e => Expr.pairMarks [(k, e)]
  | .heading h => h.marks

/-- What a document is written as. -/
def Document.marks (d : Document) : List Mark :=
  Expr.pairMarks d.opening ++ d.sections.flatMap fun s => s.heading.marks ++ Expr.pairMarks s.pairs

/-! ## Marks of a text -/

/-- What a token spells. White space, comments, commas and dots spell
nothing, and neither does the second closing bracket of an array header,
which may be missing at the end of a text. -/
inductive Token.Spells (t : Token) : List Mark → Prop where
  | nothing (h : t.kind ∈ [.blank, .newline, .comment, .comma, .dot, .bracketClose]) : Spells t []
  | names {k : Key} (h : t.key = .ok k) : Spells t k.marks
  | scalar {v : Scalar} (h : t.scalar = .ok v) : Spells t [.scalar t.start v]
  | equals (h : t.kind = .equals) : Spells t [.equals]
  | openBracket (h : t.kind = .bracketOpen) : Spells t [.openBracket t.start]
  | secondBracket (h : t.kind = .bracketOpen) : Spells t [.secondBracket]
  | closeBracket (h : t.kind = .bracketClose) : Spells t [.closeBracket]
  | openBrace (h : t.kind = .braceOpen) : Spells t [.openBrace t.start]
  | closeBrace (h : t.kind = .braceClose) : Spells t [.closeBrace]

/-- What a row of tokens spells, token after token. -/
inductive Spelled : List Token → List Mark → Prop where
  | nil : Spelled [] []
  | cons {t : Token} {ts : List Token} {ms ns : List Mark} :
    t.Spells ms → Spelled ts ns → Spelled (t :: ts) (ms ++ ns)

/-! ## Marks of a draft -/

theorem Key.marks_append (k l : Key) : (k.append l).marks = k.marks ++ l.marks := by
  simp [marks, parts, append]

theorem Expr.itemMarks_append (es fs : List Expr) :
    itemMarks (es ++ fs) = itemMarks es ++ itemMarks fs := by
  induction es with
  | nil => rfl
  | cons e es ih => simp [itemMarks, ih]

theorem Expr.pairMarks_append (ps qs : List (Key × Expr)) :
    pairMarks (ps ++ qs) = pairMarks ps ++ pairMarks qs := by
  induction ps with
  | nil => rfl
  | cons p ps ih => simp [pairMarks, ih]

/-- What is written up to a value that is still to be read, since the last
finished item. -/
def Place.marks : Place → List Mark
  | .line key => key.marks ++ [.equals]
  | .item outer l before => outer.marks ++ .openBracket l :: Expr.itemMarks before.reverse
  | .pair outer l before key =>
    outer.marks ++ .openBrace l :: Expr.pairMarks before.reverse ++ key.marks ++ [.equals]

/-- What is written up to a key, since the last finished item. -/
def KeyUse.marks : KeyUse → List Mark
  | .header l => [.openBracket l]
  | .arrayHeader l => [.openBracket l, .secondBracket]
  | .line => []
  | .pair outer l before => outer.marks ++ .openBrace l :: Expr.pairMarks before.reverse

/-- What is written since the last finished item. -/
def Expecting.marks : Expecting → List Mark
  | .item _ => []
  | .headerKind l => [.openBracket l]
  | .name use before => use.marks ++ before.elim [] Key.marks
  | .keyEnd use key => use.marks ++ key.marks
  | .secondBracket l key => .openBracket l :: .secondBracket :: key.marks ++ [.closeBracket]
  | .value place => place.marks
  | .arrayRest outer l before _ => outer.marks ++ .openBracket l :: Expr.itemMarks before.reverse
  | .inlineRest outer l before _ => outer.marks ++ .openBrace l :: Expr.pairMarks before.reverse

namespace Draft

/-- What the finished items are written as. -/
def done (d : Draft) : List Mark := d.items.reverse.flatMap Item.marks

/-- What is written so far. -/
def marks (d : Draft) : List Mark := d.done ++ d.expecting.marks

@[simp] theorem marks_expect (d : Draft) (e : Expecting) :
    (d.expect e).marks = d.done ++ e.marks := rfl

@[simp] theorem marks_close (d : Draft) (i : Item) : (d.close i).marks = d.done ++ i.marks := by
  simp [marks, done, close, Expecting.marks]

/-- A value in its place is written after what stands before it. -/
@[simp] theorem marks_fill (d : Draft) (place : Place) (v : Expr) :
    (d.fill place v).marks = d.done ++ (place.marks ++ v.marks) := by
  cases place with
  | line key => simp [marks, done, fill, Place.fill, Expecting.marks, Place.marks, Item.marks,
      Expr.pairMarks]
  | item outer l before => simp [marks, done, fill, Place.fill, Expecting.marks, Place.marks,
      Expr.itemMarks_append, Expr.itemMarks]
  | pair outer l before key => simp [marks, done, fill, Place.fill, Expecting.marks, Place.marks,
      Expr.pairMarks_append, Expr.pairMarks]

/-! ## One token -/

/-- A step from `d` by a token that keeps what was written, of which `prior`
is what was written since the last finished item, and adds what the token
spells. -/
def Adds (d : Draft) (prior : List Mark) (t : Token) (d' : Draft) : Prop :=
  ∃ ms, t.Spells ms ∧ d'.marks = d.done ++ (prior ++ ms)

theorem takeName_adds {d d' : Draft} {use : KeyUse} {before : Option Key} {t : Token}
    (h : d.takeName use before t = .ok d') :
    d.Adds (use.marks ++ before.elim [] Key.marks) t d' := by
  rw [takeName] at h
  split at h
  · cases h
  · obtain ⟨k, hkey, h⟩ := exists_of_bind_eq_ok h
    cases h
    refine ⟨k.marks, .names hkey, ?_⟩
    cases before with
    | none => simp [Expecting.marks]
    | some b => simp [Expecting.marks, Key.marks_append]

theorem takeKeyEnd_adds {d d' : Draft} {use : KeyUse} {key : Key} {t : Token}
    (h : d.takeKeyEnd key t use = .ok d') : d.Adds (use.marks ++ key.marks) t d' := by
  cases use with
  | header l =>
    rw [takeKeyEnd] at h
    split at h
    · next hk =>
      cases h
      exact ⟨_, .closeBracket hk, by simp [Item.marks, Heading.marks, KeyUse.marks]⟩
    · cases h
  | arrayHeader l =>
    rw [takeKeyEnd] at h
    split at h
    · next hk =>
      cases h
      exact ⟨_, .closeBracket hk, by simp [Expecting.marks, KeyUse.marks]⟩
    · cases h
  | line =>
    rw [takeKeyEnd] at h
    split at h
    · next hk =>
      cases h
      exact ⟨_, .equals hk, by simp [Expecting.marks, Place.marks, KeyUse.marks]⟩
    · cases h
  | pair outer l before =>
    rw [takeKeyEnd] at h
    split at h
    · next hk =>
      cases h
      exact ⟨_, .equals hk, by simp [Expecting.marks, Place.marks, KeyUse.marks]⟩
    · cases h

theorem takeValue_adds {d d' : Draft} {place : Place} {t : Token}
    (h : d.takeValue place t = .ok d') : d.Adds place.marks t d' := by
  unfold takeValue at h
  split at h
  · next hk =>
    cases h
    exact ⟨_, .openBracket hk, by simp [Expecting.marks, Expr.itemMarks]⟩
  · next hk =>
    cases h
    exact ⟨_, .openBrace hk, by simp [Expecting.marks, Expr.pairMarks]⟩
  · obtain ⟨v, hv, h⟩ := exists_of_bind_eq_ok h
    cases h
    exact ⟨_, .scalar hv, by simp [Expr.marks]⟩

theorem takeMark_adds {d d' : Draft} {t : Token} (h : d.takeMark t = .ok d') :
    d.Adds d.expecting.marks t d' := by
  obtain ⟨items, expecting⟩ := d
  cases expecting with
  | item onNewLine =>
    simp only [takeMark] at h
    split at h
    · next hk =>
      cases h
      exact ⟨[], .nothing (by simp [hk]), by simp [Expecting.marks]⟩
    split at h
    · cases h
    split at h
    · next hk =>
      cases h
      exact ⟨_, .openBracket hk, by simp [Expecting.marks]⟩
    · exact takeName_adds h
  | headerKind l =>
    simp only [takeMark] at h
    split at h
    · next hk =>
      cases h
      exact ⟨_, .secondBracket hk, by simp [Expecting.marks, KeyUse.marks]⟩
    · have := takeName_adds h
      rwa [Option.elim_none, List.append_nil] at this
  | name use before => exact takeName_adds h
  | keyEnd use key =>
    simp only [takeMark] at h
    split at h
    · next hk =>
      cases h
      exact ⟨[], .nothing (by simp [hk]), by simp [Expecting.marks]⟩
    · exact takeKeyEnd_adds h
  | secondBracket l key =>
    simp only [takeMark] at h
    split at h
    · next hk =>
      cases h
      exact ⟨[], .nothing (by simp [hk]), by simp [Expecting.marks, Item.marks, Heading.marks]⟩
    · cases h
  | value place => exact takeValue_adds h
  | arrayRest outer l before last =>
    simp only [takeMark] at h
    split at h
    · next hk =>
      cases h
      exact ⟨[], .nothing (by simp [hk]), by simp [marks]⟩
    · next hk =>
      cases h
      exact ⟨_, .closeBracket hk, by simp [Expecting.marks, Expr.marks]⟩
    · next hk =>
      split at h
      · cases h
        exact ⟨[], .nothing (by simp [hk]), by simp [Expecting.marks]⟩
      · cases h
    · split at h
      · cases h
      · exact takeValue_adds h
  | inlineRest outer l before last =>
    simp only [takeMark] at h
    split at h
    · cases h
    · next hk =>
      split at h
      · cases h
      · cases h
        exact ⟨_, .closeBrace hk, by simp [Expecting.marks, Expr.marks]⟩
    · next hk =>
      split at h
      · cases h
        exact ⟨[], .nothing (by simp [hk]), by simp [Expecting.marks]⟩
      · cases h
    · split at h
      · cases h
      · have := takeName_adds h
        rwa [Option.elim_none, List.append_nil] at this

/-- What stands between two tokens is not part of what is written. -/
theorem takeGap_marks (d : Draft) : d.takeGap.marks = d.marks := by
  obtain ⟨items, expecting⟩ := d
  cases expecting <;> simp [takeGap, marks, done, expect, Expecting.marks, KeyUse.marks]

/-- One token adds what it spells. -/
theorem take_marks {d d' : Draft} {t : Token} (h : d.take t = .ok d') :
    ∃ ms, t.Spells ms ∧ d'.marks = d.marks ++ ms := by
  have hgap : ∀ {e : Draft}, e = d.takeGap → t.kind ∈ [Kind.blank, .comment] →
      ∃ ms, t.Spells ms ∧ e.marks = d.marks ++ ms := by
    rintro e rfl hk
    refine ⟨[], .nothing ?_, by rw [takeGap_marks, List.append_nil]⟩
    simp only [List.mem_cons, List.not_mem_nil, or_false] at hk
    rcases hk with hk | hk <;> simp [hk]
  unfold take at h
  split at h
  · cases h
  · next hk =>
    obtain ⟨u, -, h⟩ := exists_of_map_eq_ok h
    exact hgap h (by simp [hk])
  · next hk =>
    unfold takeBlank at h
    split at h
    · cases h
    · cases h
    · simp only [Except.ok.injEq] at h
      exact hgap h.symm (by simp [hk])
  · obtain ⟨ms, hms, hd'⟩ := takeMark_adds h
    exact ⟨ms, hms, by rw [hd', marks, List.append_assoc]⟩

/-- A row of tokens adds what it spells. -/
theorem takeAll_marks : ∀ {ts : List Token} {d d' : Draft}, ts.foldlM take d = .ok d' →
    ∃ ms, Spelled ts ms ∧ d'.marks = d.marks ++ ms
  | [], d, d', h => by
      cases h
      exact ⟨[], .nil, by simp⟩
  | t :: ts, d, d', h => by
      rw [List.foldlM_cons] at h
      obtain ⟨e, htake, h⟩ := exists_of_bind_eq_ok h
      obtain ⟨ms, hms, he⟩ := take_marks htake
      obtain ⟨ns, hns, hd'⟩ := takeAll_marks h
      exact ⟨ms ++ ns, .cons hms hns, by rw [hd', he, List.append_assoc]⟩

end Draft

/-! ## Whole documents -/

namespace Document

theorem marks_cons (i : Item) (d : Document) : (d.cons i).marks = i.marks ++ d.marks := by
  cases i with
  | pair k e => simp [cons, marks, Item.marks, Expr.pairMarks]
  | heading h => simp [cons, marks, Item.marks, Expr.pairMarks]

/-- A document is written as its items are. -/
theorem marks_ofItems (items : List Item) : (ofItems items).marks = items.flatMap Item.marks := by
  induction items with
  | nil => rfl
  | cons i items ih =>
    rw [List.flatMap_cons, ← ih, ← marks_cons]
    rfl

/-- What a text spells is what its document is written as. -/
theorem ofText_spelled {cs : List Char} {d : Document} (h : ofText cs = .ok d) :
    Spelled (Token.scan cs) d.marks := by
  rw [ofText, ofTokens] at h
  obtain ⟨r, hrun, hfinish⟩ := exists_of_bind_eq_ok h
  obtain ⟨ms, hms, hr⟩ := Draft.takeAll_marks hrun
  have hd : d.marks = r.marks := by
    obtain ⟨items, expecting⟩ := r
    unfold Draft.finish at hfinish
    split at hfinish <;> cases hfinish
    · next hx =>
      obtain rfl : expecting = _ := hx
      simp [marks_ofItems, Draft.marks, Draft.done, Expecting.marks]
    · next hx =>
      obtain rfl : expecting = _ := hx
      simp [marks_ofItems, Draft.marks, Draft.done, Expecting.marks, Item.marks, Heading.marks]
  have hempty : Draft.empty.marks = [] := rfl
  rw [hempty, List.nil_append] at hr
  rwa [hd, hr]

end Document
end AuditSettings.Toml
