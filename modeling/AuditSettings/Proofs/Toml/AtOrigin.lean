/-
AuditSettings.Proofs.Toml.AtOrigin — what a text says, apart from where it
says it.

Two texts may say the same at different places. To compare them every part of
a document, and of a draft of one, is put at the origin (`atOrigin`). Reading
a token asks for its kind and its characters but never for its location, so a
draft at the origin takes the same tokens and comes to the same draft at the
origin (`take_atOrigin`). Reading a text is then a walk over its words alone
(`ofText_atOrigin`), and what was finished before a walk has no part in it
(`walk_onto`).
-/
import AuditSettings.Proofs.Outcome
import AuditSettings.Proofs.Toml.Words
import AuditSettings.Toml.Grammar

namespace AuditSettings.Toml

open AuditSettings.Text

/-! ## At the origin -/

/-- The same name, written at the origin. -/
def KeyPart.atOrigin (p : KeyPart) : KeyPart := ⟨p.name, .origin⟩

/-- The same key, written at the origin. -/
def Key.atOrigin (k : Key) : Key := ⟨k.head.atOrigin, k.tail.map KeyPart.atOrigin⟩

mutual

/-- The same value, written at the origin. -/
def Expr.atOrigin : Expr → Expr
  | .scalar _ v => .scalar .origin v
  | .array _ items => .array .origin (Expr.itemsAtOrigin items)
  | .inlineTable _ pairs => .inlineTable .origin (Expr.pairsAtOrigin pairs)

/-- The same items, written at the origin. -/
def Expr.itemsAtOrigin : List Expr → List Expr
  | [] => []
  | e :: es => e.atOrigin :: Expr.itemsAtOrigin es

/-- The same pairs, written at the origin. -/
def Expr.pairsAtOrigin : List (Key × Expr) → List (Key × Expr)
  | [] => []
  | (k, e) :: ps => (k.atOrigin, e.atOrigin) :: Expr.pairsAtOrigin ps

end

/-- The same header, written at the origin. -/
def Heading.atOrigin : Heading → Heading
  | .table _ key => .table .origin key.atOrigin
  | .element _ key => .element .origin key.atOrigin

/-- The same item, written at the origin. -/
def Item.atOrigin : Item → Item
  | .pair key e => .pair key.atOrigin e.atOrigin
  | .heading h => .heading h.atOrigin

/-- The same section, written at the origin. -/
def Section.atOrigin (s : Section) : Section :=
  ⟨s.heading.atOrigin, Expr.pairsAtOrigin s.pairs⟩

/-- The same document, written at the origin. -/
def Document.atOrigin (d : Document) : Document :=
  ⟨Expr.pairsAtOrigin d.opening, d.sections.map Section.atOrigin⟩

/-- The same place, of a text at the origin. -/
def Place.atOrigin : Place → Place
  | .line key => .line key.atOrigin
  | .item outer _ before => .item outer.atOrigin .origin (Expr.itemsAtOrigin before)
  | .pair outer _ before key =>
    .pair outer.atOrigin .origin (Expr.pairsAtOrigin before) key.atOrigin

/-- The same use of a key, of a text at the origin. -/
def KeyUse.atOrigin : KeyUse → KeyUse
  | .header _ => .header .origin
  | .arrayHeader _ => .arrayHeader .origin
  | .line => .line
  | .pair outer _ before => .pair outer.atOrigin .origin (Expr.pairsAtOrigin before)

/-- The same expectations, of a text at the origin. -/
def Expecting.atOrigin : Expecting → Expecting
  | .item onNewLine => .item onNewLine
  | .headerKind _ => .headerKind .origin
  | .name use before => .name use.atOrigin (before.map Key.atOrigin)
  | .keyEnd use key => .keyEnd use.atOrigin key.atOrigin
  | .secondBracket _ key => .secondBracket .origin key.atOrigin
  | .value place => .value place.atOrigin
  | .arrayRest outer _ before last =>
    .arrayRest outer.atOrigin .origin (Expr.itemsAtOrigin before) last
  | .inlineRest outer _ before last =>
    .inlineRest outer.atOrigin .origin (Expr.pairsAtOrigin before) last

/-- The same draft, of a text at the origin. -/
def Draft.atOrigin (d : Draft) : Draft := ⟨d.items.map Item.atOrigin, d.expecting.atOrigin⟩

/-! ## Twice at the origin -/

@[simp] theorem KeyPart.atOrigin_atOrigin (p : KeyPart) : p.atOrigin.atOrigin = p.atOrigin := rfl

@[simp] theorem Key.atOrigin_atOrigin (k : Key) : k.atOrigin.atOrigin = k.atOrigin := by
  simp [Key.atOrigin, Function.comp_def]

theorem Expr.itemsAtOrigin_eq (es : List Expr) : itemsAtOrigin es = es.map atOrigin := by
  induction es with
  | nil => rfl
  | cons e es ih => rw [itemsAtOrigin, ih, List.map_cons]

theorem Expr.pairsAtOrigin_eq (ps : List (Key × Expr)) :
    pairsAtOrigin ps = ps.map fun p => (p.1.atOrigin, p.2.atOrigin) := by
  induction ps with
  | nil => rfl
  | cons p ps ih =>
    obtain ⟨k, e⟩ := p
    rw [pairsAtOrigin, ih, List.map_cons]

mutual

@[simp] theorem Expr.atOrigin_atOrigin : ∀ e : Expr, e.atOrigin.atOrigin = e.atOrigin
  | .scalar _ v => rfl
  | .array _ items => by
      simp only [Expr.atOrigin, Expr.itemsAtOrigin_itemsAtOrigin items]
  | .inlineTable _ pairs => by
      simp only [Expr.atOrigin, Expr.pairsAtOrigin_pairsAtOrigin pairs]

@[simp] theorem Expr.itemsAtOrigin_itemsAtOrigin : ∀ es : List Expr,
    itemsAtOrigin (itemsAtOrigin es) = itemsAtOrigin es
  | [] => rfl
  | e :: es => by
      simp only [Expr.itemsAtOrigin, Expr.atOrigin_atOrigin e, Expr.itemsAtOrigin_itemsAtOrigin es]

@[simp] theorem Expr.pairsAtOrigin_pairsAtOrigin : ∀ ps : List (Key × Expr),
    pairsAtOrigin (pairsAtOrigin ps) = pairsAtOrigin ps
  | [] => rfl
  | (k, e) :: ps => by
      simp only [Expr.pairsAtOrigin, Key.atOrigin_atOrigin, Expr.atOrigin_atOrigin e,
        Expr.pairsAtOrigin_pairsAtOrigin ps]

end

@[simp] theorem Heading.atOrigin_atOrigin (h : Heading) : h.atOrigin.atOrigin = h.atOrigin := by
  cases h <;> simp [atOrigin]

@[simp] theorem Item.atOrigin_atOrigin (i : Item) : i.atOrigin.atOrigin = i.atOrigin := by
  cases i <;> simp [atOrigin]

@[simp] theorem Place.atOrigin_atOrigin (p : Place) : p.atOrigin.atOrigin = p.atOrigin := by
  induction p with
  | line key => simp [atOrigin]
  | item outer l before ih => simp [atOrigin, ih]
  | pair outer l before key ih => simp [atOrigin, ih]

@[simp] theorem KeyUse.atOrigin_atOrigin (u : KeyUse) : u.atOrigin.atOrigin = u.atOrigin := by
  cases u <;> simp [atOrigin]

@[simp] theorem Expecting.atOrigin_atOrigin (e : Expecting) : e.atOrigin.atOrigin = e.atOrigin := by
  cases e <;> simp [atOrigin, Function.comp_def]

@[simp] theorem Draft.atOrigin_atOrigin (d : Draft) : d.atOrigin.atOrigin = d.atOrigin := by
  simp [atOrigin, Function.comp_def]

/-! ## Tokens -/

namespace Token

/-- The same token at the origin. -/
def atOrigin (t : Token) : Token := ⟨t.kind, t.text, .origin⟩

theorem refuse_atOrigin (t : Token) (refused : Char → Bool) (cause : Cause) :
    (t.atOrigin.refuse refused cause).toOption = (t.refuse refused cause).toOption := by
  unfold refuse atOrigin
  simp only
  split <;> rfl

theorem unescape_toOption (l l' : Location) (inside : Nat) (cs : List Char) :
    (unescape l inside cs).toOption = (unescape l' inside cs).toOption := by
  induction cs generalizing l l' inside with
  | nil => cases inside <;> rfl
  | cons c cs ih =>
    cases inside with
    | succ inside => exact ih _ _ inside
    | zero =>
      rw [unescape, unescape]
      split
      · split
        · next out n _ => rw [toOption_map, toOption_map, ih _ (l'.advance c) n]
        · rfl
      · rw [toOption_map, toOption_map, ih _ (l'.advance c) 0]

theorem string_atOrigin (t : Token) : t.atOrigin.string.toOption = t.string.toOption := by
  have hinner : t.atOrigin.inner = t.inner := rfl
  have htext : t.atOrigin.text = t.text := rfl
  unfold string
  rw [show t.atOrigin.kind = t.kind from rfl, hinner, htext]
  split
  · simp only [toOption_bind, refuse_atOrigin,
      unescape_toOption (t.atOrigin.start.after (t.text.take 1)) (t.start.after (t.text.take 1))]
  · simp only [toOption_bind, refuse_atOrigin]
    rw [unescape_toOption (t.atOrigin.start.after _) (t.start.after _)]
  · simp only [toOption_bind, refuse_atOrigin]
  · simp only [toOption_bind, refuse_atOrigin]
  · rfl

theorem scalar_atOrigin (t : Token) : t.atOrigin.scalar.toOption = t.scalar.toOption := by
  have htext : t.atOrigin.text = t.text := rfl
  have hunderscores (digit : Char → Bool) :
      (t.atOrigin.checkUnderscores digit).toOption = (t.checkUnderscores digit).toOption := by
    unfold checkUnderscores
    rw [htext]
    split <;> rfl
  have hradix (base : Nat) (digit : Char → Bool) :
      (t.atOrigin.radixInteger base digit).toOption = (t.radixInteger base digit).toOption := by
    simp only [radixInteger, toOption_bind, hunderscores, htext]
  unfold scalar
  rw [show t.atOrigin.kind = t.kind from rfl, htext]
  split
  · rfl
  · rfl
  · split
    · rfl
    · simp only [toOption_bind, hunderscores]
  · exact hradix _ _
  · exact hradix _ _
  · exact hradix _ _
  · split
    · rfl
    · simp only [toOption_bind, hunderscores]
  · simp only [toOption_bind, string_atOrigin]
  · simp only [toOption_bind, string_atOrigin]
  · simp only [toOption_bind, string_atOrigin]
  · simp only [toOption_bind, string_atOrigin]
  · rfl

theorem key_atOrigin (t : Token) :
    t.atOrigin.key.toOption.map Key.atOrigin = t.key.toOption.map Key.atOrigin := by
  have htext : t.atOrigin.text = t.text := rfl
  unfold key
  rw [show t.atOrigin.kind = t.kind from rfl, htext]
  split
  · rfl
  · rfl
  · rfl
  · rfl
  · rfl
  · split <;> rfl
  · split
    · rfl
    · split
      · rfl
      · split <;> rfl
  · simp only [toOption_bind, string_atOrigin]
    cases t.string <;> rfl
  · simp only [toOption_bind, string_atOrigin]
    cases t.string <;> rfl
  · rfl

theorem checkComment_atOrigin (t : Token) :
    t.atOrigin.checkComment.toOption = t.checkComment.toOption :=
  refuse_atOrigin t _ _

end Token

/-! ## Steps -/

theorem Key.atOrigin_append (k l : Key) :
    (k.append l).atOrigin = k.atOrigin.append l.atOrigin := by
  simp [append, atOrigin]

namespace Draft

@[simp] theorem atOrigin_expect (d : Draft) (e : Expecting) :
    (d.expect e).atOrigin = d.atOrigin.expect e.atOrigin := rfl

@[simp] theorem atOrigin_close (d : Draft) (i : Item) :
    (d.close i).atOrigin = d.atOrigin.close i.atOrigin := rfl

@[simp] theorem atOrigin_fill (d : Draft) (place : Place) (v : Expr) :
    (d.fill place v).atOrigin = d.atOrigin.fill place.atOrigin v.atOrigin := by
  cases place <;> rfl

/-- What a step comes to, at the origin. -/
def outcome (x : Except SyntaxError Draft) : Option Draft := x.toOption.map atOrigin

@[simp] theorem outcome_ok (d : Draft) : outcome (.ok d) = some d.atOrigin := rfl

@[simp] theorem outcome_error (e : SyntaxError) : outcome (.error e) = none := rfl

theorem takeName_atOrigin (d : Draft) (use : KeyUse) (before : Option Key) (t : Token) :
    outcome (d.atOrigin.takeName use.atOrigin (before.map Key.atOrigin) t.atOrigin) =
      outcome (d.takeName use before t) := by
  have hkey := t.key_atOrigin
  have hkind : t.atOrigin.kind = t.kind := rfl
  unfold takeName
  rw [Option.isSome_map, hkind, apply_ite outcome, apply_ite outcome]
  refine if_congr Iff.rfl rfl ?_
  rcases cases_of_toOption_map_eq hkey with ⟨e, e', hk, hk'⟩ | ⟨k, k', hk, hk', heq⟩
  · rw [hk, hk']
    rfl
  · rw [hk, hk']
    show some _ = some _
    cases before with
    | none => simp [Expecting.atOrigin, heq]
    | some b => simp [Expecting.atOrigin, Key.atOrigin_append, heq]

theorem takeKeyEnd_atOrigin (d : Draft) (key : Key) (t : Token) (use : KeyUse) :
    outcome (d.atOrigin.takeKeyEnd key.atOrigin t.atOrigin use.atOrigin) =
      outcome (d.takeKeyEnd key t use) := by
  have hkind : t.atOrigin.kind = t.kind := rfl
  cases use with
  | header l =>
    simp [takeKeyEnd, KeyUse.atOrigin, hkind, apply_ite outcome, Item.atOrigin, Heading.atOrigin]
  | arrayHeader l =>
    simp [takeKeyEnd, KeyUse.atOrigin, hkind, apply_ite outcome, Expecting.atOrigin]
  | line =>
    simp [takeKeyEnd, KeyUse.atOrigin, hkind, apply_ite outcome, Expecting.atOrigin, Place.atOrigin]
  | pair outer l before =>
    simp [takeKeyEnd, KeyUse.atOrigin, hkind, apply_ite outcome, Expecting.atOrigin, Place.atOrigin]

theorem takeValue_atOrigin (d : Draft) (place : Place) (t : Token) :
    outcome (d.atOrigin.takeValue place.atOrigin t.atOrigin) = outcome (d.takeValue place t) := by
  have hscalar := t.scalar_atOrigin
  unfold takeValue
  rw [show t.atOrigin.kind = t.kind from rfl]
  split
  · simp [Expecting.atOrigin, Expr.itemsAtOrigin]
  · simp [Expecting.atOrigin, Expr.pairsAtOrigin]
  · have hid : t.atOrigin.scalar.toOption = t.scalar.toOption.map id := by simpa using hscalar
    rcases cases_of_toOption_eq hid with ⟨e, e', hs, hs'⟩ | ⟨v, hs, hs'⟩
    · rw [hs, hs']
      rfl
    · rw [hs, hs']
      show some _ = some _
      simp [Expr.atOrigin]

theorem takeMark_atOrigin (d : Draft) (t : Token) :
    outcome (d.atOrigin.takeMark t.atOrigin) = outcome (d.takeMark t) := by
  have hkind : t.atOrigin.kind = t.kind := rfl
  have hx : d.atOrigin.expecting = d.expecting.atOrigin := rfl
  unfold takeMark
  rw [hx]
  cases hd : d.expecting with
  | item onNewLine =>
    have hname := takeName_atOrigin d .line none t
    simp only [KeyUse.atOrigin, Option.map_none] at hname
    simp [Expecting.atOrigin, hkind, apply_ite outcome, hname]
  | headerKind l =>
    have hname := takeName_atOrigin d (.header l) none t
    simp only [KeyUse.atOrigin, Option.map_none] at hname
    simp [Expecting.atOrigin, KeyUse.atOrigin, hkind, apply_ite outcome, hname]
  | name use before => exact takeName_atOrigin d use before t
  | keyEnd use key =>
    have hend := takeKeyEnd_atOrigin d key t use
    simp [Expecting.atOrigin, hkind, apply_ite outcome, hend]
  | secondBracket l key =>
    simp [Expecting.atOrigin, hkind, apply_ite outcome, Item.atOrigin, Heading.atOrigin]
  | value place => exact takeValue_atOrigin d place t
  | arrayRest outer l before last =>
    have hvalue := takeValue_atOrigin d (.item outer l before) t
    simp only [Place.atOrigin] at hvalue
    simp only [Expecting.atOrigin, hkind]
    split
    · simp
    · simp [Expr.atOrigin, Expr.itemsAtOrigin_eq, Function.comp_def]
    · simp [apply_ite outcome, Expecting.atOrigin]
    · simp [apply_ite outcome, hvalue]
  | inlineRest outer l before last =>
    have hname := takeName_atOrigin d (.pair outer l before) none t
    simp only [KeyUse.atOrigin, Option.map_none] at hname
    simp only [Expecting.atOrigin, hkind]
    split
    · rfl
    · simp [apply_ite outcome, Expr.atOrigin, Expr.pairsAtOrigin_eq, Function.comp_def]
    · simp [apply_ite outcome, Expecting.atOrigin]
    · simp [apply_ite outcome, hname]

theorem takeGap_atOrigin (d : Draft) : d.atOrigin.takeGap = d.takeGap.atOrigin := by
  obtain ⟨items, expecting⟩ := d
  cases expecting <;> rfl

theorem takeBlank_atOrigin (d : Draft) (t : Token) :
    outcome (d.atOrigin.takeBlank t.atOrigin) = outcome (d.takeBlank t) := by
  have hx : d.atOrigin.expecting = d.expecting.atOrigin := rfl
  have hgap : outcome (.ok d.atOrigin.takeGap) = outcome (.ok d.takeGap) := by
    simp [takeGap_atOrigin]
  unfold takeBlank
  rw [hx]
  cases hd : d.expecting with
  | name use before => cases use <;> cases before <;> first | exact hgap | rfl
  | secondBracket l key => rfl
  | item onNewLine => exact hgap
  | headerKind l => exact hgap
  | keyEnd use key => exact hgap
  | value place => exact hgap
  | arrayRest outer l before last => exact hgap
  | inlineRest outer l before last => exact hgap

/-- A token is taken in the same way wherever it and the draft stand. -/
theorem take_atOrigin (d : Draft) (t : Token) :
    outcome (d.atOrigin.take t.atOrigin) = outcome (d.take t) := by
  have hcomment := t.checkComment_atOrigin
  unfold take
  rw [show t.atOrigin.kind = t.kind from rfl]
  split
  · rfl
  · rw [outcome, outcome, toOption_map, toOption_map, hcomment, takeGap_atOrigin]
    cases t.checkComment <;> simp [Except.toOption]
  · exact takeBlank_atOrigin d t
  · exact takeMark_atOrigin d t

/-! ## Walks -/

/-- The draft after one more word, at the origin. -/
def step (d : Draft) (w : Word) : Option Draft := outcome (d.take ⟨w.1, w.2, .origin⟩)

/-- The draft after some words, at the origin. -/
def walk (d : Draft) (ws : List Word) : Option Draft := ws.foldlM step d

@[simp] theorem walk_cons (d : Draft) (w : Word) (ws : List Word) :
    d.walk (w :: ws) = (d.step w).bind fun d' => d'.walk ws := rfl

/-- Taking tokens is walking over their words. -/
theorem foldlM_take_atOrigin (ts : List Token) (d : Draft) :
    outcome (ts.foldlM take d) = d.atOrigin.walk (ts.map Token.word) := by
  induction ts generalizing d with
  | nil => rfl
  | cons t ts ih =>
    have hstep : d.atOrigin.step t.word = outcome (d.take t) := take_atOrigin d t
    rw [List.foldlM_cons, List.map_cons, walk_cons, hstep]
    cases d.take t with
    | error e => rfl
    | ok d' => exact ih d'

/-- The document that a draft makes, at the origin. -/
def finished (d : Draft) : Option Document := (d.finish .origin).toOption.map Document.atOrigin

end Draft

theorem Document.atOrigin_cons (i : Item) (d : Document) :
    (d.cons i).atOrigin = d.atOrigin.cons i.atOrigin := by
  cases i <;> rfl

theorem Document.atOrigin_ofItems (items : List Item) :
    (ofItems items).atOrigin = ofItems (items.map Item.atOrigin) := by
  induction items with
  | nil => rfl
  | cons i items ih => exact (atOrigin_cons i _).trans (congrArg (cons i.atOrigin) ih)

namespace Draft

theorem finished_atOrigin (d : Draft) (l : Location) :
    d.atOrigin.finished = (d.finish l).toOption.map Document.atOrigin := by
  obtain ⟨items, expecting⟩ := d
  cases expecting with
  | name use before => cases before <;> rfl
  | item onNewLine =>
    simp [finished, finish, atOrigin, Expecting.atOrigin, Except.toOption, Document.atOrigin_ofItems,
      Function.comp_def]
  | secondBracket l' key =>
    have hlast : (Item.heading (.element l' key)).atOrigin =
        .heading (.element .origin key.atOrigin) := rfl
    have hsame : (Item.heading (.element .origin key.atOrigin)).atOrigin =
        .heading (.element .origin key.atOrigin) := Item.atOrigin_atOrigin (.heading (.element l' key))
    simp [finished, finish, atOrigin, Expecting.atOrigin, Except.toOption, Document.atOrigin_ofItems,
      Function.comp_def, hlast, hsame]
  | headerKind l' => rfl
  | keyEnd use key => rfl
  | value place => rfl
  | arrayRest outer l' before last => rfl
  | inlineRest outer l' before last => rfl

end Draft

/-- Reading a text is a walk over its words. -/
theorem Document.ofText_atOrigin (cs : List Char) :
    (ofText cs).toOption.map atOrigin =
      (Draft.empty.walk (wordsOf cs)).bind Draft.finished := by
  have hempty : Draft.empty.atOrigin = Draft.empty := rfl
  rw [wordsOf, ← hempty, ← Draft.foldlM_take_atOrigin, ofText, ofTokens]
  cases (Token.scan cs).foldlM Draft.take .empty with
  | error e => rfl
  | ok d => exact (d.finished_atOrigin _).symm

/-! ## What was finished before -/

namespace Draft

/-- The draft with items that were finished before it. -/
def onto (base : List Item) (d : Draft) : Draft := ⟨d.items ++ base, d.expecting⟩

theorem takeName_onto (base : List Item) (d : Draft) (use : KeyUse) (before : Option Key)
    (t : Token) : (d.onto base).takeName use before t = (d.takeName use before t).map (onto base) := by
  unfold takeName
  split
  · rfl
  · cases t.key <;> rfl

theorem takeKeyEnd_onto (base : List Item) (d : Draft) (key : Key) (t : Token) (use : KeyUse) :
    (d.onto base).takeKeyEnd key t use = (d.takeKeyEnd key t use).map (onto base) := by
  cases use <;> (unfold takeKeyEnd; simp only; split <;> rfl)

theorem fill_onto (base : List Item) (d : Draft) (place : Place) (v : Expr) :
    (d.onto base).fill place v = (d.fill place v).onto base := by
  cases place <;> rfl

theorem takeValue_onto (base : List Item) (d : Draft) (place : Place) (t : Token) :
    (d.onto base).takeValue place t = (d.takeValue place t).map (onto base) := by
  unfold takeValue
  split
  · rfl
  · rfl
  · cases t.scalar with
    | error e => rfl
    | ok v => exact congrArg Except.ok (fill_onto base d place _)

theorem takeMark_onto (base : List Item) (d : Draft) (t : Token) :
    (d.onto base).takeMark t = (d.takeMark t).map (onto base) := by
  have hx : (d.onto base).expecting = d.expecting := rfl
  have hexpect (e : Expecting) : (d.onto base).expect e = (d.expect e).onto base := rfl
  have hclose (i : Item) : (d.onto base).close i = (d.close i).onto base := rfl
  have hok (d' : Draft) : (Except.ok d' : Except SyntaxError Draft).map (onto base) =
    .ok (d'.onto base) := rfl
  have herror (e : SyntaxError) : (Except.error e : Except SyntaxError Draft).map (onto base) =
    .error e := rfl
  unfold takeMark
  rw [hx]
  cases hd : d.expecting with
  | item onNewLine =>
    simp only [apply_ite (Except.map (onto base)), takeName_onto, hexpect, hok, herror]
  | headerKind l => simp only [apply_ite (Except.map (onto base)), takeName_onto, hexpect, hok]
  | name use before => exact takeName_onto base d use before t
  | keyEnd use key => simp only [apply_ite (Except.map (onto base)), takeKeyEnd_onto, hexpect, hok]
  | secondBracket l key => simp only [apply_ite (Except.map (onto base)), hclose, hok, herror]
  | value place => exact takeValue_onto base d place t
  | arrayRest outer l before last =>
    simp only
    split
    · rfl
    · simp only [fill_onto, hok]
    · simp only [apply_ite (Except.map (onto base)), hexpect, hok, herror]
    · simp only [apply_ite (Except.map (onto base)), takeValue_onto, herror]
  | inlineRest outer l before last =>
    simp only
    split
    · rfl
    · simp only [apply_ite (Except.map (onto base)), fill_onto, hok, herror]
    · simp only [apply_ite (Except.map (onto base)), hexpect, hok, herror]
    · simp only [apply_ite (Except.map (onto base)), takeName_onto, herror]

theorem take_onto (base : List Item) (d : Draft) (t : Token) :
    (d.onto base).take t = (d.take t).map (onto base) := by
  have hgap : (d.onto base).takeGap = d.takeGap.onto base := by
    obtain ⟨items, expecting⟩ := d
    cases expecting <;> rfl
  unfold take
  split
  · rfl
  · cases t.checkComment with
    | error e => rfl
    | ok u => exact congrArg Except.ok hgap
  · unfold takeBlank
    rw [show (d.onto base).expecting = d.expecting from rfl]
    split
    · rfl
    · rfl
    · exact congrArg Except.ok hgap
  · exact takeMark_onto base d t

/-- What was finished before a walk, at the origin, has no part in it. -/
theorem walk_onto {base : List Item} (hbase : base.map Item.atOrigin = base) (ws : List Word)
    (d : Draft) : (d.onto base).walk ws = (d.walk ws).map (onto base) := by
  induction ws generalizing d with
  | nil => rfl
  | cons w ws ih =>
    have hstep : (d.onto base).step w = (d.step w).map (onto base) := by
      unfold step
      rw [take_onto]
      cases d.take ⟨w.1, w.2, .origin⟩ with
      | error e => rfl
      | ok d' => simp [Except.map, atOrigin, onto, hbase]
    rw [walk_cons, walk_cons, hstep]
    cases d.step w with
    | none => rfl
    | some d' => exact ih d'

end Draft

end AuditSettings.Toml
