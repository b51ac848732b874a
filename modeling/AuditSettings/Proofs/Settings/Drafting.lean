/-
AuditSettings.Proofs.Settings.Drafting — written settings are a document.

The words of written settings are taken one by one, from whatever location
they stand at. A written value fills the place that awaits it with an
expression that shows it (`read_words`), a written line adds a pair, and a
written section adds the items of its spelling. What has been read before
never matters but for what is expected next, so each statement is about a
draft of which only that is known.
-/
import AuditSettings.Proofs.Settings.Shown
import AuditSettings.Proofs.Settings.Spelling

namespace AuditSettings.Toml

open AuditSettings.Text Json

/-! ## Reading words -/

/-- Whether a written value begins with a token of this kind. -/
def Kind.beginsValue : Kind → Bool
  | .boolean | .basic | .bracketOpen | .braceOpen => true
  | _ => false

namespace Draft

/-- The draft after some words that start at a location. -/
def read (d : Draft) (l : Location) (ws : List Word) : Except SyntaxError Draft :=
  (layOut l ws).foldlM Draft.take d

@[simp] theorem read_nil (d : Draft) (l : Location) : d.read l [] = .ok d := rfl

theorem read_cons {d : Draft} (d' : Draft) {l : Location} {k : Kind} {cs : List Char}
    (ws : List Word) (h : d.take ⟨k, cs, l⟩ = .ok d') : d.read l ((k, cs) :: ws) = d'.read (l.after cs) ws := by
  simp only [read, layOut, List.foldlM_cons, h]
  rfl

theorem read_append {d d' : Draft} {l : Location} {ws : List Word} (vs : List Word)
    (h : d.read l ws = .ok d') : d.read l (ws ++ vs) = d'.read (l.after (lettering ws)) vs := by
  simp only [read] at h ⊢
  rw [layOut_append, List.foldlM_append, h]
  rfl

/-- The next token is the first of a value for this place. -/
def Awaits (d : Draft) (place : Place) : Prop :=
  ∀ t : Token, t.kind.beginsValue = true → d.take t = d.takeValue place t

theorem awaits_value (items : List Item) (place : Place) :
    (⟨items, .value place⟩ : Draft).Awaits place := by
  intro t ht
  unfold take
  split <;> simp_all [Kind.beginsValue, takeMark]

theorem awaits_item (items : List Item) {outer : Place} {l : Location} {before : List Expr}
    {last : Separation} (h : last ≠ .value) :
    (⟨items, .arrayRest outer l before last⟩ : Draft).Awaits (.item outer l before) := by
  intro t ht
  unfold take
  split
  · simp_all [Kind.beginsValue]
  · simp_all [Kind.beginsValue]
  · simp_all [Kind.beginsValue]
  · simp only [takeMark]
    split <;> simp_all [Kind.beginsValue]

/-- Some value that shows `v` is read into its place. -/
def Reads (ws : List Word) (v : Json) : Prop :=
  ∀ (d : Draft) (place : Place) (l : Location), d.Awaits place →
    ∃ e : Expr, e.node.Shows v ∧ d.read l ws = .ok (d.fill place e)

/-! ## Pairs -/

theorem takeName_bare (d : Draft) (use : KeyUse) (before : Option Key) (k : String) (l : Location) :
    d.takeName use before ⟨.bare, k.toList, l⟩ =
      .ok (d.expect (.keyEnd use
        (before.elim (.single ⟨k, l⟩) (·.append (.single ⟨k, l⟩))))) := by
  simp [takeName, Token.key, bind, Except.bind, pure, Except.pure]

/-- Once its name is taken, a pair is read into the place that its key has
in what is around it. -/
theorem read_pairWords {k : String} {v : Json} (hv : Reads v.words v) (use : KeyUse)
    (place : Key → Place)
    (hplace : ∀ d key l, takeKeyEnd d key ⟨.equals, ['='], l⟩ use = .ok (d.expect (.value (place key))))
    {d : Draft} {key : Key} {l : Location}
    (hname : d.take ⟨.bare, k.toList, l⟩ = .ok (d.expect (.keyEnd use key))) :
    ∃ e : Expr, e.node.Shows v ∧ d.read l (pairWords k v) = .ok (d.fill (place key) e) := by
  have hequals (l : Location) : (d.expect (.keyEnd use key)).take ⟨.equals, ['='], l⟩ =
      .ok (d.expect (.value (place key))) := hplace (d.expect (.keyEnd use key)) key l
  obtain ⟨e, he, hread⟩ := hv (d.expect (.value (place key))) (place key)
    ((((l.after k.toList).after [' ']).after ['=']).after [' ']) (awaits_value _ _)
  refine ⟨e, he, ?_⟩
  rw [pairWords, read_cons _ _ hname, read_cons (d.expect (.keyEnd use key)) _ rfl,
    read_cons _ _ (hequals _), read_cons (d.expect (.value (place key))) _ rfl, hread]
  rfl

/-! ## Values -/

/-- What items after the first add to an array. -/
def ReadsItems (ws : List Word) (vs : List Json) : Prop :=
  ∀ (items : List Item) (outer : Place) (l₀ : Location) (before : List Expr) (l : Location),
    ∃ es : List Expr, List.Forall₂ Node.Shows (Expr.nodes es) vs ∧
      (⟨items, .arrayRest outer l₀ before .value⟩ : Draft).read l ws =
        .ok ⟨items, .arrayRest outer l₀ (es.reverse ++ before) .value⟩

/-- What members after the first add to an inline table. -/
def ReadsMembers (ws : List Word) (ms : List (String × Json)) : Prop :=
  ∀ (items : List Item) (outer : Place) (l₀ : Location) (before : List (Key × Expr)) (l : Location),
    ∃ ps : List (Key × Expr), PairsShow [] ps ms ∧
      (⟨items, .inlineRest outer l₀ before .value⟩ : Draft).read l ws =
        .ok ⟨items, .inlineRest outer l₀ (ps.reverse ++ before) .value⟩

theorem take_bracketClose (items : List Item) (outer : Place) (l₀ l : Location) (e : Expr)
    (es : List Expr) :
    (⟨items, .arrayRest outer l₀ (es.reverse ++ [e]) .value⟩ : Draft).take ⟨.bracketClose, [']'], l⟩ =
      .ok (fill ⟨items, .value outer⟩ outer (.array l₀ (e :: es))) := by
  show Except.ok (fill _ outer (.array l₀ (es.reverse ++ [e]).reverse)) = _
  rw [List.reverse_append, List.reverse_reverse]
  rfl

theorem take_braceClose (items : List Item) (outer : Place) (l₀ l : Location) (p : Key × Expr)
    (ps : List (Key × Expr)) :
    (⟨items, .inlineRest outer l₀ (ps.reverse ++ [p]) .value⟩ : Draft).take
        ⟨.braceClose, ['\x7d'], l⟩ =
      .ok (fill ⟨items, .value outer⟩ outer (.inlineTable l₀ (p :: ps))) := by
  show Except.ok (fill _ outer (.inlineTable l₀ (ps.reverse ++ [p]).reverse)) = _
  rw [List.reverse_append, List.reverse_reverse]
  rfl

theorem reads_boolean (b : Bool) : Reads (words (.boolean b)) (.boolean b) := by
  intro d place l hd
  refine ⟨.scalar l (.boolean b), shows_scalar_boolean l b, ?_⟩
  have htake : d.take ⟨.boolean, booleanWord b, l⟩ = .ok (d.fill place (.scalar l (.boolean b))) := by
    rw [hd _ rfl]
    cases b <;> rfl
  rw [words, read_cons _ _ htake, read_nil]

theorem reads_string (s : String) : Reads (words (.string s)) (.string s) := by
  intro d place l hd
  refine ⟨.scalar l (.string s), shows_scalar_string l s, ?_⟩
  have htake : d.take ⟨.basic, basicText s, l⟩ = .ok (d.fill place (.scalar l (.string s))) := by
    rw [hd _ rfl]
    simp only [takeValue, Token.scalar, string_basicText]
    rfl
  rw [words, read_cons _ _ htake, read_nil]

mutual

/-- A written value is read into the place that awaits it. -/
theorem read_words : ∀ {v : Json}, v.IsWritable → Reads v.words v
  | null, h => absurd h (by simp [IsWritable])
  | boolean b, _ => reads_boolean b
  | string s, _ => reads_string s
  | array [], _ => by
      intro d place l hd
      refine ⟨.array l [], shows_array .nil l false, ?_⟩
      rw [words, read_cons (d.expect (.arrayRest place l [] .opened)) _ (hd _ rfl),
        read_cons (d.fill place (.array l [])) _ rfl, read_nil]
  | array (v :: vs), h => by
      intro d place l hd
      simp only [IsWritable, AreWritable] at h
      obtain ⟨hv, hvs⟩ := h
      obtain ⟨e, he, hfirst⟩ := read_words hv (d.expect (.arrayRest place l [] .opened))
        (.item place l []) (l.after ['[']) (awaits_item _ (by decide))
      obtain ⟨es, hes, hrest⟩ := read_itemsWords hvs d.items place l [e]
        ((l.after ['[']).after (lettering v.words))
      refine ⟨.array l (e :: es), shows_array (.cons he hes) l false, ?_⟩
      simp only [words, List.cons_append, List.append_assoc]
      rw [read_cons (d.expect (.arrayRest place l [] .opened)) _ (hd _ rfl),
        read_append _ hfirst]
      refine (read_append _ hrest).trans ?_
      rw [read_cons _ _ (take_bracketClose ..), read_nil]
      rfl
  | object [], _ => by
      intro d place l hd
      refine ⟨.inlineTable l [], Contents.Shows.node (t := .empty) ⟨rfl, .nil⟩ (by simp) l .inlined, ?_⟩
      rw [words, read_cons (d.expect (.inlineRest place l [] .opened)) _ (hd _ rfl),
        read_cons (d.fill place (.inlineTable l [])) _ rfl, read_nil]
  | object ((k, v) :: ms), h => by
      intro d place l hd
      simp only [IsWritable, MembersWritable] at h
      obtain ⟨hnd, -, hv, hms⟩ := h
      obtain ⟨e, he, hfirst⟩ := read_pairWords (read_words hv) (.pair place l [])
        (.pair place l []) (fun _ _ _ => rfl)
        (d := d.expect (.inlineRest place l [] .opened))
        (l := (l.after ['\x7b']).after [' ']) (takeName_bare _ _ none k _)
      obtain ⟨ps, hps, hrest⟩ := read_membersWords hms d.items place l
        [(.single ⟨k, (l.after ['\x7b']).after [' ']⟩, e)]
        (((l.after ['\x7b']).after [' ']).after (lettering (pairWords k v)))
      have hshow : PairsShow [] ((.single ⟨k, (l.after ['\x7b']).after [' ']⟩, e) :: ps) ((k, v) :: ms) :=
        .cons ⟨rfl, he⟩ hps
      refine ⟨.inlineTable l ((.single ⟨k, (l.after ['\x7b']).after [' ']⟩, e) :: ps), ?_, ?_⟩
      · exact (hshow.contents (t := .empty) [] ⟨rfl, .nil⟩ (by simpa using hnd)).node
          hnd l .inlined
      · have hwords : words (.object ((k, v) :: ms)) = (.braceOpen, ['\x7b']) :: (.blank, [' ']) ::
            (pairWords k v ++ (membersWords ms ++ [(.blank, [' ']), (.braceClose, ['\x7d'])])) := by
          simp [words, pairWords]
        rw [hwords, read_cons (d.expect (.inlineRest place l [] .opened)) _ (hd _ rfl),
          read_cons (d.expect (.inlineRest place l [] .opened)) _ rfl, read_append _ hfirst]
        refine (read_append _ hrest).trans ?_
        rw [read_cons ⟨d.items, .inlineRest place l (ps.reverse ++ [_]) .value⟩ _ rfl,
          read_cons _ _ (take_braceClose ..), read_nil]
        rfl

theorem read_itemsWords : ∀ {vs : List Json}, AreWritable vs → ReadsItems (itemsWords vs) vs
  | [], _ => fun items outer l₀ before l => ⟨[], .nil, rfl⟩
  | v :: vs, h => by
      intro items outer l₀ before l
      obtain ⟨hv, hvs⟩ := h
      obtain ⟨e, he, hfirst⟩ := read_words hv ⟨items, .arrayRest outer l₀ before .comma⟩
        (.item outer l₀ before) ((l.after [',']).after [' ']) (awaits_item _ (by decide))
      obtain ⟨es, hes, hrest⟩ := read_itemsWords hvs items outer l₀ (e :: before)
        (((l.after [',']).after [' ']).after (lettering v.words))
      refine ⟨e :: es, .cons he hes, ?_⟩
      simp only [itemsWords, List.cons_append]
      rw [read_cons ⟨items, .arrayRest outer l₀ before .comma⟩ _ rfl,
        read_cons ⟨items, .arrayRest outer l₀ before .comma⟩ _ rfl, read_append _ hfirst]
      refine Eq.trans hrest ?_
      simp

theorem read_membersWords : ∀ {ms : List (String × Json)}, MembersWritable ms →
    ReadsMembers (membersWords ms) ms
  | [], _ => fun items outer l₀ before l => ⟨[], .nil, rfl⟩
  | (k, v) :: ms, h => by
      intro items outer l₀ before l
      obtain ⟨-, hv, hms⟩ := h
      obtain ⟨e, he, hfirst⟩ := read_pairWords (read_words hv) (.pair outer l₀ before)
        (.pair outer l₀ before) (fun _ _ _ => rfl)
        (d := ⟨items, .inlineRest outer l₀ before .comma⟩)
        (l := (l.after [',']).after [' ']) (takeName_bare _ _ none k _)
      obtain ⟨ps, hps, hrest⟩ := read_membersWords hms items outer l₀
        ((.single ⟨k, (l.after [',']).after [' ']⟩, e) :: before)
        (((l.after [',']).after [' ']).after (lettering (pairWords k v)))
      refine ⟨(.single ⟨k, (l.after [',']).after [' ']⟩, e) :: ps, .cons ⟨rfl, he⟩ hps, ?_⟩
      have hwords : membersWords ((k, v) :: ms) = (.comma, [',']) :: (.blank, [' ']) ::
          (pairWords k v ++ membersWords ms) := by
        simp [membersWords, pairWords]
      rw [hwords, read_cons ⟨items, .inlineRest outer l₀ before .comma⟩ _ rfl,
        read_cons ⟨items, .inlineRest outer l₀ before .comma⟩ _ rfl, read_append _ hfirst]
      refine Eq.trans hrest ?_
      simp

end

/-! ## Lines -/

/-- Pairs as items of a document. -/
def pairItems (ps : List (Key × Expr)) : List Item := ps.map fun p => .pair p.1 p.2

/-- A written line adds a pair. -/
theorem read_line {v : Json} (hv : v.IsWritable) (name? : Option String) (k : String)
    (items : List Item) (l : Location) :
    ∃ p : Key × Expr, p.1.names = name?.toList ++ [k] ∧ p.2.node.Shows v ∧
      (⟨items, .item true⟩ : Draft).read l (lineWords name? (k, v)) =
        .ok ⟨.pair p.1 p.2 :: items, .item true⟩ := by
  cases name? with
  | none =>
    obtain ⟨e, he, hread⟩ := read_pairWords (read_words hv) .line .line
      (fun _ _ _ => rfl) (d := ⟨items, .item true⟩) (takeName_bare _ _ none k l)
    refine ⟨(.single ⟨k, l⟩, e), rfl, he, ?_⟩
    rw [lineWords, read_append _ hread]
    rfl
  | some name =>
    have hname : (⟨items, .item true⟩ : Draft).take ⟨.bare, name.toList, l⟩ =
        .ok ⟨items, .keyEnd .line (.single ⟨name, l⟩)⟩ := takeName_bare _ .line none name l
    have hdot (l' : Location) :
        (⟨items, .name .line (some (.single ⟨name, l⟩))⟩ : Draft).take ⟨.bare, k.toList, l'⟩ =
          .ok ⟨items, .keyEnd .line ⟨⟨name, l⟩, [⟨k, l'⟩]⟩⟩ :=
      takeName_bare _ .line (some (.single ⟨name, l⟩)) k l'
    obtain ⟨e, he, hread⟩ := read_pairWords (read_words hv) .line .line
      (fun _ _ _ => rfl) (hdot ((l.after name.toList).after ['.']))
    refine ⟨(⟨⟨name, l⟩, [⟨k, (l.after name.toList).after ['.']⟩]⟩, e), rfl, he, ?_⟩
    rw [lineWords, List.cons_append, List.cons_append, read_cons _ _ hname,
      read_cons (⟨items, .name .line (some (.single ⟨name, l⟩))⟩) _ rfl, read_append _ hread]
    rfl

theorem read_lines (name? : Option String) : ∀ {fields : List (String × Json)},
    MembersWritable fields → ∀ (items : List Item) (l : Location),
    ∃ ps, PairsShow name?.toList ps fields ∧
      (⟨items, .item true⟩ : Draft).read l (fields.flatMap (lineWords name?)) =
        .ok ⟨(pairItems ps).reverse ++ items, .item true⟩
  | [], _, items, l => ⟨[], .nil, rfl⟩
  | (k, v) :: fields, h, items, l => by
      obtain ⟨-, hv, hfields⟩ := h
      obtain ⟨p, hp, hshow, hread⟩ := read_line hv name? k items l
      obtain ⟨ps, hps, hrest⟩ := read_lines name? hfields (.pair p.1 p.2 :: items)
        (l.after (lettering (lineWords name? (k, v))))
      refine ⟨p :: ps, .cons ⟨hp, hshow⟩ hps, ?_⟩
      rw [List.flatMap_cons, read_append _ hread, hrest]
      simp [pairItems]

/-! ## Sections under headers -/

/-- The items of a section. -/
def sectionItems (s : Section) : List Item := .heading s.heading :: pairItems s.pairs

/-- A section that shows a name and its fields. -/
def SectionShows (s : Section) (m : String × List (String × Json)) : Prop :=
  (∃ l k, s.heading = .table l k ∧ k.names = [m.1]) ∧ PairsShow [] s.pairs m.2

theorem read_section {m : String × List (String × Json)} (hm : MembersWritable m.2)
    (items : List Item) (l : Location) :
    ∃ s, SectionShows s m ∧ (⟨items, .item true⟩ : Draft).read l (Spelling.headers.words m) =
      .ok ⟨(sectionItems s).reverse ++ items, .item true⟩ := by
  obtain ⟨name, fields⟩ := m
  have hname : (⟨items, .headerKind l⟩ : Draft).take ⟨.bare, name.toList, l.after ['[']⟩ =
      .ok ⟨items, .keyEnd (.header l) (.single ⟨name, l.after ['[']⟩)⟩ :=
    takeName_bare _ (.header l) none name _
  obtain ⟨ps, hps, hread⟩ := read_lines none hm
    (.heading (.table l (.single ⟨name, l.after ['[']⟩)) :: items)
    ((((l.after ['[']).after name.toList).after [']']).after ['\n'])
  refine ⟨⟨.table l (.single ⟨name, l.after ['[']⟩), ps⟩, ⟨⟨_, _, rfl, rfl⟩, hps⟩, ?_⟩
  rw [Spelling.words, read_cons ⟨items, .headerKind l⟩ _ rfl, read_cons _ _ hname,
    read_cons (⟨.heading (.table l (.single ⟨name, l.after ['[']⟩)) :: items, .item false⟩) _ rfl,
    read_cons (⟨.heading (.table l (.single ⟨name, l.after ['[']⟩)) :: items, .item true⟩) _ rfl]
  refine Eq.trans hread ?_
  simp [sectionItems]

theorem read_sections : ∀ {ms : List (String × List (String × Json))},
    (∀ m ∈ ms, MembersWritable m.2) → ∀ (items : List Item) (l : Location),
    ∃ ss, List.Forall₂ SectionShows ss ms ∧
      (⟨items, .item true⟩ : Draft).read l (ms.flatMap Spelling.headers.words) =
        .ok ⟨(ss.flatMap sectionItems).reverse ++ items, .item true⟩
  | [], _, items, l => ⟨[], .nil, rfl⟩
  | m :: ms, h, items, l => by
      obtain ⟨s, hs, hread⟩ := read_section (h m List.mem_cons_self) items l
      obtain ⟨ss, hss, hrest⟩ := read_sections (fun x hx => h x (List.mem_cons_of_mem _ hx))
        ((sectionItems s).reverse ++ items) (l.after (lettering (Spelling.headers.words m)))
      refine ⟨s :: ss, .cons hs hss, ?_⟩
      rw [List.flatMap_cons, read_append _ hread, hrest]
      simp

/-! ## Sections before the first header -/

/-- Pairs with dotted keys, section by section. -/
theorem read_dotted : ∀ {ms : List (String × List (String × Json))},
    (∀ m ∈ ms, MembersWritable m.2) → ∀ (items : List Item) (l : Location),
    ∃ pss, List.Forall₂ (fun ps m => PairsShow [m.1] ps m.2) pss ms ∧
      (⟨items, .item true⟩ : Draft).read l (ms.flatMap Spelling.dottedKeys.words) =
        .ok ⟨(pairItems pss.flatten).reverse ++ items, .item true⟩
  | [], _, items, l => ⟨[], .nil, rfl⟩
  | m :: ms, h, items, l => by
      obtain ⟨ps, hps, hread⟩ := read_lines (some m.1) (h m List.mem_cons_self) items l
      obtain ⟨pss, hpss, hrest⟩ := read_dotted (fun x hx => h x (List.mem_cons_of_mem _ hx))
        ((pairItems ps).reverse ++ items) (l.after (lettering (Spelling.dottedKeys.words m)))
      refine ⟨ps :: pss, .cons hps hpss, ?_⟩
      rw [List.flatMap_cons]
      refine (read_append _ hread).trans ?_
      refine Eq.trans hrest ?_
      simp [pairItems]

end Draft

/-! ## Documents -/

namespace Document

theorem ofItems_sectionItems (s : Section) (items : List Item) :
    ofItems (Draft.sectionItems s ++ items) =
      ⟨[], ⟨s.heading, s.pairs ++ (ofItems items).opening⟩ :: (ofItems items).sections⟩ := by
  have hpairs : ∀ ps : List (Key × Expr), (Draft.pairItems ps).foldr cons (ofItems items) =
      ⟨ps ++ (ofItems items).opening, (ofItems items).sections⟩ := by
    intro ps
    induction ps with
    | nil => rfl
    | cons p ps ih =>
      rw [Draft.pairItems] at ih ⊢
      rw [List.map_cons, List.foldr_cons, ih]
      rfl
  rw [ofItems, List.foldr_append, Draft.sectionItems, List.foldr_cons]
  rw [show items.foldr cons ⟨[], []⟩ = ofItems items from rfl, hpairs]
  rfl

theorem ofItems_flatMap_sectionItems (ss : List Section) :
    ofItems (ss.flatMap Draft.sectionItems) = ⟨[], ss⟩ := by
  induction ss with
  | nil => rfl
  | cons s ss ih => simp [ofItems_sectionItems, ih]

theorem ofItems_pairItems (ps : List (Key × Expr)) :
    ofItems (Draft.pairItems ps) = ⟨ps, []⟩ := by
  induction ps with
  | nil => rfl
  | cons p ps ih =>
    rw [Draft.pairItems] at ih ⊢
    rw [List.map_cons, ofItems, List.foldr_cons]
    rw [show (ps.map fun p => Item.pair p.1 p.2).foldr cons ⟨[], []⟩ = ⟨ps, []⟩ from ih]
    rfl

end Document

end AuditSettings.Toml
