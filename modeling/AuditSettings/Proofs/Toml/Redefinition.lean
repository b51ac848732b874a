/-
AuditSettings.Proofs.Toml.Redefinition — which redefinitions a text is
refused for.

To redefine is to give a value to an address twice, to name a table twice,
or to name a table that a dotted key has implied. A text that does so is
refused wherever the fault is seen (`parse_redefinition`): in every table
that no index leads to, and for values in the elements of an array as well.
Elsewhere it is accepted. A table that a header has passed through may be
named again even in sight, since naming it leaves no mark on it.

The proof follows a header through the table under construction as the
survey follows it through the document. As long as nothing is faulted, both
enter the same tables (`tells_follow`), and so every section tells its acts
(`tells_addSection`).
-/
import AuditSettings.Proofs.Toml.Kinds
import AuditSettings.Proofs.Toml.Parsing

namespace AuditSettings.Toml

open AuditSettings.Text

/-! ## Following a header -/

namespace Survey

/-- The acts of a header from a name on that is not its last: it passes
through the table that the name leads into, and goes on from there. -/
def entered (s : Survey) (a : Address) (onward : Address → List (Address × Act)) :
    List (Address × Act) :=
  if s.count a = 0 then ([], .pass) :: onward a
  else under [.index (s.count a - 1)]
    (([], .pass) :: onward (a ++ [.index (s.count a - 1)]))

/-- The acts of a header's key from a table at `a` on, with what is done
where it leads. -/
def followed (s : Survey) (arrival : Address → List (Address × Act)) (a : Address) (k : KeyPart) :
    List KeyPart → List (Address × Act)
  | [] => under [.key k.name] (arrival (a ++ [.key k.name]))
  | k' :: ks =>
    under [.key k.name] (s.entered (a ++ [.key k.name]) fun b => s.followed arrival b k' ks)

theorem rooted_followed (s : Survey) (arrival : Address → List (Address × Act)) (a : Address)
    (k : KeyPart) (ks : List KeyPart) : Rooted (s.followed arrival a k ks) := by
  cases ks with
  | nil => exact rooted_under _ _
  | cons k' ks => exact rooted_under _ _

/-- The acts of a header are those along its route. -/
theorem under_followed (s : Survey) (arrival : Address → List (Address × Act)) (a : Address)
    (k : KeyPart) (ks : List KeyPart) : under a (s.followed arrival a k ks) =
      (s.route a k ks).2.map (fun x => (x.1, .pass)) ++
        under (s.route a k ks).1 (arrival (s.route a k ks).1) := by
  induction ks generalizing a k with
  | nil => simp [followed, route]
  | cons k' ks ih =>
    rw [followed, route, entered, enter]
    by_cases hcount : s.count (a ++ [.key k.name]) = 0
    · rw [if_pos hcount, if_pos hcount, under_under, under_cons, ih, List.append_nil]
      rfl
    · rw [if_neg hcount, if_neg hcount, under_under, under_under, under_cons, ih, List.append_nil]
      rfl

theorem acts_eq_followed (s : Survey) (sec : Section) :
    s.acts sec = s.followed (fun b => s.arrival b sec) [] sec.heading.key.head sec.heading.key.tail := by
  have h := s.under_followed (fun b => s.arrival b sec) [] sec.heading.key.head
    sec.heading.key.tail
  rw [under_root] at h
  exact h.symm

end Survey

/-- The last item of an array is changed. -/
theorem Node.tells_last {s : Sight} {faults faults' : List Clash} {l : Location} {ofTables : Bool}
    {init : List Node} {n m : Node} {acts : List (Address × Act)}
    (hm : m.Tells (s.within (.index init.length)) n.kindAt? acts) :
    (Node.array faults' l ofTables (init ++ [m])).Tells s
      (Node.array faults l ofTables (init ++ [n])).kindAt? (under [.index init.length] acts) := by
  refine Tells.within (m := m) ?_ rfl (fun a => ?_) fun y a hy => ?_
  · simpa only [kindAt?_concat] using hm
  · exact kindAt?_concat init m a
  · cases y with
    | key name => rfl
    | index i =>
      have hne : i ≠ init.length := fun heq => hy (by rw [heq])
      rw [kindAt?_array faults' faults]
      refine kindAt?_item_congr ?_ a
      rw [List.getElem?_append, List.getElem?_append]
      split
      · rfl
      · rw [List.getElem?_eq_none (by simp; omega), List.getElem?_eq_none (by simp; omega)]

namespace Contents

variable {s : Survey} {σ : Sight} {a : Address} {t : Contents} {k : KeyPart} {l : Location}
  {kind : TableKind}

/-- Where a header has added nothing to a name, it leads into what the name
has. -/
theorem entered_of_count {onward : Address → List (Address × Act)} {n m : Node}
    (hcount : s.count a = 0) (hm : m.Tells σ n.kindAt? (onward a)) :
    m.Tells σ n.kindAt? (s.entered a onward) := by
  rw [Survey.entered, if_pos hcount]
  exact hm.act rfl trivial

/-- What a header does further on is told where nothing is seen. -/
theorem entered_of_blind {onward : Address → List (Address × Act)} {n m : Node}
    (honward : ∀ b, Rooted (onward b)) : m.Tells .blind n.kindAt? (s.entered a onward) := by
  rw [Survey.entered]
  split
  · exact (Node.Tells.blind (honward a)).act rfl trivial
  · exact .blind (rooted_under _ _)

/-- Where it is seen, an array of tables has as many items as headers have
added, and the last is a table. -/
theorem exists_last {faults : List Clash} {items : List Node}
    (hlink : s.Linked .far a (Node.array faults l true items).kindAt?) :
    ∃ init faults' l' es, items = init ++ [.table faults' l' .regular es] ∧
      init.length + 1 = s.count a := by
  have hpos : 0 < s.count a := by simpa using (hlink.array_iff [] rfl).2 rfl
  have hkind : ∀ j, items[j]?.map Node.kind =
      if j < s.count a then some (.table .regular) else none := by
    intro j
    have hitem := hlink.item [] rfl (.inr rfl) j
    rw [List.nil_append, List.append_nil] at hitem
    rw [← hitem]
    cases hj : items[j]? <;> simp [Node.kindAt?, hj]
  have hlength : items.length = s.count a := by
    have hge : ¬ items.length < s.count a := by
      intro hlt
      have := hkind items.length
      rw [if_pos hlt] at this
      simp at this
    have hle : ¬ s.count a < items.length := by
      intro hlt
      have := hkind (s.count a)
      rw [if_neg (Nat.lt_irrefl _)] at this
      simp [hlt] at this
    omega
  obtain ⟨init, last, rfl⟩ := (List.eq_nil_or_concat' items).resolve_left (by
    rintro rfl
    simp at hlength
    omega)
  rw [List.length_append, List.length_singleton] at hlength
  have hlast := hkind init.length
  rw [if_pos (by omega)] at hlast
  simp only [List.getElem?_concat_length, Option.map_some, Option.some.injEq] at hlast
  cases last with
  | scalar faults' l' v => cases hlast
  | array faults' l' ofTables' items' => cases hlast
  | table faults' l' kind' es =>
    obtain rfl : kind' = .regular := by simpa [Node.kind] using hlast
    exact ⟨init, faults', l', es, rfl, hlength⟩

/-- An array that a header leads to is one of tables, or it is faulted. -/
theorem ofTables_of_clean {faults : List Clash} {c : Clash} {ofTables : Bool} {items : List Node}
    (h : (Node.array (if ofTables then faults else faults ++ [c]) l ofTables items).Clean .far) :
    ofTables = true := by
  cases ofTables with
  | true => rfl
  | false => cases Node.eq_blind_of_clean h (by simp [Node.faults])

theorem fillLast_concat (fill : Contents → Contents) (k : Location) (init : List Node)
    (faults : List Clash) (l : Location) (kind : TableKind) (es : List (KeyPart × Node)) :
    fillLast k fill (init ++ [.table faults l kind es]) =
      init ++ [(fill ⟨faults, es⟩).node l kind] := by
  simp [fillLast]

/-- Whether a change tells its acts in each table where it may be made. -/
def TellsAll (s : Survey) (change : Contents → Contents) (acts : Address → List (Address × Act)) :
    Prop :=
  ∀ ⦃σ a t l kind⦄, s.Linked σ a (node t l kind).kindAt? → (change t).Clean σ →
    ((change t).node l kind).Tells σ (t.node l kind).kindAt? (acts a)

section Through

variable {inside : Contents → Contents} {onward : Address → List (Address × Act)}

/-- A header enters the last element of an array of tables. -/
theorem tells_fillLast {faults faults' : List Clash} {items : List Node} {loc : Location}
    (hinside : TellsAll s inside onward)
    (hlink : s.Linked .far a (Node.array faults l true items).kindAt?)
    (hclean : (Node.array faults' l true (fillLast loc inside items)).Clean .far) :
    (Node.array faults' l true (fillLast loc inside items)).Tells .far
      (Node.array faults l true items).kindAt? (s.entered a onward) := by
  obtain ⟨init, faults'', l'', es, rfl, hlength⟩ := exists_last hlink
  rw [fillLast_concat] at hclean ⊢
  have hlast := hlink.within (by decide) (.index init.length)
  simp only [Node.kindAt?_concat] at hlast
  have hinner := Node.clean_item hclean init.length (List.mem_append_right _ List.mem_cons_self)
  have hne : s.count a ≠ 0 := by omega
  rw [Survey.entered, if_neg hne, ← hlength, Nat.add_sub_cancel]
  refine Node.tells_last ?_
  exact (hinside (t := ⟨faults'', es⟩) hlast (clean_node.1 hinner)).act rfl trivial

/-- What a header does at a name that is not its last, if what it does
further on is told. -/
theorem tells_through (honward : ∀ b, Rooted (onward b)) (hinside : TellsAll s inside onward) :
    TellsAll s (through inside k) fun a =>
      under [.key k.name] (s.entered (a ++ [.key k.name]) onward) := by
  intro σ a t l kind hlink hclean
  by_cases hσ : σ = .blind
  · subst hσ
    exact .blind (rooted_under _ _)
  have hchild := hlink.within hσ (.key k.name)
  rw [through] at hclean ⊢
  split at hclean
  · -- a table is made
    next hfind =>
    simp only [kindAt?_node_key, hfind, Option.bind_none] at hchild
    have hcount : s.count (a ++ [.key k.name]) = 0 := by
      by_contra hne
      exact hchild.ne_none [] trivial (by simpa using Nat.pos_of_ne_zero hne) rfl
    have hempty : s.Linked (σ.within (.key k.name)) (a ++ [.key k.name])
        (empty.node k.location .passed).kindAt? :=
      hchild.made (fun _ => rfl) .passed rfl fun x b => by cases x <;> simp [empty, find?]
    refine tells_push hfind ?_
    rw [Survey.entered, if_pos hcount]
    exact (tells_empty rfl).trans (hinside hempty (clean_node.1 (clean_push_iff.1 hclean).2))
  · -- a table is entered
    next old faults l' kind' entries hfind =>
    simp only [kindAt?_node_key, hfind, Option.bind_some] at hchild
    obtain ⟨others, -, hframe⟩ := clean_frame hfind σ
    have hinner := clean_node.1 ((hframe _).1 hclean).2
    refine tells_setNewest hfind ?_
    by_cases hcount : s.count (a ++ [.key k.name]) = 0
    · refine entered_of_count hcount ?_
      rw [Node.kindAt?_table faults _ l' l' kind' entries] at hchild ⊢
      exact hinside hchild hinner
    · -- an array of tables would be seen here, so nothing is
      obtain rfl : σ = .near := by
        cases σ with
        | far =>
          have harray := (hchild.array_iff [] rfl).1 (by simpa using Nat.pos_of_ne_zero hcount)
          cases harray
        | near => rfl
        | blind => exact absurd rfl hσ
      exact entered_of_blind honward
  · -- the last element of an array is entered
    next old faults l' ofTables items hfind =>
    simp only [kindAt?_node_key, hfind, Option.bind_some] at hchild
    obtain ⟨others, -, hframe⟩ := clean_frame hfind σ
    have hinner := ((hframe _).1 hclean).2
    refine tells_setNewest hfind ?_
    cases σ with
    | near => exact entered_of_blind honward
    | blind => exact absurd rfl hσ
    | far =>
      obtain rfl := ofTables_of_clean hinner
      exact tells_fillLast hinside hchild hinner
  · -- a scalar is in the way
    exact absurd (clean_addFault_iff.1 (clean_push_iff.1 hclean).1) hσ

end Through

/-- Following a header's key tells its acts if what is done at its end is
told. -/
theorem tells_follow {arrive : KeyPart → Contents → Contents}
    {arrival : Address → List (Address × Act)}
    (harrive : ∀ k, TellsAll s (arrive k) fun a =>
      under [.key k.name] (arrival (a ++ [.key k.name]))) (k : KeyPart) (ks : List KeyPart) :
    TellsAll s (follow arrive k ks) fun a => s.followed arrival a k ks := by
  induction ks generalizing k with
  | nil => exact harrive k
  | cons k' ks ih =>
    exact tells_through (fun b => s.rooted_followed arrival b k' ks) (ih k')

/-! ## Where a header leads -/

/-- A table header names the table it leads to, and its pairs tell their
acts there. -/
theorem tells_openTable {pairs : List (Key × Expr)} {l' : Location} :
    TellsAll s (openTable l' (Expr.contents pairs) k) fun _ =>
      under [.key k.name] (([], .name) :: Expr.pairsActs pairs) := by
  intro σ a t l kind _ hclean
  rw [openTable] at hclean ⊢
  split at hclean
  · next hfind =>
    have hinner := clean_node.1 (clean_push_iff.1 hclean).2
    exact tells_push hfind ((tells_empty rfl).trans (Expr.tells_contents pairs _ _ hinner))
  · next old faults l'' kind' entries hfind =>
    obtain ⟨others, -, hframe⟩ := clean_frame hfind σ
    have hinner := clean_node.1 ((hframe _).1 hclean).2
    refine tells_setNewest hfind ?_
    rw [Node.kindAt?_table faults _ l'' l'' kind' entries]
    refine (Expr.tells_contents pairs _ _ hinner).act rfl ?_
    intro hsees
    by_cases hpassed : kind' = .passed
    · exact .inr (by rw [hpassed]; rfl)
    · -- the fault that this leaves would be seen
      have hblind := eq_blind_of_clean (stays_contents pairs _ _ hinner) (by simp [hpassed])
      exact absurd hblind hsees
  · next old n hnot hfind =>
    obtain rfl := clean_addFault_iff.1 (stays_contents pairs _ _ hclean)
    exact .blind (rooted_under _ _)

/-- Pairs of an array header that finds no array go into the table around
it. Where only that table's own faults are seen, this is told like anything
that is done to what the name has. -/
theorem tells_astray {old : KeyPart} {n : Node} {c : Clash} {pairs : List (Key × Expr)}
    {acts : List (Address × Act)} (hfind : t.find? k.name = some (old, n))
    (hclean : (Expr.contents pairs (t.setNewest k.name (n.addFault c))).Clean .near)
    (hfits : Sight.blind.AllFit (fun b => (t.node l kind).kindAt? (.key k.name :: b)) acts) :
    ((Expr.contents pairs (t.setNewest k.name (n.addFault c))).node l kind).Tells .near
      (t.node l kind).kindAt? (under [.key k.name] acts) := by
  have hsame : ((t.setNewest k.name (n.addFault c)).node l kind).kindAt? =
      (t.node l kind).kindAt? := by
    funext b
    cases b with
    | nil => rfl
    | cons x b =>
      cases x with
      | index i => rfl
      | key name =>
        by_cases hname : name = k.name
        · subst hname
          simp [find?_setNewest hfind, hfind, Node.kindAt?_addFault]
        · simp [find?_setNewest hfind, hname]
  have htold : ((Expr.contents pairs (t.setNewest k.name (n.addFault c))).node l kind).Tells .near
      ((t.setNewest k.name (n.addFault c)).node l kind).kindAt? (Expr.pairsActs pairs) :=
    Expr.tells_contents pairs _ .near hclean
  rw [hsame] at htold
  refine ⟨fun b hb => ?_, fun b hb hsome => ?_, Sight.AllFit.under (s := .near) hfits⟩
  · cases b with
    | nil => exact (after_of_some rfl).symm
    | cons x b => exact absurd (Sight.along_blind b) hb
  · cases b with
    | nil => rfl
    | cons x b =>
      obtain rfl : b = [] := by
        cases b with
        | nil => rfl
        | cons y b => exact absurd rfl hb.2.1
      cases hx : (t.node l kind).kindAt? [x] with
      | some κ => exact htold.isSome [x] hb (by simp [after_of_some hx])
      | none =>
        -- the name itself has something, and nothing is done elsewhere
        rw [after, hx, Option.none_or, lookup_under_cons] at hsome
        split at hsome
        · next hname =>
          subst hname
          simp [hfind, Node.kindAt?] at hx
        · cases hsome

/-- The table of an element tells the acts of its pairs. -/
theorem tells_element {pairs : List (Key × Expr)} (h : (Expr.contents pairs .empty).Clean σ) :
    ((Expr.contents pairs .empty).node l .regular).Tells σ (fun _ => none)
      (([], .element) :: Expr.pairsActs pairs) :=
  (tells_empty rfl).trans (Expr.tells_contents pairs _ _ h)

/-- An array header may add to anything where nothing is seen. -/
theorem extended_of_blind {n m : Node} {acts : List (Address × Act)} {i : Nat} :
    m.Tells .blind n.kindAt? (([], .extend) :: under [.index i] acts) := by
  refine (Node.Tells.blind (rooted_under _ _)).act rfl ?_
  intro hsees
  exact absurd hsees (Sight.not_sees_blind [])

/-- An array header adds an element to the array it leads to, and its pairs
tell their acts there. -/
theorem tells_openArray {pairs : List (Key × Expr)} {l' : Location} :
    TellsAll s (openArray l' (Expr.contents pairs) k) fun a =>
      under [.key k.name] (([], .extend) :: under [.index (s.count (a ++ [.key k.name]))]
        (([], .element) :: Expr.pairsActs pairs)) := by
  intro σ a t l kind hlink hclean
  by_cases hσ : σ = .blind
  · subst hσ
    exact .blind (rooted_under _ _)
  have hchild := hlink.within hσ (.key k.name)
  rw [openArray] at hclean ⊢
  split at hclean
  · -- the array is made
    next hfind =>
    have hcount : s.count (a ++ [.key k.name]) = 0 := by
      by_contra hne
      refine hchild.ne_none [] trivial (by simpa using Nat.pos_of_ne_zero hne) ?_
      simp [hfind]
    refine tells_push hfind ?_
    rw [hcount]
    have hinner := Node.clean_item (clean_push_iff.1 hclean).2 0 List.mem_cons_self
    exact (Node.tells_array rfl).trans (Node.tells_concat (tells_element (clean_node.1 hinner)))
  · -- the array is there
    next old faults l'' ofTables items hfind =>
    simp only [kindAt?_node_key, hfind, Option.bind_some] at hchild
    obtain ⟨others, -, hframe⟩ := clean_frame hfind σ
    have hinner := ((hframe _).1 hclean).2
    refine tells_setNewest hfind ?_
    cases σ with
    | near => exact extended_of_blind
    | blind => exact absurd rfl hσ
    | far =>
      obtain rfl := ofTables_of_clean hinner
      have hlength : items.length = s.count (a ++ [.key k.name]) := by
        obtain ⟨init, faults', l₃, es, rfl, hlength⟩ := exists_last hchild
        rw [List.length_append, List.length_singleton, hlength]
      have hitem := Node.clean_item hinner items.length
        (List.mem_append_right _ List.mem_cons_self)
      rw [← hlength, Node.kindAt?_array faults _ l'' l'' true items]
      refine (Node.tells_concat (tells_element (clean_node.1 hitem))).act rfl ?_
      intro _
      exact .inr rfl
  · -- no array is there, and the fault that this leaves would be seen
    next old n hnot hfind =>
    have hset := stays_contents pairs _ _ hclean
    obtain ⟨others, -, hframe⟩ := clean_frame hfind σ
    have hblind := Node.eq_blind_of_clean ((hframe _).1 hset).2 (by simp [Node.faults_addFault])
    obtain rfl : σ = .near := by
      cases σ with
      | far => cases hblind
      | near => rfl
      | blind => exact absurd rfl hσ
    refine tells_astray hfind hclean ?_
    simpa only [kindAt?_node_key, hfind, Option.bind_some] using
      (extended_of_blind (n := n) (m := n)).fits

/-! ## Sections -/

/-- A section tells its acts, and the survey goes on counting what is
seen. -/
theorem tells_addSection {sec : Section} (hlink : s.Linked .far [] (t.node l kind).kindAt?)
    (hclean : (t.addSection sec).Clean .far) :
    ((t.addSection sec).node l kind).Tells .far (t.node l kind).kindAt? (s.acts sec) := by
  rw [s.acts_eq_followed]
  obtain ⟨heading, pairs⟩ := sec
  cases heading with
  | table l' key => exact tells_follow (fun _ => tells_openTable) _ _ hlink hclean
  | element l' key => exact tells_follow (fun _ => tells_openArray) _ _ hlink hclean

/-- Sections tell their acts. -/
theorem tells_addSections (secs : List Section) (hlink : s.Linked .far [] (t.node l kind).kindAt?)
    (hclean : (secs.foldl addSection t).Clean .far) :
    ((secs.foldl addSection t).node l kind).Tells .far (t.node l kind).kindAt?
      (s.sectionsActs secs) := by
  induction secs generalizing s t with
  | nil => exact ⟨fun a _ => by simp [Survey.sectionsActs],
      fun a _ => by simp [Survey.sectionsActs], trivial⟩
  | cons sec secs ih =>
    have hfirst := tells_addSection hlink (stays_addSections secs _ _ hclean)
    exact hfirst.trans (ih (hlink.addSection hfirst.fits hfirst.kindAt hfirst.isSome) hclean)

end Contents

namespace Document

/-- What there is in a document before anything is written. -/
def blank (a : Address) : Option NodeKind := (Contents.empty.node .origin .regular).kindAt? a

/-- The pairs in front of all headers tell their acts. -/
theorem tells_opening (d : Document) (h : (Expr.contents d.opening .empty).Clean .far) :
    ((Expr.contents d.opening .empty).node .origin .regular).Tells .far blank
      (Expr.pairsActs d.opening) :=
  Expr.tells_contents d.opening .empty .far h

/-- The pairs in front of all headers make no array of tables. -/
theorem linked_opening (d : Document) (h : (Expr.contents d.opening .empty).Clean .far) :
    (Survey.addPairs ⟨[], [], []⟩ [] d.opening).Linked .far []
      ((Expr.contents d.opening .empty).node .origin .regular).kindAt? := by
  refine .empty _ _ (fun a ha harray => ?_) fun a _ hnone i => Node.kindAt?_append_eq_none hnone _
  have htold := d.tells_opening h
  rw [htold.kindAt a (Sight.sees_of_along ha), after] at harray
  cases a with
  | nil => cases harray
  | cons x a =>
    have hblank : blank (x :: a) = none := by cases x <;> rfl
    rw [hblank, Option.none_or, Option.map_eq_some_iff] at harray
    obtain ⟨e, he, hmakes⟩ := harray
    rcases (Expr.spoken_pairsActs d.opening).act _ (mem_of_lookup he) with himply | ⟨σ, hσ⟩
    · obtain rfl : e = .imply := himply
      cases hmakes
    · obtain rfl : e = .assign σ := hσ
      cases σ <;> cases hmakes

/-- The acts of a document fit as far as its faults are seen, if none is. -/
theorem allFit {d : Document} (h : d.contents.firstFault = none) :
    Sight.far.AllFit blank d.acts := by
  have hclean : d.contents.Clean .far := h
  have hopening := Contents.stays_addSections d.sections _ _ hclean
  have htold := d.tells_opening hopening
  exact (htold.trans (Contents.tells_addSections d.sections (d.linked_opening hopening) hclean)).fits

/-! ## Redefinitions -/

/-- Whether two pairs give a value to one address. -/
def AssignsTwice (d : Document) (a : Address) : Prop :=
  ∃ σ τ, [(a, Act.assign σ), (a, Act.assign τ)].Sublist d.acts

/-- Whether two headers name the table at an address. -/
def NamesTwice (d : Document) (a : Address) : Prop :=
  [(a, Act.name), (a, Act.name)].Sublist d.acts

/-- Whether a header names a table that an earlier dotted key has made. -/
def NamesImplied (d : Document) (a : Address) : Prop :=
  d.acts.lookup a = some .imply ∧ (a, .name) ∈ d.acts

instance (d : Document) (a : Address) : Decidable (d.NamesTwice a) :=
  inferInstanceAs (Decidable (List.Sublist _ _))

instance (d : Document) (a : Address) : Decidable (d.NamesImplied a) :=
  inferInstanceAs (Decidable (_ ∧ _))

theorem blank_ne_passed (a : Address) : blank a ≠ some (.table .passed) := by
  cases a with
  | nil => decide
  | cons x a => cases x <;> simp [blank, Contents.empty, Contents.find?]

/-- Without a fault in sight, no redefinition is in sight. -/
theorem redefinition_unseen {d : Document} (h : d.contents.firstFault = none) (a : Address) :
    (d.AssignsTwice a → ¬ Sight.far.Reaches a) ∧
    (d.NamesTwice a → Sight.far.Sees a → d.acts.lookup a = some .pass) ∧
    (d.NamesImplied a → ¬ Sight.far.Sees a) := by
  have hfit := d.allFit h
  refine ⟨?_, ?_, ?_⟩
  · rintro ⟨σ, τ, htwice⟩ hreach
    exact hfit.not_assigned_twice hreach htwice
  · intro htwice hsees
    exact hfit.passed_of_named hsees (blank_ne_passed a) htwice
  · rintro ⟨hfirst, hname⟩ hsees
    have hsub : [(a, Act.imply), (a, Act.name)].Sublist d.acts := by
      obtain ⟨before, rest, hacts, hbefore⟩ := List.lookup_eq_some_iff.1 hfirst
      rw [hacts] at hname ⊢
      refine List.Sublist.trans ?_ (List.sublist_append_right _ _)
      refine List.Sublist.cons_cons _ (List.singleton_sublist.2 ?_)
      rcases List.mem_append.1 hname with hmem | hmem
      · have := hbefore _ hmem
        simp at this
      · exact (List.mem_cons.1 hmem).resolve_left (by simp)
    rw [hfit.passed_of_named hsees (blank_ne_passed a) hsub] at hfirst
    cases hfirst

end Document

/-- A text is refused when it gives a value twice to a key of a table that is
in sight, as those are that no index leads on from; when it names a table in
sight twice, which it did not lead a header through first; or when it names
one in sight that a dotted key has made. -/
theorem parse_redefinition {text : List Char} {d : Document} (hd : Document.ofText text = .ok d)
    (a : Address) :
    (d.AssignsTwice a → (∀ i, .index i ∉ a.dropLast.dropLast) → ∃ e, parse text = .error e) ∧
    (d.NamesTwice a → (∀ i, .index i ∉ a.dropLast) → d.acts.lookup a ≠ some .pass →
      ∃ e, parse text = .error e) ∧
    (d.NamesImplied a → (∀ i, .index i ∉ a.dropLast) → ∃ e, parse text = .error e) := by
  have hparse : parse text = d.table := by rw [parse, hd]
  rw [hparse, Document.table]
  cases hfault : d.contents.firstFault with
  | some c => exact ⟨fun _ _ => ⟨_, rfl⟩, fun _ _ _ => ⟨_, rfl⟩, fun _ _ => ⟨_, rfl⟩⟩
  | none =>
    obtain ⟨hassigned, hnamed, himplied⟩ := d.redefinition_unseen hfault a
    refine ⟨fun h hsight => ?_, fun h hsight hpass => ?_, fun h hsight => ?_⟩
    · exact absurd (Sight.reaches_of_dropLast hsight) (hassigned h)
    · exact absurd (hnamed h (Sight.sees_of_dropLast hsight)) hpass
    · exact absurd (Sight.sees_of_dropLast hsight) (himplied h)

/-- A header may not name what a dotted key has made. -/
theorem parse_redefinition_of_implied : ∃ d,
    Document.ofText "[a]\nb.c = 1\n[a.b]\n".toList = .ok d ∧
    d.NamesImplied [.key "a", .key "b"] ∧
    ∃ e, parse "[a]\nb.c = 1\n[a.b]\n".toList = .error e := by
  obtain ⟨d, hd⟩ := exists_of_isOk (x := Document.ofText "[a]\nb.c = 1\n[a.b]\n".toList) (by
    simp only [String.reduceToList]
    decide +kernel)
  have himplied := of_all (fun d => decide (d.NamesImplied [.key "a", .key "b"])) hd (by
    simp only [String.reduceToList]
    decide +kernel)
  have himplied := of_decide_eq_true himplied
  exact ⟨d, hd, himplied, (parse_redefinition hd _).2.2 himplied (by simp)⟩

/-- In an element of an array a table may be named twice. -/
theorem parse_accepts_table_named_twice : ∃ t d,
    parse "[[r]]\n[r.t]\n[r.t]\n".toList = .ok t ∧
    Document.ofText "[[r]]\n[r.t]\n[r.t]\n".toList = .ok d ∧
    d.NamesTwice [.key "r", .index 0, .key "t"] := by
  obtain ⟨t, ht⟩ := exists_of_isOk (x := parse "[[r]]\n[r.t]\n[r.t]\n".toList) (by
    simp only [String.reduceToList]
    decide +kernel)
  obtain ⟨d, hd, -⟩ := exists_document ht
  have htwice := of_all (fun d => decide (d.NamesTwice [.key "r", .index 0, .key "t"])) hd (by
    simp only [String.reduceToList]
    decide +kernel)
  exact ⟨t, d, ht, hd, of_decide_eq_true htwice⟩

end AuditSettings.Toml
