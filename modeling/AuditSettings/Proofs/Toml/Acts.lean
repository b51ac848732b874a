/-
AuditSettings.Proofs.Toml.Acts — what the keys of a document do, in the
order of the text.

Every key part of a document does something at an address: it gives a value
there, implies a table, leads a header through one, names a table, or adds
an element to an array. These are the acts of the document. They are read
off the text as its survey is, and nothing is built for them. Redefining
something is a matter of acts alone: two values given at one address, a
table named twice, a table named that a dotted key has implied.

Which of these are noticed depends on where they happen. A `Sight` says how
far faults are looked for: through all tables, but in an array only on the
items themselves. `AllFit` says that acts are as they have to be wherever
they are seen, and `Linked` that a survey counts the elements of the arrays
that are seen.
-/
import AuditSettings.Proofs.Toml.Coherence

namespace AuditSettings.Toml

open AuditSettings.Text

/-! ## Acts -/

/-- What a node is, apart from what is in it. -/
inductive NodeKind where
  | scalar
  | array (ofTables : Bool)
  | table (kind : TableKind)
deriving DecidableEq, Repr

/-- What a key part of the text, or an item of a written array, does at an
address. -/
inductive Act where
  /-- A value is written there. -/
  | assign (shape : Shape)
  /-- The dots of a pair's key lead through it. -/
  | imply
  /-- A header leads through it. -/
  | pass
  /-- A table header names it. -/
  | name
  /-- An array header adds an element to it. -/
  | extend
  /-- It is the element that an array header adds. -/
  | element
deriving DecidableEq, Repr

/-- What an act makes where nothing was before. -/
def Act.makes : Act → NodeKind
  | assign (.scalar _) => .scalar
  | assign .array => .array false
  | assign .table => .table .inlined
  | imply => .table .dotted
  | pass => .table .passed
  | name => .table .regular
  | extend => .array true
  | element => .table .regular

/-- What the parts of a pair's key do, with what is done at its end. -/
def Key.actsFrom (value : List (Address × Act)) (k : KeyPart) : List KeyPart → List (Address × Act)
  | [] => under [.key k.name] value
  | k' :: ks => under [.key k.name] (([], .imply) :: Key.actsFrom value k' ks)

mutual

/-- The acts of a written value. -/
def Expr.acts : Expr → List (Address × Act)
  | .scalar _ v => [([], .assign (.scalar v))]
  | .array _ items => ([], .assign .array) :: Expr.itemsActs 0 items
  | .inlineTable _ pairs => ([], .assign .table) :: Expr.pairsActs pairs

/-- The acts of written items, counted from `i`. -/
def Expr.itemsActs (i : Nat) : List Expr → List (Address × Act)
  | [] => []
  | e :: es => under [.index i] e.acts ++ Expr.itemsActs (i + 1) es

/-- The acts of some pairs. -/
def Expr.pairsActs : List (Key × Expr) → List (Address × Act)
  | [] => []
  | (k, e) :: pairs => Key.actsFrom e.acts k.head k.tail ++ Expr.pairsActs pairs

end

/-- What a header does where its key leads, which is at `a`, and the pairs
under it. -/
def Survey.arrival (s : Survey) (a : Address) (sec : Section) : List (Address × Act) :=
  match sec.heading with
  | .table _ _ => ([], .name) :: Expr.pairsActs sec.pairs
  | .element _ _ =>
    ([], .extend) :: under [.index (s.count a)] (([], .element) :: Expr.pairsActs sec.pairs)

/-- The key of a header. -/
def Heading.key : Heading → Key
  | .table _ k => k
  | .element _ k => k

/-- The address that a header's key leads to. -/
def Survey.target (s : Survey) (h : Heading) : Address := (s.route [] h.key.head h.key.tail).1

/-- The acts of a section. -/
def Survey.acts (s : Survey) (sec : Section) : List (Address × Act) :=
  (s.route [] sec.heading.key.head sec.heading.key.tail).2.map (fun x => (x.1, .pass)) ++
    under (s.target sec.heading) (s.arrival (s.target sec.heading) sec)

/-- The acts of some sections. -/
def Survey.sectionsActs (s : Survey) : List Section → List (Address × Act)
  | [] => []
  | sec :: secs => s.acts sec ++ (s.addSection sec).sectionsActs secs

/-- All acts of a document. -/
def Document.acts (d : Document) : List (Address × Act) :=
  Expr.pairsActs d.opening ++ (Survey.addPairs ⟨[], [], []⟩ [] d.opening).sectionsActs d.sections

/-! ## What acts leave -/

section Lookup

variable {a : Address} {x y : Step} {acts : List (Address × Act)}

@[simp] theorem lookup_under_root : (under [x] acts).lookup [] = none := by
  rw [List.lookup_eq_none_iff]
  intro p hp
  obtain ⟨q, -, rfl⟩ := List.mem_map.1 hp
  simp

theorem lookup_under_cons :
    (under [x] acts).lookup (y :: a) = if x = y then acts.lookup a else none := by
  induction acts with
  | nil => simp
  | cons q acts ih =>
    obtain ⟨b, e⟩ := q
    rw [under_cons, List.lookup_cons, List.lookup_cons, ih]
    by_cases hxy : x = y
    · subst hxy
      simp
    · have hyx : (y == x) = false := by simpa using Ne.symm hxy
      simp [hxy, hyx]

@[simp] theorem lookup_under_self : (under [x] acts).lookup (x :: a) = acts.lookup a := by
  simp [lookup_under_cons]

theorem mem_of_lookup {e : Act} (h : acts.lookup a = some e) : (a, e) ∈ acts := by
  obtain ⟨before, rest, rfl, -⟩ := List.lookup_eq_some_iff.1 h
  exact List.mem_append_right _ List.mem_cons_self

end Lookup

/-- What acts leave at each address, given what was there. -/
def after (start : Address → Option NodeKind) (acts : List (Address × Act)) (a : Address) :
    Option NodeKind :=
  (start a).or ((acts.lookup a).map Act.makes)

theorem after_append (start : Address → Option NodeKind) (xs ys : List (Address × Act)) :
    after start (xs ++ ys) = after (after start xs) ys := by
  funext a
  simp [after, List.lookup_append, Option.map_or, Option.or_assoc]

@[simp] theorem after_nil (start : Address → Option NodeKind) : after start [] = start := by
  funext a
  simp [after]

/-- What was there stays. -/
theorem after_of_some {start : Address → Option NodeKind} {acts : List (Address × Act)}
    {a : Address} {κ : NodeKind} (h : start a = some κ) : after start acts a = some κ := by
  simp [after, h]

/-! ## Sight -/

/-- How far faults are looked for, seen from a node. -/
inductive Sight where
  /-- Its own faults, and those of all tables in it. -/
  | far
  /-- Its own faults only. -/
  | near
  /-- Not at all. -/
  | blind
deriving DecidableEq, Repr

namespace Sight

/-- The sight from what a step leads to. -/
def within : Sight → Step → Sight
  | far, .key _ => far
  | far, .index _ => near
  | near, _ => blind
  | blind, _ => blind

/-- The sight from what an address leads to. -/
def along : Sight → Address → Sight
  | s, [] => s
  | s, x :: a => (s.within x).along a

/-- Whether the faults of the node at an address are seen. -/
def Sees (s : Sight) (a : Address) : Prop := s.along a ≠ blind

/-- Whether the node at an address is the one that things are seen from, or
stands in a node of which the faults are seen. -/
def Reaches : Sight → Address → Prop
  | _, [] => True
  | s, x :: a => s ≠ blind ∧ (s.within x).Reaches a

theorem along_blind (a : Address) : blind.along a = blind := by
  induction a with
  | nil => rfl
  | cons x a ih => exact ih

theorem along_append (s : Sight) (a b : Address) : s.along (a ++ b) = (s.along a).along b := by
  induction a generalizing s with
  | nil => rfl
  | cons x a ih => exact ih (s.within x)

theorem Sees.reaches {s : Sight} {a : Address} (h : s.Sees a) : s.Reaches a := by
  induction a generalizing s with
  | nil => trivial
  | cons x a ih =>
    refine ⟨?_, ih h⟩
    rintro rfl
    exact h (along_blind a)

theorem not_sees_blind (a : Address) : ¬ blind.Sees a := by
  intro h
  exact h (along_blind a)

theorem sees_of_along {s : Sight} {a : Address} (h : s.along a = far) : s.Sees a := by
  intro hb
  rw [h] at hb
  cases hb

theorem sees_item {s : Sight} {a : Address} (h : s.along a = far) (i : Nat) :
    s.Sees (a ++ [.index i]) := by
  rw [Sees, along_append, h]
  intro hb
  cases hb

/-- Along an address without an index everything is seen. -/
theorem along_far_eq_far {a : Address} (h : ∀ i, Step.index i ∉ a) : far.along a = far := by
  induction a with
  | nil => rfl
  | cons x a ih =>
    cases x with
    | key name => exact ih fun i hi => h i (List.mem_cons_of_mem _ hi)
    | index i => exact absurd List.mem_cons_self (h i)

/-- A node that no index leads on from to another is seen. -/
theorem sees_of_dropLast {a : Address} (h : ∀ i, Step.index i ∉ a.dropLast) : far.Sees a := by
  rcases List.eq_nil_or_concat' a with rfl | ⟨b, x, rfl⟩
  · intro hb
    cases hb
  · rw [List.dropLast_concat] at h
    rw [Sees, along_append, along_far_eq_far h]
    cases x <;> intro hb <;> cases hb

theorem reaches_concat {s : Sight} {a : Address} {x : Step} (h : s.Sees a) :
    s.Reaches (a ++ [x]) := by
  induction a generalizing s with
  | nil => exact ⟨h, trivial⟩
  | cons y a ih => exact ⟨(Sees.reaches (a := y :: a) h).1, ih h⟩

/-- A node in one that no index leads on from to another is reached. -/
theorem reaches_of_dropLast {a : Address} (h : ∀ i, Step.index i ∉ a.dropLast.dropLast) :
    far.Reaches a := by
  rcases List.eq_nil_or_concat' a with rfl | ⟨b, x, rfl⟩
  · trivial
  · rw [List.dropLast_concat] at h
    exact reaches_concat (sees_of_dropLast h)

/-! ## Acts that fit -/

/-- Whether an act may happen at an address with what is there: a value is
given only where nothing is, a table named only when it is new or was passed
through, an element added only to an array of tables. -/
def Fits (s : Sight) (a : Address) (κ : Option NodeKind) : Act → Prop
  | .assign _ => s.Reaches a → κ = none
  | .name => s.Sees a → κ = none ∨ κ = some (.table .passed)
  | .extend => s.Sees a → κ = none ∨ κ = some (.array true)
  | .imply | .pass | .element => True

/-- Whether each of some acts may happen after those before it. -/
def AllFit (s : Sight) : (Address → Option NodeKind) → List (Address × Act) → Prop
  | _, [] => True
  | start, x :: acts => s.Fits x.1 (start x.1) x.2 ∧ AllFit s (after start [x]) acts

section AllFit

variable {s : Sight} {start start' : Address → Option NodeKind} {xs ys acts : List (Address × Act)}

theorem allFit_append : s.AllFit start (xs ++ ys) ↔
    s.AllFit start xs ∧ s.AllFit (after start xs) ys := by
  induction xs generalizing start with
  | nil => simp [AllFit]
  | cons x xs ih =>
    have hcons : after (after start [x]) xs = after start (x :: xs) := by
      rw [← after_append]
      rfl
    rw [List.cons_append, AllFit, AllFit, ih, hcons, and_assoc]

/-- What was there matters only as far as things are seen, and less of it
does no harm. -/
theorem AllFit.mono (h : s.AllFit start acts) (hsees : ∀ a, s.Sees a → start' a = start a)
    (hreaches : ∀ a, s.Reaches a → (start' a).isSome → (start a).isSome) :
    s.AllFit start' acts := by
  induction acts generalizing start start' with
  | nil => trivial
  | cons x acts ih =>
    obtain ⟨hfits, hrest⟩ := h
    obtain ⟨a, e⟩ := x
    constructor
    · cases e with
      | assign κ =>
        intro ha
        have hnone := hfits ha
        cases hs : start' a with
        | none => rfl
        | some κ' =>
          have := hreaches a ha (by simp [hs])
          simp [hnone] at this
      | name =>
        intro ha
        rw [hsees a ha]
        exact hfits ha
      | extend =>
        intro ha
        rw [hsees a ha]
        exact hfits ha
      | imply | pass | element => trivial
    · refine ih hrest (fun b hb => ?_) (fun b hb hsome => ?_)
      · rw [after, after, hsees b hb]
      · rw [after] at hsome ⊢
        cases hs : start' b with
        | none =>
          rw [hs, Option.none_or] at hsome
          cases hb' : start b with
          | none => simpa using hsome
          | some κ => simp
        | some κ =>
          have := hreaches b hb (by simp [hs])
          obtain ⟨κ', hκ'⟩ := Option.isSome_iff_exists.1 this
          simp [hκ']

/-- Acts further down fit when they fit seen from there. -/
theorem AllFit.under {x : Step} (h : (s.within x).AllFit (fun a => start (x :: a)) acts) :
    s.AllFit start (Toml.under [x] acts) := by
  induction acts generalizing start with
  | nil => trivial
  | cons y acts ih =>
    obtain ⟨b, e⟩ := y
    obtain ⟨hfits, hrest⟩ := h
    constructor
    · cases e with
      | assign κ =>
        intro hb
        exact hfits hb.2
      | name => exact hfits
      | extend => exact hfits
      | imply | pass | element => trivial
    · refine ih ?_
      have hafter : (fun a => after start [([x] ++ b, e)] (x :: a)) =
          after (fun a => start (x :: a)) [(b, e)] := by
        funext a
        simp [after, List.lookup_cons]
      rw [hafter]
      exact hrest

/-- Where an act is the first, it found what was there at the start. -/
theorem AllFit.first (h : s.AllFit start acts) {a : Address} {e : Act}
    (he : acts.lookup a = some e) : s.Fits a (start a) e := by
  obtain ⟨before, rest, rfl, hbefore⟩ := List.lookup_eq_some_iff.1 he
  have hnone : before.lookup a = none := List.lookup_eq_none_iff.2 hbefore
  have hfits := (allFit_append.1 h).2.1
  rwa [after, hnone, Option.map_none, Option.or_none] at hfits

/-- A value that is given where it is seen is the first thing there, and
stays. -/
theorem AllFit.after_of_assign (h : s.AllFit start acts) {a : Address} {σ : Shape}
    (ha : s.Reaches a) (hmem : (a, .assign σ) ∈ acts) :
    start a = none ∧ after start acts a = some (Act.assign σ).makes := by
  obtain ⟨before, rest, rfl⟩ := List.append_of_mem hmem
  have hnone : after start before a = none := (allFit_append.1 h).2.1 ha
  refine ⟨(Option.or_eq_none_iff.1 hnone).1, ?_⟩
  rw [after_append, after, hnone]
  simp

/-- Where it is seen, no value is given twice. -/
theorem AllFit.not_assigned_twice (h : s.AllFit start acts) {a : Address} (ha : s.Reaches a)
    {σ τ : Shape} : ¬ [(a, Act.assign σ), (a, Act.assign τ)].Sublist acts := by
  intro hsub
  obtain ⟨before, rest, rfl, hfirst, hsecond⟩ := List.cons_sublist_iff.1 hsub
  obtain ⟨hbefore, hrest⟩ := allFit_append.1 h
  have hmade := (hbefore.after_of_assign ha hfirst).2
  have hnone := (hrest.after_of_assign ha (List.singleton_sublist.1 hsecond)).1
  rw [hmade] at hnone
  cases hnone

/-- Where it is seen, a table is named after something else is done there
only if it is passed first. -/
theorem AllFit.passed_of_named (h : s.AllFit start acts) {a : Address} (ha : s.Sees a)
    (hstart : start a ≠ some (.table .passed)) {e : Act}
    (hsub : [(a, e), (a, .name)].Sublist acts) : acts.lookup a = some .pass := by
  obtain ⟨before, rest, rfl, hfirst, hname⟩ := List.cons_sublist_iff.1 hsub
  obtain ⟨middle, rest, rfl⟩ := List.append_of_mem (List.singleton_sublist.1 hname)
  have hfirst' : (a, e) ∈ before ++ middle := List.mem_append_left _ hfirst
  rw [← List.append_assoc] at h ⊢
  generalize before ++ middle = before at h hfirst'
  obtain ⟨e', he'⟩ : ∃ e', before.lookup a = some e' := by
    cases hlookup : before.lookup a with
    | none => simpa using List.lookup_eq_none_iff.1 hlookup _ hfirst'
    | some e' => exact ⟨e', rfl⟩
  have hfits := (allFit_append.1 h).2.1 ha
  rw [after, he'] at hfits
  cases hs : start a with
  | some κ =>
    rw [hs] at hfits hstart
    rcases hfits with hnone | hpassed
    · cases hnone
    · exact absurd hpassed hstart
  | none =>
    rw [hs, Option.none_or, Option.map_some] at hfits
    rw [List.lookup_append, he', Option.some_or]
    rcases hfits with hnone | hpassed
    · cases hnone
    · cases e' with
      | pass => rfl
      | assign σ => cases σ <;> cases hpassed
      | imply | name | extend | element => cases hpassed

end AllFit

end Sight

/-! ## The acts of pairs -/

/-- Acts that are done to something in a table or an array. -/
def Rooted (acts : List (Address × Act)) : Prop := ∀ x ∈ acts, x.1 ≠ []

theorem Rooted.append {xs ys : List (Address × Act)} (hx : Rooted xs) (hy : Rooted ys) :
    Rooted (xs ++ ys) := by
  intro z hz
  rcases List.mem_append.1 hz with hz | hz
  · exact hx z hz
  · exact hy z hz

theorem rooted_under (x : Step) (acts : List (Address × Act)) : Rooted (under [x] acts) := by
  intro y hy
  obtain ⟨z, -, rfl⟩ := List.mem_map.1 hy
  exact List.cons_ne_nil _ _

theorem Key.exists_actsFrom (value : List (Address × Act)) (k : KeyPart) (ks : List KeyPart) :
    ∃ acts, Key.actsFrom value k ks = under [.key k.name] acts := by
  cases ks with
  | nil => exact ⟨_, rfl⟩
  | cons k' ks => exact ⟨_, rfl⟩

theorem Expr.rooted_pairsActs (ps : List (Key × Expr)) : Rooted (Expr.pairsActs ps) := by
  induction ps with
  | nil => simp [Rooted, Expr.pairsActs]
  | cons p ps ih =>
    obtain ⟨k, e⟩ := p
    obtain ⟨acts, hacts⟩ := Key.exists_actsFrom e.acts k.head k.tail
    rw [Expr.pairsActs, hacts]
    exact (rooted_under _ _).append ih

/-- Acts of pairs: they give values or imply tables, and what is given to an
item is in an array that is given too. -/
structure Spoken (acts : List (Address × Act)) : Prop where
  act : ∀ x ∈ acts, x.2 = .imply ∨ ∃ σ, x.2 = .assign σ
  array_mem : ∀ a i e, (a ++ [Step.index i], e) ∈ acts → (a, .assign .array) ∈ acts

theorem spoken_nil : Spoken [] := ⟨by simp, by simp⟩

theorem Spoken.append {xs ys : List (Address × Act)} (hx : Spoken xs) (hy : Spoken ys) :
    Spoken (xs ++ ys) where
  act z hz := by
    rcases List.mem_append.1 hz with hz | hz
    · exact hx.act z hz
    · exact hy.act z hz
  array_mem a i e h := by
    rcases List.mem_append.1 h with h | h
    · exact List.mem_append_left _ (hx.array_mem a i e h)
    · exact List.mem_append_right _ (hy.array_mem a i e h)

/-- Seen from further up, acts that a name leads to. -/
theorem Spoken.under_key {acts : List (Address × Act)} (h : Spoken acts) (name : String) :
    Spoken (under [.key name] acts) where
  act x hx := by
    obtain ⟨y, hy, rfl⟩ := List.mem_map.1 hx
    exact h.act y hy
  array_mem a i e ha := by
    obtain ⟨b, hb, hmem⟩ := mem_under.1 ha
    cases b with
    | nil => exact (not_key_eq_index (a := []) hb.symm).elim
    | cons x b =>
      obtain ⟨c, hc, rfl⟩ := exists_of_append_index hb (List.cons_ne_nil x b)
      rw [hc] at hmem
      exact append_mem_under.2 (h.array_mem c i e hmem)

theorem Key.spoken_actsFrom {value : List (Address × Act)} (h : Spoken value) (k : KeyPart)
    (ks : List KeyPart) : Spoken (Key.actsFrom value k ks) := by
  induction ks generalizing k with
  | nil => exact h.under_key k.name
  | cons k' ks ih =>
    have himply : Spoken [([], Act.imply)] := ⟨by simp, by simp⟩
    exact (himply.append (ih k')).under_key k.name

mutual

theorem Expr.spoken_acts : ∀ e : Expr, Spoken e.acts
  | .scalar l v => by
      refine ⟨?_, ?_⟩
      · simp [Expr.acts]
      · intro a i e h
        simp [Expr.acts] at h
  | .array l items => by
      have hitems := Expr.spoken_itemsActs items 0
      rw [Expr.acts]
      refine ⟨?_, ?_⟩
      · intro x hx
        rcases List.mem_cons.1 hx with rfl | hx
        · exact .inr ⟨_, rfl⟩
        · exact hitems.1 x hx
      · intro a i e h
        rcases List.mem_cons.1 h with h | h
        · simp at h
        · rcases hitems.2 a i e h with rfl | h
          · exact List.mem_cons_self
          · exact List.mem_cons_of_mem _ h
  | .inlineTable l pairs => by
      have hroot : Spoken [([], Act.assign .table)] := ⟨by simp, by simp⟩
      rw [Expr.acts]
      exact hroot.append (Expr.spoken_pairsActs pairs)

/-- An index in front of everything is that of an item. -/
theorem Expr.spoken_itemsActs : ∀ (es : List Expr) (i : Nat),
    (∀ x ∈ Expr.itemsActs i es, x.2 = .imply ∨ ∃ σ, x.2 = .assign σ) ∧
    ∀ a j e, (a ++ [Step.index j], e) ∈ Expr.itemsActs i es →
      a = [] ∨ (a, .assign .array) ∈ Expr.itemsActs i es
  | [], i => by simp [Expr.itemsActs]
  | e :: es, i => by
      have he := Expr.spoken_acts e
      obtain ⟨hact, harray⟩ := Expr.spoken_itemsActs es (i + 1)
      rw [Expr.itemsActs]
      refine ⟨fun x hx => ?_, fun a j act h => ?_⟩
      · rcases List.mem_append.1 hx with hx | hx
        · obtain ⟨y, hy, rfl⟩ := List.mem_map.1 hx
          exact he.act y hy
        · exact hact x hx
      · rcases List.mem_append.1 h with h | h
        · obtain ⟨b, hb, hmem⟩ := mem_under.1 h
          cases b with
          | nil =>
            have hnil : a ++ [Step.index j] = [] ++ [Step.index i] := hb
            exact .inl (List.append_inj' hnil rfl).1
          | cons x b =>
            obtain ⟨c, hc, rfl⟩ := exists_of_append_index hb (List.cons_ne_nil x b)
            rw [hc] at hmem
            exact .inr (List.mem_append_left _ (append_mem_under.2 (he.array_mem c j act hmem)))
        · exact (harray a j act h).imp_right (List.mem_append_right _)

theorem Expr.spoken_pairsActs : ∀ ps : List (Key × Expr), Spoken (Expr.pairsActs ps)
  | [] => spoken_nil
  | (k, e) :: ps =>
      (Key.spoken_actsFrom (Expr.spoken_acts e) k.head k.tail).append (Expr.spoken_pairsActs ps)

end

/-! ## Sections -/

namespace Survey

/-- What a header leads through lies in front of what it leads to. -/
theorem length_lt_of_mem_route (s : Survey) (a : Address) (k : KeyPart) (ks : List KeyPart) :
    a.length < (s.route a k ks).1.length ∧
      ∀ x ∈ (s.route a k ks).2, x.1.length < (s.route a k ks).1.length := by
  induction ks generalizing a k with
  | nil => simp [route]
  | cons k' ks ih =>
    obtain ⟨hlt, hway⟩ := ih (s.enter (a ++ [.key k.name])) k'
    have hle : a.length < (s.enter (a ++ [.key k.name])).length := by
      rw [enter]
      split <;> simp
    rw [route]
    refine ⟨Nat.lt_trans hle hlt, fun x hx => ?_⟩
    rcases List.mem_cons.1 hx with rfl | hx
    · exact hlt
    · exact hway x hx

/-- What a header leads through is passed, and if it is an element of an
array it has been added before. -/
theorem exists_of_mem_passed {s : Survey} {h : Heading} {a : Address} {e : Act}
    (hmem : (a, e) ∈ (s.route [] h.key.head h.key.tail).2.map fun x => (x.1, Act.pass)) :
    e = .pass ∧ a.length < (s.target h).length ∧ ∀ b i, a = b ++ [.index i] → i < s.count b := by
  obtain ⟨⟨b, σ⟩, hb, heq⟩ := List.mem_map.1 hmem
  obtain ⟨rfl, rfl⟩ := Prod.mk.inj heq
  refine ⟨rfl, (s.length_lt_of_mem_route [] _ _).2 _ hb, fun c i hc => ?_⟩
  exact (s.passable_route [] _ _ b σ hb).2 c i hc

theorem lookup_passed_eq_none {s : Survey} {h : Heading} {a : Address}
    (ha : (s.target h).length ≤ a.length) :
    ((s.route [] h.key.head h.key.tail).2.map fun x => (x.1, Act.pass)).lookup a = none := by
  rw [List.lookup_eq_none_iff]
  rintro ⟨b, e⟩ hb
  have hlt := (exists_of_mem_passed hb).2.1
  have hne : a ≠ b := by
    rintro rfl
    omega
  simpa using hne

/-- The address of the array that a section adds an element to. -/
def extended? (s : Survey) (sec : Section) : Option Address :=
  match sec.heading with
  | .table _ _ => none
  | .element _ _ => some (s.target sec.heading)

theorem count_addSection (s : Survey) (sec : Section) (a : Address) :
    (s.addSection sec).count a = s.count a + if s.extended? sec = some a then 1 else 0 := by
  obtain ⟨heading, pairs⟩ := sec
  cases heading with
  | table l k => rfl
  | element l k =>
    have hcount := (s.pass (s.route [] k.head k.tail).2).count_addElement
      (s.route [] k.head k.tail).1 a
    simp only [extended?, target, Heading.key, Option.some.injEq, eq_comm (b := a)]
    exact hcount

theorem lookup_under_append (a b : Address) (acts : List (Address × Act)) :
    (under a acts).lookup (a ++ b) = acts.lookup b := by
  induction a generalizing b acts with
  | nil => simp
  | cons x a ih =>
    have hsplit : under (x :: a) acts = under [x] (under a acts) := by simp
    rw [hsplit, List.cons_append, lookup_under_self, ih]

/-- What the pairs under a header give to an item is in an array that they
give too. -/
theorem array_mem_of_under {pairs : List (Key × Expr)} {a b : Address} {i : Nat} {e : Act}
    (h : (a ++ [Step.index i], e) ∈ under b (Expr.pairsActs pairs)) :
    (a, .assign .array) ∈ under b (Expr.pairsActs pairs) := by
  obtain ⟨c, hc, hmem⟩ := mem_under.1 h
  obtain ⟨d, hd, rfl⟩ := exists_of_append_index hc (Expr.rooted_pairsActs pairs _ hmem)
  rw [hd] at hmem
  exact append_mem_under.2 ((Expr.spoken_pairsActs pairs).array_mem d i e hmem)

/-- What a header of an array does first at the array and at the element
that it adds. -/
theorem lookup_acts_of_extended {s : Survey} {sec : Section} {a : Address}
    (h : s.extended? sec = some a) : (s.acts sec).lookup a = some .extend ∧
      (s.acts sec).lookup (a ++ [.index (s.count a)]) = some .element := by
  obtain ⟨heading, pairs⟩ := sec
  cases heading with
  | table l k => cases h
  | element l k =>
    obtain rfl : s.target (.element l k) = a := Option.some.inj h
    have hroot := lookup_under_append (s.target (.element l k)) []
      (s.arrival (s.target (.element l k)) ⟨.element l k, pairs⟩)
    rw [List.append_nil] at hroot
    constructor
    · rw [acts, List.lookup_append, lookup_passed_eq_none (Nat.le_refl _), Option.none_or, hroot]
      rfl
    · rw [acts, List.lookup_append, lookup_passed_eq_none (by simp), Option.none_or,
        lookup_under_append]
      simp [arrival, List.lookup_cons]

/-- Only a header of an array makes an array of tables. -/
theorem extended_of_makes {s : Survey} {sec : Section} {a : Address} {e : Act}
    (h : (a, e) ∈ s.acts sec) (he : e.makes = .array true) : s.extended? sec = some a := by
  have hpairs : ∀ {b : Address}, (a, e) ∉ under b (Expr.pairsActs sec.pairs) := by
    intro b hb
    obtain ⟨c, -, hc⟩ := mem_under.1 hb
    rcases (Expr.spoken_pairsActs sec.pairs).act _ hc with himply | ⟨σ, hσ⟩
    · obtain rfl : e = .imply := himply
      cases he
    · obtain rfl : e = .assign σ := hσ
      cases σ <;> cases he
  rcases List.mem_append.1 h with h | h
  · obtain ⟨rfl, -⟩ := exists_of_mem_passed h
    cases he
  · obtain ⟨heading, pairs⟩ := sec
    cases heading with
    | table l k =>
      rcases List.mem_cons.1 h with h | h
      · obtain ⟨-, rfl⟩ := Prod.mk.inj h
        cases he
      · exact absurd h hpairs
    | element l k =>
      rw [arrival, under_cons, under_under, under_cons, List.append_nil, List.append_nil] at h
      rcases List.mem_cons.1 h with h | h
      · obtain ⟨rfl, -⟩ := Prod.mk.inj h
        rfl
      · rcases List.mem_cons.1 h with h | h
        · obtain ⟨-, rfl⟩ := Prod.mk.inj h
          cases he
        · exact absurd h hpairs

/-- What is done to an item: a header leads through an element that is
there, or adds the next one, or the item is in an array that is given as a
value. -/
theorem item_of_mem_acts {s : Survey} {sec : Section} {a : Address} {i : Nat} {e : Act}
    (h : (a ++ [.index i], e) ∈ s.acts sec) : i < s.count a ∨
      (s.extended? sec = some a ∧ i = s.count a) ∨ (a, .assign .array) ∈ s.acts sec := by
  obtain ⟨b, name, htarget⟩ := s.exists_route [] sec.heading.key.head sec.heading.key.tail
  rcases List.mem_append.1 h with h | h
  · exact .inl ((exists_of_mem_passed h).2.2 a i rfl)
  · have hpairs : ∀ {c : Address},
        under c (Expr.pairsActs sec.pairs) ⊆ under (s.target sec.heading)
          (s.arrival (s.target sec.heading) sec) →
        (a ++ [.index i], e) ∈ under c (Expr.pairsActs sec.pairs) →
        (a, .assign .array) ∈ s.acts sec := by
      intro c hsub hc
      exact List.mem_append_right _ (hsub (array_mem_of_under hc))
    have hname : (a ++ [.index i], e) ≠ (s.target sec.heading, e) := by
      intro heq
      exact not_key_eq_index (htarget.symm.trans (Prod.mk.inj heq).1.symm)
    obtain ⟨heading, pairs⟩ := sec
    cases heading with
    | table l k =>
      rw [arrival, under_cons, List.append_nil] at h hpairs
      rcases List.mem_cons.1 h with h | h
      · obtain ⟨hr, rfl⟩ := Prod.mk.inj h
        exact absurd (by rw [hr]) hname
      · exact .inr (.inr (hpairs (List.subset_cons_self _ _) h))
    | element l k =>
      rw [arrival, under_cons, under_under, under_cons, List.append_nil, List.append_nil] at h hpairs
      rcases List.mem_cons.1 h with h | h
      · obtain ⟨hr, rfl⟩ := Prod.mk.inj h
        exact absurd (by rw [hr]) hname
      · rcases List.mem_cons.1 h with h | h
        · obtain ⟨hr, -⟩ := Prod.mk.inj h
          obtain ⟨rfl, hi⟩ := List.append_inj' hr rfl
          simp only [List.cons.injEq, Step.index.injEq, and_true] at hi
          exact .inr (.inl ⟨rfl, hi⟩)
        · refine .inr (.inr (hpairs ?_ h))
          exact fun x hx => List.mem_cons_of_mem _ (List.mem_cons_of_mem _ hx)

/-! ## Counting what is seen -/

/-- Whether a survey counts the elements of the arrays of tables that are
seen from a node at `base`, given what is at each address below it. -/
structure Linked (s : Survey) (σ : Sight) (base : Address) (κ : Address → Option NodeKind) :
    Prop where
  ne_none : ∀ a, σ.Reaches a → 0 < s.count (base ++ a) → κ a ≠ none
  array_iff : ∀ a, σ.along a = .far → (0 < s.count (base ++ a) ↔ κ a = some (.array true))
  item : ∀ a, σ.along a = .far → (κ a = none ∨ κ a = some (.array true)) → ∀ i,
    κ (a ++ [.index i]) = if i < s.count (base ++ a) then some (.table .regular) else none

namespace Linked

variable {s : Survey} {σ : Sight} {base : Address} {κ : Address → Option NodeKind}

/-- What is seen through a step is counted from there. -/
theorem within (h : s.Linked σ base κ) (hσ : σ ≠ .blind) (x : Step) :
    s.Linked (σ.within x) (base ++ [x]) fun a => κ (x :: a) where
  ne_none a ha hpos := h.ne_none (x :: a) ⟨hσ, ha⟩ (by simpa using hpos)
  array_iff a ha := by simpa using h.array_iff (x :: a) ha
  item a ha hκ i := by simpa using h.item (x :: a) ha hκ i

/-- A table is made where nothing was. -/
theorem made (h : s.Linked σ base κ) (hnone : ∀ a, κ a = none) (kind : TableKind)
    {κ' : Address → Option NodeKind} (hroot : κ' [] = some (.table kind))
    (hκ' : ∀ x a, κ' (x :: a) = none) : s.Linked σ base κ' := by
  have hcount : ∀ a, σ.Reaches a → s.count (base ++ a) = 0 := by
    intro a ha
    by_contra hne
    exact h.ne_none a ha (Nat.pos_of_ne_zero hne) (hnone a)
  refine ⟨fun a ha hpos => ?_, fun a ha => ?_, fun a ha hκ i => ?_⟩
  · rw [hcount a ha] at hpos
    cases hpos
  · rw [hcount a (Sight.sees_of_along ha).reaches]
    cases a with
    | nil => simp [hroot]
    | cons x a => simp [hκ']
  · rw [hcount a (Sight.sees_of_along ha).reaches]
    cases a with
    | nil => simp [hroot] at hκ
    | cons x a => simp [hκ']

section Section

variable {sec : Section} {a : Address}

/-- A header adds only to an array that it finds or makes. -/
theorem after_of_extended (hfit : Sight.far.AllFit κ (s.acts sec)) (ha : Sight.far.Sees a)
    (h : s.extended? sec = some a) : after κ (s.acts sec) a = some (.array true) := by
  have hfirst := (lookup_acts_of_extended h).1
  rcases hfit.first hfirst ha with hnone | harray
  · simp [after, hnone, hfirst, Act.makes]
  · exact after_of_some harray

/-- An array of tables that was not there before a section is one that its
header adds to. -/
theorem extended_of_after (hnone : κ a = none)
    (hafter : after κ (s.acts sec) a = some (.array true)) : s.extended? sec = some a := by
  rw [after, hnone, Option.none_or, Option.map_eq_some_iff] at hafter
  obtain ⟨e, he, hmakes⟩ := hafter
  exact extended_of_makes (mem_of_lookup he) hmakes

/-- Nothing is done to an item that is not there and that the header does
not add, unless the array is given as a value. -/
theorem lookup_item_eq_none {i : Nat} (hlt : ¬ i < s.count a)
    (hnew : ¬ (s.extended? sec = some a ∧ i = s.count a))
    (hvalue : (a, .assign .array) ∉ s.acts sec) : (s.acts sec).lookup (a ++ [.index i]) = none := by
  cases hact : (s.acts sec).lookup (a ++ [.index i]) with
  | none => rfl
  | some e =>
    rcases item_of_mem_acts (mem_of_lookup hact) with hi | hi | harray
    · exact absurd hi hlt
    · exact absurd hi hnew
    · exact absurd harray hvalue

/-- The items of an array of tables after a section. -/
theorem after_item (h : s.Linked .far [] κ) (hfit : Sight.far.AllFit κ (s.acts sec))
    (ha : Sight.far.along a = .far)
    (hκ : after κ (s.acts sec) a = none ∨ after κ (s.acts sec) a = some (.array true)) (i : Nat) :
    after κ (s.acts sec) (a ++ [.index i]) =
      if i < (s.addSection sec).count a then some (.table .regular) else none := by
  have hbefore : κ a = none ∨ κ a = some (.array true) := by
    cases hstart : κ a with
    | none => exact .inl rfl
    | some k =>
      rw [after_of_some hstart] at hκ
      exact .inr (hκ.resolve_left (by simp))
  have hold : κ (a ++ [.index i]) = if i < s.count a then some (.table .regular) else none :=
    h.item a ha hbefore i
  rw [count_addSection, after, hold]
  by_cases hlt : i < s.count a
  · rw [if_pos hlt, if_pos (by omega)]
    rfl
  · rw [if_neg hlt, Option.none_or]
    by_cases hnew : s.extended? sec = some a ∧ i = s.count a
    · obtain ⟨hext, rfl⟩ := hnew
      rw [(lookup_acts_of_extended hext).2, if_pos hext, if_pos (by omega)]
      rfl
    · have hcount : ¬ i < s.count a + if s.extended? sec = some a then 1 else 0 := by
        split
        · next hext =>
          have : i ≠ s.count a := fun heq => hnew ⟨hext, heq⟩
          omega
        · omega
      have hvalue : (a, .assign .array) ∉ s.acts sec := by
        intro hmem
        rw [(hfit.after_of_assign (Sight.sees_of_along ha).reaches hmem).2] at hκ
        simp [Act.makes] at hκ
      rw [if_neg hcount, lookup_item_eq_none hlt hnew hvalue]
      rfl

/-- A section that fits is counted as far as it is seen. -/
theorem addSection (h : s.Linked .far [] κ) (hfit : Sight.far.AllFit κ (s.acts sec))
    {κ' : Address → Option NodeKind}
    (hsees : ∀ a, Sight.far.Sees a → κ' a = after κ (s.acts sec) a)
    (hreaches : ∀ a, Sight.far.Reaches a → (after κ (s.acts sec) a).isSome → (κ' a).isSome) :
    (s.addSection sec).Linked .far [] κ' where
  ne_none a ha hpos := by
    have hold : 0 < s.count a → κ a ≠ none := h.ne_none a ha
    rw [List.nil_append, count_addSection] at hpos
    have hsome : (after κ (s.acts sec) a).isSome := by
      split at hpos
      · next hext => simp [after, (lookup_acts_of_extended hext).1]
      · obtain ⟨k, hk⟩ := Option.ne_none_iff_exists'.1 (hold hpos)
        simp [after_of_some hk]
    intro hnone
    have := hreaches a ha hsome
    simp [hnone] at this
  array_iff a ha := by
    have hold : 0 < s.count a ↔ κ a = some (.array true) := h.array_iff a ha
    rw [List.nil_append, count_addSection, hsees a (Sight.sees_of_along ha)]
    constructor
    · intro hpos
      split at hpos
      · next hext => exact after_of_extended hfit (Sight.sees_of_along ha) hext
      · exact after_of_some (hold.1 hpos)
    · intro hafter
      cases hstart : κ a with
      | some k =>
        rw [after_of_some hstart] at hafter
        have := hold.2 (hstart.trans hafter)
        omega
      | none =>
        rw [if_pos (extended_of_after hstart hafter)]
        omega
  item a ha hκ i := by
    rw [hsees a (Sight.sees_of_along ha)] at hκ
    rw [List.nil_append, hsees _ (Sight.sees_item ha i)]
    exact h.after_item hfit ha hκ i

end Section

/-- Nothing is counted before anything is done. -/
theorem empty (pairs : List (Key × Expr)) (a : Address) {κ : Address → Option NodeKind}
    (harray : ∀ a, σ.along a = .far → κ a ≠ some (.array true))
    (hitem : ∀ a, σ.along a = .far → κ a = none → ∀ i, κ (a ++ [.index i]) = none) :
    (Survey.addPairs ⟨[], [], []⟩ a pairs).Linked σ base κ where
  ne_none b hb hpos := by simp [Survey.addPairs, Survey.count] at hpos
  array_iff b hb := by simp [Survey.addPairs, Survey.count, harray b hb]
  item b hb hκ i := by
    have hnone : κ b = none := hκ.resolve_right (harray b hb)
    simp [Survey.addPairs, Survey.count, hitem b hb hnone i]

end Linked
end Survey

end AuditSettings.Toml
