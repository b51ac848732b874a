/-
AuditSettings.Proofs.Toml.Coherence — what every survey of a document
keeps to.

Indices only lead on from arrays, and the arrays of the skeleton are those
that headers have given elements: each has exactly as many as were opened
(`Coherent`). This is so at the start, and one section keeps it so, hence
it is so for every document. That no two sites of a survey get in each
other's way (`Clear`) is no such fact, but it passes from a survey to all
that came before it, since a section only adds.
-/
import AuditSettings.Proofs.Toml.Survey

namespace AuditSettings.Toml

open AuditSettings.Text

/-! ## Addresses from further up -/

section Under

variable {α : Type} {a b c : Address} {x : α} {xs ys : List (Address × α)}

theorem mem_under : (b, x) ∈ under a xs ↔ ∃ c, b = a ++ c ∧ (c, x) ∈ xs := by
  simp only [under, List.mem_map, Prod.mk.injEq, Prod.exists]
  constructor
  · rintro ⟨c, y, h, rfl, rfl⟩
    exact ⟨c, rfl, h⟩
  · rintro ⟨c, rfl, h⟩
    exact ⟨c, x, h, rfl, rfl⟩

@[simp] theorem append_mem_under : (a ++ c, x) ∈ under a xs ↔ (c, x) ∈ xs := by
  rw [mem_under]
  constructor
  · rintro ⟨d, hd, h⟩
    rwa [List.append_cancel_left hd]
  · intro h
    exact ⟨c, rfl, h⟩

@[simp] theorem under_nil (a : Address) : under a ([] : List (Address × α)) = [] := rfl

@[simp] theorem under_cons : under a ((c, x) :: xs) = (a ++ c, x) :: under a xs := rfl

@[simp] theorem under_append : under a (xs ++ ys) = under a xs ++ under a ys := by
  simp [under]

@[simp] theorem under_under : under a (under b xs) = under (a ++ b) xs := by
  simp [under, Function.comp_def]

@[simp] theorem under_root : under [] xs = xs := by
  simp [under]

end Under

theorem append_subset_append {α : Type} {xs xs' ys ys' : List α} (hx : xs ⊆ xs') (hy : ys ⊆ ys') :
    xs ++ ys ⊆ xs' ++ ys' :=
  List.append_subset.2 ⟨List.subset_append_of_subset_left _ hx,
    List.subset_append_of_subset_right _ hy⟩

/-! ## Indices lead on from arrays -/

/-- Wherever an index leads to a site, the array it belongs to is one. -/
def Closed (sites : List Site) : Prop :=
  ∀ a i σ, (a ++ [Step.index i], σ) ∈ sites → (a, .array) ∈ sites

/-- Sites of which none is the root. -/
def Rootless (sites : List Site) : Prop := ∀ σ, ([], σ) ∉ sites

theorem closed_nil : Closed [] := by simp [Closed]

theorem Closed.append {xs ys : List Site} (hx : Closed xs) (hy : Closed ys) :
    Closed (xs ++ ys) := by
  intro a i σ h
  rcases List.mem_append.1 h with h | h
  · exact List.mem_append_left _ (hx a i σ h)
  · exact List.mem_append_right _ (hy a i σ h)

theorem not_key_eq_index {a b : Address} {name : String} {i : Nat}
    (h : a ++ [Step.key name] = b ++ [Step.index i]) : False := by
  have := (List.append_inj' h rfl).2
  simp at this

/-- A single site that a name leads to needs no array. -/
theorem closed_singleton (a : Address) (name : String) (σ : Shape) :
    Closed [(a ++ [Step.key name], σ)] := by
  intro b i τ hb
  exact (not_key_eq_index (Prod.mk.inj (List.mem_singleton.1 hb)).1.symm).elim

/-- An address that leads to an index through a longer one ends as that
does. -/
theorem exists_of_append_index {a b c : Address} {i : Nat} (h : b ++ [Step.index i] = a ++ c)
    (hc : c ≠ []) : ∃ d, c = d ++ [Step.index i] ∧ b = a ++ d := by
  obtain ⟨d, x, rfl⟩ : ∃ d x, c = d ++ [x] :=
    ⟨c.dropLast, c.getLast hc, (List.dropLast_concat_getLast hc).symm⟩
  rw [← List.append_assoc] at h
  obtain ⟨rfl, hx⟩ := List.append_inj' h rfl
  exact ⟨d, by rw [hx], rfl⟩

theorem Closed.under {xs : List Site} (h : Closed xs) (hr : Rootless xs) (a : Address) :
    Closed (under a xs) := by
  intro b i σ hb
  obtain ⟨c, hc, hmem⟩ := mem_under.1 hb
  have hne : c ≠ [] := by
    rintro rfl
    exact hr σ hmem
  obtain ⟨d, rfl, rfl⟩ := exists_of_append_index hc hne
  exact append_mem_under.2 (h d i σ hmem)

/-- The root itself may be among the sites when a name leads to it. -/
theorem Closed.under_key {xs : List Site} (h : Closed xs) (a : Address) (name : String) :
    Closed (Toml.under (a ++ [Step.key name]) xs) := by
  intro b i σ hb
  obtain ⟨c, hc, hmem⟩ := mem_under.1 hb
  cases c with
  | nil =>
    rw [List.append_nil] at hc
    exact (not_key_eq_index hc.symm).elim
  | cons s c =>
    obtain ⟨d, hd, rfl⟩ := exists_of_append_index hc (List.cons_ne_nil s c)
    rw [hd] at hmem
    exact append_mem_under.2 (h d i σ hmem)

/-! ## Written values -/

theorem Key.exists_address (k : Key) : ∃ a name, k.address = a ++ [Step.key name] := by
  obtain ⟨head, tail⟩ := k
  rcases List.eq_nil_or_concat tail with rfl | ⟨init, last, rfl⟩
  · exact ⟨[], head.name, rfl⟩
  · exact ⟨(head :: init).map fun p => .key p.name, last.name, by simp [Key.address, Key.parts]⟩

theorem Expr.rootless_pairsWritten (ps : List (Key × Expr)) : Rootless (Expr.pairsWritten ps) := by
  intro σ h
  induction ps with
  | nil => simp [Expr.pairsWritten] at h
  | cons p ps ih =>
    obtain ⟨k, e⟩ := p
    rw [Expr.pairsWritten, List.mem_append, mem_under] at h
    rcases h with ⟨c, hc, -⟩ | h
    · simp [Key.address, Key.parts] at hc
    · exact ih h

mutual

theorem Expr.closed_written : ∀ e : Expr, Closed e.written
  | .scalar l v => by
      intro a i σ h
      simp [Expr.written] at h
  | .array l items => by
      intro a i σ h
      rw [Expr.written] at h ⊢
      rcases List.mem_cons.1 h with h | h
      · simp at h
      · rcases Expr.closed_itemsWritten items 0 a i σ h with rfl | h
        · exact List.mem_cons_self
        · exact List.mem_cons_of_mem _ h
  | .inlineTable l pairs => by
      intro a i σ h
      rw [Expr.written] at h ⊢
      rcases List.mem_cons.1 h with h | h
      · simp at h
      · exact List.mem_cons_of_mem _ (Expr.closed_pairsWritten pairs a i σ h)

/-- An index in front of everything is that of an item. -/
theorem Expr.closed_itemsWritten : ∀ (es : List Expr) (i : Nat) (a : Address) (j : Nat) (σ : Shape),
    (a ++ [Step.index j], σ) ∈ Expr.itemsWritten i es →
    a = [] ∨ (a, .array) ∈ Expr.itemsWritten i es
  | [], i, a, j, σ, h => by simp [Expr.itemsWritten] at h
  | e :: es, i, a, j, σ, h => by
      rw [Expr.itemsWritten, List.mem_append] at h ⊢
      rcases h with h | h
      · obtain ⟨c, hc, hmem⟩ := mem_under.1 h
        cases c with
        | nil =>
          have hnil : a ++ [Step.index j] = [] ++ [Step.index i] := hc
          exact .inl (List.append_inj' hnil rfl).1
        | cons s c =>
          obtain ⟨d, hd, rfl⟩ := exists_of_append_index hc (List.cons_ne_nil s c)
          rw [hd] at hmem
          exact .inr (.inl (append_mem_under.2 (Expr.closed_written e d j σ hmem)))
      · rcases Expr.closed_itemsWritten es (i + 1) a j σ h with h | h
        · exact .inl h
        · exact .inr (.inr h)

theorem Expr.closed_pairsWritten : ∀ ps : List (Key × Expr), Closed (Expr.pairsWritten ps)
  | [] => closed_nil
  | (k, e) :: ps => by
      obtain ⟨a, name, hk⟩ := k.exists_address
      rw [Expr.pairsWritten, hk]
      exact ((Expr.closed_written e).under_key a name).append (Expr.closed_pairsWritten ps)

end

/-! ## Implied tables -/

/-- Sites of tables that a name leads to. -/
def NamedTables (sites : List Site) : Prop :=
  ∀ a σ, (a, σ) ∈ sites → σ = .table ∧ ∃ b name, a = b ++ [Step.key name]

theorem NamedTables.append {xs ys : List Site} (hx : NamedTables xs) (hy : NamedTables ys) :
    NamedTables (xs ++ ys) := by
  intro a σ h
  rcases List.mem_append.1 h with h | h
  · exact hx a σ h
  · exact hy a σ h

theorem NamedTables.under {xs : List Site} (h : NamedTables xs) (a : Address) :
    NamedTables (under a xs) := by
  intro b σ hb
  obtain ⟨c, rfl, hc⟩ := mem_under.1 hb
  obtain ⟨hσ, d, name, rfl⟩ := h c σ hc
  exact ⟨hσ, a ++ d, name, (List.append_assoc a d _).symm⟩

theorem Key.namedTables_impliedFrom : ∀ (k : KeyPart) (ks : List KeyPart),
    NamedTables (Key.implied.impliedFrom k ks)
  | _, [] => by simp [NamedTables, Key.implied.impliedFrom]
  | k, k' :: ks => by
      intro a σ h
      rcases List.mem_cons.1 h with h | h
      · obtain ⟨rfl, rfl⟩ := Prod.mk.inj h
        exact ⟨rfl, [], k.name, rfl⟩
      · exact (Key.namedTables_impliedFrom k' ks).under _ a σ h

mutual

theorem Expr.namedTables_implied : ∀ e : Expr, NamedTables e.implied
  | .scalar _ _ => by simp [NamedTables, Expr.implied]
  | .array _ items => by
      rw [Expr.implied]
      exact Expr.namedTables_itemsImplied items 0
  | .inlineTable _ pairs => by
      rw [Expr.implied]
      exact Expr.namedTables_pairsImplied pairs

theorem Expr.namedTables_itemsImplied : ∀ (es : List Expr) (i : Nat),
    NamedTables (Expr.itemsImplied i es)
  | [], _ => by simp [NamedTables, Expr.itemsImplied]
  | e :: es, i => by
      rw [Expr.itemsImplied]
      exact ((Expr.namedTables_implied e).under _).append (Expr.namedTables_itemsImplied es (i + 1))

theorem Expr.namedTables_pairsImplied : ∀ ps : List (Key × Expr),
    NamedTables (Expr.pairsImplied ps)
  | [] => by simp [NamedTables, Expr.pairsImplied]
  | (k, e) :: ps => by
      rw [Expr.pairsImplied]
      exact ((Key.namedTables_impliedFrom k.head k.tail).append
        ((Expr.namedTables_implied e).under _)).append (Expr.namedTables_pairsImplied ps)

end

/-! ## Surveys -/

namespace Survey

/-- The arrays of the skeleton and their elements are those that were
opened, and other arrays are written. -/
structure Coherent (s : Survey) : Prop where
  index_lt : ∀ a i σ, (a ++ [Step.index i], σ) ∈ s.skeleton → i < s.count a
  count_pos : ∀ a, (a, .array) ∈ s.skeleton → 0 < s.count a
  array_mem : ∀ a, 0 < s.count a → (a, .array) ∈ s.skeleton
  item_mem : ∀ a i, i < s.count a → (a ++ [Step.index i], .table) ∈ s.skeleton
  closed : Closed s.written

theorem coherent_empty : Coherent ⟨[], [], []⟩ where
  index_lt := by simp
  count_pos := by simp
  array_mem := by simp [count]
  item_mem := by simp [count]
  closed := closed_nil

@[simp] theorem count_pass (s : Survey) (way : List Site) (a : Address) :
    (s.pass way).count a = s.count a := rfl

@[simp] theorem pass_nil (s : Survey) : s.pass [] = s := by
  simp [pass]

theorem pass_pass (s : Survey) (xs ys : List Site) : (s.pass xs).pass ys = s.pass (xs ++ ys) := by
  simp [pass]

/-- The route depends on what was opened and on nothing else. -/
theorem route_pass (s : Survey) (way : List Site) : ∀ (a : Address) (k : KeyPart)
    (ks : List KeyPart), (s.pass way).route a k ks = s.route a k ks
  | _, _, [] => rfl
  | a, k, k' :: ks => by
      have henter : ∀ b, (s.pass way).enter b = s.enter b := fun b => rfl
      rw [route, route, henter, route_pass s way _ k' ks]

/-- Tables that do not claim an element that was never opened. -/
def Passable (s : Survey) (way : List Site) : Prop :=
  ∀ a σ, (a, σ) ∈ way → σ = .table ∧ ∀ b i, a = b ++ [Step.index i] → i < s.count b

theorem Passable.of_namedTables {s : Survey} {way : List Site} (h : NamedTables way) :
    s.Passable way := by
  intro a σ ha
  obtain ⟨hσ, b, name, rfl⟩ := h a σ ha
  exact ⟨hσ, fun c i hc => (not_key_eq_index hc).elim⟩

theorem Coherent.pass {s : Survey} (h : s.Coherent) {way : List Site} (hway : s.Passable way) :
    (s.pass way).Coherent where
  index_lt a i σ ha := by
    rcases List.mem_append.1 ha with ha | ha
    · exact h.index_lt a i σ ha
    · exact (hway _ σ ha).2 a i rfl
  count_pos a ha := by
    rcases List.mem_append.1 ha with ha | ha
    · exact h.count_pos a ha
    · exact absurd (hway a _ ha).1 (by simp)
  array_mem a ha := List.mem_append_left _ (h.array_mem a ha)
  item_mem a i hi := List.mem_append_left _ (h.item_mem a i hi)
  closed := h.closed

theorem passable_enter (s : Survey) (a : Address) (name : String) :
    s.Passable [(s.enter (a ++ [Step.key name]), .table)] := by
  intro b σ hb
  obtain ⟨rfl, rfl⟩ := Prod.mk.inj (List.mem_singleton.1 hb)
  refine ⟨rfl, fun c i hc => ?_⟩
  rw [enter] at hc
  split at hc
  · exact (not_key_eq_index hc).elim
  · next hpos =>
    obtain ⟨rfl, hi⟩ := List.append_inj' hc rfl
    simp only [List.cons.injEq, Step.index.injEq, and_true] at hi
    omega

/-- Where nothing was opened, a name leads to a table of its own. -/
theorem passable_name (s : Survey) {a : Address} {name : String}
    (h : s.count (a ++ [Step.key name]) = 0) : s.Passable [(a ++ [Step.key name], .table)] := by
  have := s.passable_enter a name
  rwa [enter, if_pos h] at this

theorem passable_route (s : Survey) : ∀ (a : Address) (k : KeyPart) (ks : List KeyPart),
    s.Passable (s.route a k ks).2
  | _, _, [] => by simp [Passable, route]
  | a, k, k' :: ks => by
      intro b σ hb
      rw [route] at hb
      rcases List.mem_cons.1 hb with hb | hb
      · exact passable_enter s a k.name b σ (List.mem_singleton.2 hb)
      · exact passable_route s _ k' ks b σ hb

/-- A route ends at a name. -/
theorem exists_route (s : Survey) : ∀ (a : Address) (k : KeyPart) (ks : List KeyPart),
    ∃ b name, (s.route a k ks).1 = b ++ [Step.key name]
  | a, k, [] => ⟨a, k.name, rfl⟩
  | a, k, k' :: ks => by
      rw [route]
      exact exists_route s _ k' ks

theorem count_addElement (s : Survey) (a b : Address) :
    (s.addElement a).count b = s.count b + if b = a then 1 else 0 := by
  rw [count, addElement, List.count_append, count]
  by_cases hba : b = a
  · subst hba
    simp
  · simp [hba, Ne.symm hba]

theorem count_le_addElement (s : Survey) (a b : Address) :
    s.count b ≤ (s.addElement a).count b := by
  rw [count_addElement]
  omega

theorem Coherent.addElement {s : Survey} (h : s.Coherent) {a : Address}
    (ha : ∃ b name, a = b ++ [Step.key name]) : (s.addElement a).Coherent where
  index_lt b i σ hb := by
    rcases List.mem_append.1 hb with hb | hb
    · exact Nat.lt_of_lt_of_le (h.index_lt b i σ hb) (count_le_addElement s a b)
    · simp only [List.mem_cons, Prod.mk.injEq, List.not_mem_nil, or_false] at hb
      rcases hb with ⟨hb, -⟩ | ⟨hb, -⟩
      · obtain ⟨c, name, rfl⟩ := ha
        exact (not_key_eq_index hb.symm).elim
      · obtain ⟨rfl, hi⟩ := List.append_inj' hb rfl
        simp only [List.cons.injEq, Step.index.injEq, and_true] at hi
        rw [count_addElement, if_pos rfl]
        omega
  count_pos b hb := by
    rcases List.mem_append.1 hb with hb | hb
    · exact Nat.lt_of_lt_of_le (h.count_pos b hb) (count_le_addElement s a b)
    · simp only [List.mem_cons, Prod.mk.injEq, reduceCtorEq, and_false, List.not_mem_nil, or_false,
        and_true] at hb
      rw [count_addElement, if_pos hb]
      omega
  array_mem b hb := by
    rw [count_addElement] at hb
    by_cases hba : b = a
    · subst hba
      exact List.mem_append_right _ List.mem_cons_self
    · rw [if_neg hba] at hb
      exact List.mem_append_left _ (h.array_mem b hb)
  item_mem b i hi := by
    rw [count_addElement] at hi
    by_cases hba : b = a
    · subst hba
      rw [if_pos rfl] at hi
      rcases Nat.lt_or_ge i (s.count b) with hlt | hge
      · exact List.mem_append_left _ (h.item_mem b i hlt)
      · obtain rfl : i = s.count b := by omega
        exact List.mem_append_right _ (by simp)
    · rw [if_neg hba] at hi
      exact List.mem_append_left _ (h.item_mem b i hi)
  closed := h.closed

theorem Coherent.addPairs {s : Survey} (h : s.Coherent) (a : Address) (pairs : List (Key × Expr)) :
    (s.addPairs a pairs).Coherent where
  index_lt := (h.pass (Passable.of_namedTables
    ((Expr.namedTables_pairsImplied pairs).under a))).index_lt
  count_pos := (h.pass (Passable.of_namedTables
    ((Expr.namedTables_pairsImplied pairs).under a))).count_pos
  array_mem a ha := List.mem_append_left _ (h.array_mem a ha)
  item_mem a i hi := List.mem_append_left _ (h.item_mem a i hi)
  closed := h.closed.append ((Expr.closed_pairsWritten pairs).under
    (Expr.rootless_pairsWritten pairs) a)

/-- A section leaves a survey coherent. -/
theorem Coherent.addSection {s : Survey} (h : s.Coherent) (sec : Section) :
    (s.addSection sec).Coherent := by
  rw [Survey.addSection]
  split
  · next l k _ =>
    obtain ⟨b, name, hb⟩ := s.exists_route [] k.head k.tail
    have hend : NamedTables [((s.route [] k.head k.tail).1, .table)] := by
      intro a σ ha
      obtain ⟨rfl, rfl⟩ := Prod.mk.inj (List.mem_singleton.1 ha)
      exact ⟨rfl, b, name, hb⟩
    have hway := (h.pass (s.passable_route [] k.head k.tail)).pass (Passable.of_namedTables hend)
    rw [pass_pass] at hway
    exact hway.addPairs _ _
  · next l k _ =>
    have hway := h.pass (s.passable_route [] k.head k.tail)
    exact (hway.addElement (s.exists_route [] k.head k.tail)).addPairs _ _

/-! ## Sites that are clear of each other -/

/-- Every address has one shape, and what is written stands apart from the
skeleton. -/
structure Clear (s : Survey) : Prop where
  eq_of_mem : ∀ a σ τ, (a, σ) ∈ s.written ++ s.skeleton → (a, τ) ∈ s.written ++ s.skeleton → σ = τ
  not_mem : ∀ a σ τ, (a, σ) ∈ s.written → (a, τ) ∉ s.skeleton

/-- Sites of which no two have one address are clear of each other. -/
theorem clear_of_nodup {s : Survey} (h : (s.sites.map Prod.fst).Nodup) : s.Clear := by
  have hinj := List.inj_on_of_nodup_map h
  refine ⟨fun a σ τ hσ hτ => ?_, fun a σ τ hσ hτ => ?_⟩
  · have hmem : ∀ x, x ∈ s.sites ↔ x ∈ s.written ++ s.skeleton := by simp [sites]
    exact (Prod.mk.inj (hinj ((hmem _).2 hσ) ((hmem _).2 hτ) rfl)).2
  · rw [sites, List.map_append, List.nodup_append] at h
    exact h.2.2 a (List.mem_map.2 ⟨(a, σ), hσ, rfl⟩) a
      (List.mem_map.2 ⟨(a, τ), List.mem_dedup.2 hτ, rfl⟩) rfl

/-- The sites of a survey are among those of another. -/
structure Within (s s' : Survey) : Prop where
  written : s.written ⊆ s'.written
  skeleton : s.skeleton ⊆ s'.skeleton

theorem Within.refl (s : Survey) : s.Within s := ⟨fun _ h => h, fun _ h => h⟩

theorem Within.trans {s s' s'' : Survey} (h : s.Within s') (h' : s'.Within s'') : s.Within s'' :=
  ⟨fun _ hx => h'.written (h.written hx), fun _ hx => h'.skeleton (h.skeleton hx)⟩

theorem Within.subset {s s' : Survey} (h : s.Within s') :
    s.written ++ s.skeleton ⊆ s'.written ++ s'.skeleton :=
  append_subset_append h.written h.skeleton

theorem Clear.of_within {s s' : Survey} (h : s'.Clear) (hw : s.Within s') : s.Clear where
  eq_of_mem a σ τ hσ hτ := h.eq_of_mem a σ τ (hw.subset hσ) (hw.subset hτ)
  not_mem a σ τ hσ hτ := h.not_mem a σ τ (hw.written hσ) (hw.skeleton hτ)

theorem within_pass (s : Survey) (way : List Site) : s.Within (s.pass way) :=
  ⟨fun _ h => h, List.subset_append_left _ _⟩

theorem within_addElement (s : Survey) (a : Address) : s.Within (s.addElement a) :=
  ⟨fun _ h => h, List.subset_append_left _ _⟩

theorem within_addPairs (s : Survey) (a : Address) (pairs : List (Key × Expr)) :
    s.Within (s.addPairs a pairs) :=
  ⟨List.subset_append_left _ _, List.subset_append_left _ _⟩

theorem within_addSection (s : Survey) (sec : Section) : s.Within (s.addSection sec) := by
  rw [addSection]
  split
  · exact (within_pass _ _).trans (within_addPairs _ _ _)
  · exact ((within_pass _ _).trans (within_addElement _ _)).trans (within_addPairs _ _ _)

theorem within_addSections : ∀ (ss : List Section) (s : Survey), s.Within (ss.foldl addSection s)
  | [], s => .refl s
  | sec :: ss, s => (within_addSection s sec).trans (within_addSections ss _)

end Survey
end AuditSettings.Toml
