/-
AuditSettings.Proofs.Toml.Building — a document's table has what its survey
has.

At the end of a header stands a table that is opened or an array that is
given an element, and the pairs of the section go there; the survey adds
the same sites at the same address. One section keeps the table and the
survey together (`addSection_focus`), so all sections do. The tree that
is made of the table has its sites, each once, and that is compared with
the survey at last.
-/
import AuditSettings.Proofs.Toml.Following

namespace AuditSettings.Toml

open AuditSettings.Text

namespace Focus

variable {s : Survey} {rest : List Site} {a : Address} {t : Contents}
  {pairs : List (Key × Expr)} {l : Location} {k : KeyPart}

/-! ## The end of a header -/

/-- The pairs of a section are added to a table as they are to the
survey. -/
theorem mem_under_contents (b : Address) (pairs : List (Key × Expr)) (t : Contents) (x : Site) :
    x ∈ under b (Expr.contents pairs t).sites ↔ x ∈ under b t.sites ∨
      x ∈ under b (Expr.pairsWritten pairs) ∨ x ∈ under b (Expr.pairsImplied pairs) := by
  rw [mem_under_congr (t.sites ++ (Expr.pairsWritten pairs ++ Expr.pairsImplied pairs))
    (fun y => by rw [Expr.mem_sites_contents, List.mem_append, List.mem_append])]
  simp

/-- A node that is found under a name has the shape that the survey has
there. -/
theorem eq_of_find? (h : Focus s rest a t) {s' : Survey} (hwithin : s.Within s')
    (hclear : s'.Clear) {old : KeyPart} {n : Node} {σ τ : Shape}
    (hfind : t.find? k.name = some (old, n)) (hσ : ([], σ) ∈ n.sites)
    (hτ : (a ++ [Step.key k.name], τ) ∈ s'.skeleton) : σ = τ :=
  hclear.eq_of_mem _ _ _ (hwithin.subset (h.shape_mem hfind hσ)) (List.mem_append_right _ hτ)

/-- What a table header adds at its end. -/
theorem mem_openTable (h : Focus s rest a t)
    (hclear : (s.pass [(a ++ [Step.key k.name], .table)]).Clear) (x : Site) :
    x ∈ rest ++ under a (Contents.openTable l (Expr.contents pairs) k t).sites ↔
      x ∈ rest ++ under a t.sites ∨ x = (a ++ [Step.key k.name], .table) ∨
        x ∈ under (a ++ [Step.key k.name]) (Expr.pairsWritten pairs) ∨
        x ∈ under (a ++ [Step.key k.name]) (Expr.pairsImplied pairs) := by
  rw [Contents.openTable]
  split
  · simp only [Contents.sites_push, Contents.sites_node, under_append, under_under, under_cons,
      List.append_nil, List.mem_append, List.mem_cons, mem_under_contents]
    simp
    grind
  · next old faults l' kind entries hfind =>
    obtain ⟨others, hold, hnew⟩ := Contents.find?_frame hfind
    rw [List.mem_append, List.mem_append, (perm_under hold a).mem_iff,
      (perm_under (hnew _) a).mem_iff]
    simp only [Contents.sites_node, Node.sites, under_append, under_under, under_cons,
      List.append_nil, List.mem_append, List.mem_cons, mem_under_contents]
    simp [Contents.sites]
    grind
  · next old n hnot hfind =>
    obtain ⟨σ, hσ⟩ := n.exists_shape
    obtain rfl := h.eq_of_find? (Survey.within_pass s _) hclear hfind hσ
      (List.mem_append_right _ List.mem_cons_self)
    obtain ⟨faults, l', kind, entries, rfl⟩ := Node.exists_table hσ
    exact (hnot _ _ _ _ rfl).elim

/-- An array header finds nothing where the survey has no elements, and
elsewhere an array of as many elements as the survey has. -/
theorem count_eq (h : Focus s rest a t) (hclear : (s.addElement (a ++ [Step.key k.name])).Clear)
    {old : KeyPart} {faults : List Clash} {l : Location} {ofTables : Bool} {items : List Node}
    (hfind : t.find? k.name = some (old, .array faults l ofTables items)) :
    items.length = s.count (a ++ [Step.key k.name]) := by
  rcases Nat.eq_zero_or_pos (s.count (a ++ [Step.key k.name])) with hzero | hpos
  · rcases List.mem_append.1 (h.shape_mem hfind List.mem_cons_self) with hw | hs
    · exact absurd (List.mem_append_right _ List.mem_cons_self) (hclear.not_mem _ _ .array hw)
    · have := h.coherent.count_pos _ hs
      omega
  · exact h.length_items (hclear.of_within (Survey.within_addElement s _)) hfind hpos

/-- What an array header adds at its end. -/
theorem mem_openArray (h : Focus s rest a t)
    (hclear : (s.addElement (a ++ [Step.key k.name])).Clear)
    (hmeet : Mergeable (rest ++ under a (Contents.openArray l (Expr.contents pairs) k t).sites))
    (x : Site) :
    x ∈ rest ++ under a (Contents.openArray l (Expr.contents pairs) k t).sites ↔
      x ∈ rest ++ under a t.sites ∨ x = (a ++ [Step.key k.name], .array) ∨
        x = (a ++ [Step.key k.name] ++ [Step.index (s.count (a ++ [Step.key k.name]))], .table) ∨
        x ∈ under (a ++ [Step.key k.name] ++ [Step.index (s.count (a ++ [Step.key k.name]))])
          (Expr.pairsWritten pairs) ∨
        x ∈ under (a ++ [Step.key k.name] ++ [Step.index (s.count (a ++ [Step.key k.name]))])
          (Expr.pairsImplied pairs) := by
  cases hfind : t.find? k.name with
  | none =>
    have hopen : (Contents.openArray l (Expr.contents pairs) k t).sites =
        t.sites ++ under [.key k.name] (([], .array) ::
          under [.index 0] (([], .table) :: (Expr.contents pairs .empty).sites)) := by
      simp [Contents.openArray, hfind, Node.sites, Node.itemSites]
    have hmade : (a ++ [Step.key k.name], Shape.array) ∈
        under a (Contents.openArray l (Expr.contents pairs) k t).sites := by
      simp [hopen]
    rw [hopen, h.count_eq_zero hfind hmade hmeet]
    simp only [under_append, under_under, under_cons, List.append_nil, List.mem_append,
      List.mem_cons, mem_under_contents]
    simp
    grind
  | some e =>
    obtain ⟨old, n⟩ := e
    obtain ⟨σ, hσ⟩ := n.exists_shape
    obtain rfl := h.eq_of_find? (Survey.within_addElement s _) hclear hfind hσ
      (List.mem_append_right _ List.mem_cons_self)
    obtain ⟨faults, l', ofTables, items, rfl⟩ := Node.exists_array hσ
    have hopen : Contents.openArray l (Expr.contents pairs) k t = t.setNewest k.name
        (.array (if ofTables then faults else faults ++ [⟨.arrayOfTablesExpected, k, old⟩]) l'
          ofTables (items ++ [(Expr.contents pairs .empty).node l .regular])) := by
      simp only [Contents.openArray, hfind]
    obtain ⟨others, hold, hnew⟩ := Contents.find?_frame hfind
    rw [hopen, List.mem_append, List.mem_append, (perm_under hold a).mem_iff,
      (perm_under (hnew _) a).mem_iff, ← h.count_eq hclear hfind]
    simp only [Contents.sites_node, Node.sites, Node.itemSites_append, Node.itemSites, under_append,
      under_under, under_cons, List.append_nil, List.mem_append, List.mem_cons, mem_under_contents]
    simp
    grind

/-! ## Sections -/

/-- One section keeps the table and the survey together. -/
theorem addSection_focus {sec : Section} (h : Focus s [] [] t) (hclear : (s.addSection sec).Clear)
    (hmeet : Mergeable (t.addSection sec).sites) :
    Focus (s.addSection sec) [] [] (t.addSection sec) where
  coherent := h.coherent.addSection sec
  closed := closed_nil
  mergeable := by simpa using hmeet
  mem_iff x := by
    have hroot : x ∈ [] ∨ x ∈ under [] (t.addSection sec).sites ↔
        x ∈ [] ++ under [] (t.addSection sec).sites := by simp
    rw [hroot]
    have hmeet' : Mergeable ([] ++ under [] (t.addSection sec).sites) := by simpa using hmeet
    obtain ⟨heading, pairs⟩ := sec
    cases heading with
    | table l k =>
      simp only [Survey.addSection, Contents.addSection] at hclear hmeet' ⊢
      have hway := hclear.of_within (Survey.within_addPairs _ _ _)
      rw [← Survey.pass_pass] at hway
      obtain ⟨rest, b, k', u, hend, hfocus, hrun⟩ := h.follow_focus
        (Contents.grows_openTable l (Contents.grows_contents pairs))
        (hway.of_within (Survey.within_pass _ _)) hmeet'
      rw [hend] at hway ⊢
      rw [hrun.mem_iff, hfocus.mem_openTable hway, List.mem_append, hfocus.mem_iff]
      simp only [Survey.addPairs, Survey.pass, List.mem_append, List.mem_singleton]
      grind
    | element l k =>
      simp only [Survey.addSection, Contents.addSection] at hclear hmeet' ⊢
      have hway := hclear.of_within (Survey.within_addPairs _ _ _)
      obtain ⟨rest, b, k', u, hend, hfocus, hrun⟩ := h.follow_focus
        (Contents.grows_openArray l (Contents.grows_contents pairs))
        (hway.of_within (Survey.within_addElement _ _)) hmeet'
      rw [hend] at hway ⊢
      rw [hrun.mem_iff, hfocus.mem_openArray hway (hmeet'.of_perm hrun), List.mem_append,
        hfocus.mem_iff]
      simp only [Survey.addPairs, Survey.addElement, Survey.count_pass]
      simp only [Survey.pass, List.mem_append, List.mem_cons, List.not_mem_nil, or_false]
      grind

/-- All sections keep the table and the survey together. -/
theorem addSections_focus : ∀ (ss : List Section) {s : Survey} {t : Contents}, Focus s [] [] t →
    (ss.foldl Survey.addSection s).Clear → Mergeable (ss.foldl Contents.addSection t).sites →
    Focus (ss.foldl Survey.addSection s) [] [] (ss.foldl Contents.addSection t)
  | [], _, _, h, _, _ => h
  | sec :: ss, s, t, h, hclear, hmeet => by
      have hfirst := h.addSection_focus (hclear.of_within (Survey.within_addSections ss _))
        (hmeet.of_subperm (Contents.grows_addSections ss _))
      exact addSections_focus ss hfirst hclear hmeet

end Focus

/-! ## Documents -/

namespace Document

/-- The survey of a document and its table, when nothing meets that may
not. -/
theorem focus {d : Document} (hclear : d.survey.Clear) (hmeet : Mergeable d.contents.sites) :
    Focus d.survey [] [] d.contents := by
  refine Focus.addSections_focus d.sections ?_ hclear hmeet
  refine ⟨Survey.coherent_empty.addPairs [] d.opening, closed_nil, fun x => ?_, ?_⟩
  · simp [Survey.addPairs, Expr.mem_sites_contents]
  · have := hmeet.of_subperm (Contents.grows_addSections d.sections _)
    simpa using this

/-- The tree of a document has just the sites of its survey when no two of
these have one address, and never when two of them do. -/
theorem perm_sites_iff {d : Document} {t : Table} (h : d.table = .ok t) :
    t.sites.Perm d.survey.sites ↔ (d.survey.sites.map Prod.fst).Nodup := by
  obtain ⟨hnodup, hmem, hmeet⟩ := table_merged h
  constructor
  · intro hperm
    exact (hperm.map Prod.fst).nodup_iff.1 hnodup
  · intro hdistinct
    refine (List.perm_ext_iff_of_nodup hnodup.of_map hdistinct.of_map).2 fun x => ?_
    have hfocus := (focus (Survey.clear_of_nodup hdistinct) hmeet).mem_iff x
    rw [hmem, Survey.sites, List.mem_append, List.mem_dedup, ← List.mem_append, ← hfocus]
    simp

end Document
end AuditSettings.Toml
