/-
AuditSettings.Proofs.Toml.Following — building keeps to the survey.

A header is followed through the tables that are there and ends at one
table. At every step there is a table in focus, at some address, and the
rest of the sites around it; together they are what the survey has so far
(`Focus`). Following a header moves the focus along the survey's route
(`follow_focus`), and what is done at its end is then done to the table in
focus alone.

Two things must be known of the document for that: its sites are clear of
each other, and only tables meet in the table that is built. Without the
first an index could lead into the wrong element; without the second an
array could be continued in another place than the one it was begun in.
-/
import AuditSettings.Proofs.Toml.Merging

namespace AuditSettings.Toml

open AuditSettings.Text

/-! ## Sites of nodes are closed -/

theorem Node.rootless_entrySites (es : List (KeyPart × Node)) : Rootless (Node.entrySites es) := by
  intro σ h
  simp [Node.mem_entrySites] at h

mutual

theorem Node.closed_sites : ∀ n : Node, Closed n.sites
  | .scalar faults l v => by
      intro a i σ h
      simp [Node.sites] at h
  | .array faults l ofTables items => by
      intro a i σ h
      rw [Node.sites] at h ⊢
      rcases List.mem_cons.1 h with h | h
      · simp at h
      · rcases Node.closed_itemSites items 0 a i σ h with rfl | h
        · exact List.mem_cons_self
        · exact List.mem_cons_of_mem _ h
  | .table faults l kind entries => by
      intro a i σ h
      rw [Node.sites] at h ⊢
      rcases List.mem_cons.1 h with h | h
      · simp at h
      · exact List.mem_cons_of_mem _ (Node.closed_entrySites entries a i σ h)

theorem Node.closed_itemSites : ∀ (ns : List Node) (i : Nat) (a : Address) (j : Nat) (σ : Shape),
    (a ++ [Step.index j], σ) ∈ Node.itemSites i ns → a = [] ∨ (a, .array) ∈ Node.itemSites i ns
  | [], i, a, j, σ, h => by simp [Node.itemSites] at h
  | n :: ns, i, a, j, σ, h => by
      rw [Node.itemSites, List.mem_append] at h ⊢
      rcases h with h | h
      · obtain ⟨c, hc, hmem⟩ := mem_under.1 h
        cases c with
        | nil =>
          have hnil : a ++ [Step.index j] = [] ++ [Step.index i] := hc
          exact .inl (List.append_inj' hnil rfl).1
        | cons s c =>
          obtain ⟨d, hd, rfl⟩ := exists_of_append_index hc (List.cons_ne_nil s c)
          rw [hd] at hmem
          exact .inr (.inl (append_mem_under.2 (Node.closed_sites n d j σ hmem)))
      · rcases Node.closed_itemSites ns (i + 1) a j σ h with h | h
        · exact .inl h
        · exact .inr (.inr h)

theorem Node.closed_entrySites : ∀ es : List (KeyPart × Node), Closed (Node.entrySites es)
  | [] => closed_nil
  | (k, n) :: es => by
      rw [Node.entrySites]
      exact ((Node.closed_sites n).under_key [] k.name).append (Node.closed_entrySites es)

end

/-! ## The focus -/

/-- The table in focus at an address, and the rest of the sites around
it. -/
structure Focus (s : Survey) (rest : List Site) (a : Address) (t : Contents) : Prop where
  coherent : s.Coherent
  closed : Closed rest
  mem_iff : ∀ x, x ∈ rest ∨ x ∈ under a t.sites ↔ x ∈ s.written ++ s.skeleton
  /-- Only tables meet. -/
  mergeable : Mergeable (rest ++ under a t.sites)

namespace Focus

variable {s : Survey} {rest : List Site} {a : Address} {t : Contents}

theorem closed_sites (t : Contents) (a : Address) : Closed (under a t.sites) :=
  (Node.closed_entrySites t.entries).under (Node.rootless_entrySites t.entries) a

/-- A table that is found under a name has its shape there. -/
theorem mem_of_find? (h : Focus s rest a t) {name : String} {k : KeyPart} {n : Node}
    (hfind : t.find? name = some (k, n)) {c : Address} {σ : Shape} (hσ : (c, σ) ∈ n.sites) :
    (a ++ [Step.key name] ++ c, σ) ∈ s.written ++ s.skeleton := by
  obtain ⟨others, hperm, -⟩ := Contents.find?_frame hfind
  refine (h.mem_iff _).1 (.inr ?_)
  rw [List.append_assoc, append_mem_under, hperm.mem_iff]
  exact List.mem_append_left _ (append_mem_under.2 hσ)

/-- A node that is found under a name has its shape at the address of that
name. -/
theorem shape_mem (h : Focus s rest a t) {name : String} {k : KeyPart} {n : Node} {σ : Shape}
    (hfind : t.find? name = some (k, n)) (hσ : ([], σ) ∈ n.sites) :
    (a ++ [Step.key name], σ) ∈ s.written ++ s.skeleton := by
  have := h.mem_of_find? hfind hσ
  rwa [List.append_nil] at this

/-- A name that is not found leads to nothing in the table. -/
theorem not_mem_of_find?_eq_none {name : String} (hfind : t.find? name = none) (c : Address)
    (σ : Shape) : (a ++ [Step.key name] ++ c, σ) ∉ under a t.sites := by
  rw [List.append_assoc, append_mem_under, Contents.sites, Node.mem_entrySites]
  rintro ⟨e, he, d, hd, -⟩
  simp only [List.singleton_append, List.cons.injEq, Step.key.injEq] at hd
  exact Contents.find?_eq_none_iff.1 hfind e he hd.1.symm

/-- An array that headers have opened has as many items as they have
opened. -/
theorem length_items (h : Focus s rest a t) (hclear : s.Clear) {name : String} {k : KeyPart}
    {faults : List Clash} {l : Location} {ofTables : Bool} {items : List Node}
    (hfind : t.find? name = some (k, .array faults l ofTables items))
    (hpos : 0 < s.count (a ++ [Step.key name])) :
    items.length = s.count (a ++ [Step.key name]) := by
  have harray := h.coherent.array_mem _ hpos
  have hle : items.length ≤ s.count (a ++ [Step.key name]) := by
    rcases Nat.eq_zero_or_pos items.length with hzero | hlen
    · omega
    · obtain ⟨σ, hσ⟩ := Node.index_mem_itemSites items (i := 0) (j := items.length - 1)
        (by omega)
      rw [Nat.zero_add] at hσ
      rcases List.mem_append.1 (h.mem_of_find? hfind (List.mem_cons_of_mem _ hσ)) with hw | hs
      · exact absurd harray (hclear.not_mem _ _ _ (h.coherent.closed _ _ _ hw))
      · have := h.coherent.index_lt _ _ _ hs
        omega
  have hge : s.count (a ++ [Step.key name]) - 1 < items.length := by
    have hitem := h.coherent.item_mem (a ++ [Step.key name]) (s.count (a ++ [Step.key name]) - 1)
      (by omega)
    obtain ⟨others, hperm, -⟩ := Contents.find?_frame hfind
    obtain ⟨-, hmeet, hcross⟩ := mergeable_append.1 h.mergeable
    rcases (h.mem_iff _).2 (List.mem_append_right _ hitem) with hr | hu
    · have hours : (a ++ [Step.key name], Shape.array) ∈ under a t.sites := by
        rw [append_mem_under, hperm.mem_iff]
        exact List.mem_append_left _ (mem_under.2 ⟨[], rfl, List.mem_cons_self⟩)
      exact absurd (hcross _ _ _ (h.closed _ _ _ hr) hours).1 (by simp)
    · rw [List.append_assoc, append_mem_under, hperm.mem_iff] at hu
      rcases List.mem_append.1 hu with ho | ho
      · rcases List.mem_cons.1 (append_mem_under.1 ho) with hroot | hin
        · simp at hroot
        · obtain ⟨j, c, hj, -, hlt⟩ := Node.exists_of_mem_itemSites hin
          simp only [List.cons.injEq, Step.index.injEq] at hj
          omega
      · have hother := Node.closed_entrySites others _ _ _ ho
        have hmine : ([.key name], Shape.array) ∈
            under [.key name] (Node.array faults l ofTables items).sites :=
          mem_under.2 ⟨[], rfl, List.mem_cons_self⟩
        have hboth := mergeable_append.1 ((mergeable_under.1 hmeet).of_perm hperm)
        exact absurd (hboth.2.2 _ _ _ hmine hother).1 (by simp)
  omega

/-- Where something new is made under a name that is not there, no header
has given it elements: their array would be elsewhere and meet it. -/
theorem count_eq_zero (h : Focus s rest a t) {name : String} (hfind : t.find? name = none)
    {made : List Site} {σ : Shape} (hmade : (a ++ [Step.key name], σ) ∈ made)
    (hmeet : Mergeable (rest ++ made)) : s.count (a ++ [Step.key name]) = 0 := by
  rcases Nat.eq_zero_or_pos (s.count (a ++ [Step.key name])) with hzero | hpos
  · exact hzero
  · have harray := h.coherent.array_mem _ hpos
    have hrest : (a ++ [Step.key name], Shape.array) ∈ rest := by
      refine ((h.mem_iff _).2 (List.mem_append_right _ harray)).resolve_right ?_
      simpa using not_mem_of_find?_eq_none (a := a) hfind [] .array
    exact absurd ((mergeable_append.1 hmeet).2.2 _ _ _ hrest hmade).1 (by simp)

/-- The focus is moved to a table at `b` when nothing comes in but that
table. -/
theorem move (h : Focus s rest a t) {rest' : List Site} {b : Address} {u v : Contents}
    (hb : s.Passable [(b, .table)]) (hclosed : Closed rest')
    (hmem : ∀ x, x ∈ rest' ++ under b u.sites ↔ x ∈ (rest ++ under a t.sites) ++ [(b, Shape.table)])
    (hgrows : u.sites.Subperm v.sites) (hmeet : Mergeable (rest' ++ under b v.sites)) :
    Focus (s.pass [(b, .table)]) rest' b u where
  coherent := h.coherent.pass hb
  closed := hclosed
  mem_iff x := by
    have hold := h.mem_iff x
    have hnew := hmem x
    simp only [List.mem_append] at hold hnew
    simp only [Survey.pass, List.mem_append]
    rw [hnew, hold, or_assoc]
  mergeable := hmeet.of_subperm ((List.subperm_append_left _).2 (subperm_under hgrows b))

end Focus

/-! ## One step of a header -/

namespace Contents

/-- What following a header does at a name that is not the last: `inside`
is done to the table that the name leads into. -/
def through (inside : Contents → Contents) (k : KeyPart) (t : Contents) : Contents :=
  match t.find? k.name with
  | none => t.push k ((inside empty).node k.location .passed)
  | some (old, .table faults l kind entries) =>
    let faults := if kind = .inlined then faults ++ [⟨.tableExpected, k, old⟩] else faults
    t.setNewest k.name ((inside ⟨faults, entries⟩).node l kind)
  | some (old, .array faults l ofTables items) =>
    let faults := if ofTables then faults else faults ++ [⟨.arrayOfTablesExpected, k, old⟩]
    t.setNewest k.name (.array faults l ofTables (fillLast k.location inside items))
  | some (old, .scalar _ _ _) =>
    (t.addFault ⟨.tableExpected, k, old⟩).push k ((inside empty).node k.location .passed)

theorem follow_cons (arrive : KeyPart → Contents → Contents) (k k' : KeyPart) (ks : List KeyPart)
    (t : Contents) : follow arrive k (k' :: ks) t = through (follow arrive k' ks) k t := rfl

end Contents

namespace Focus

/-- A name of a header leads from the table in focus to one at `b`: this is
in focus then, and all sites are those of what `inside` makes of it and the
rest around it. -/
def LeadsTo (s : Survey) (rest : List Site) (a : Address) (t : Contents)
    (inside : Contents → Contents) (k : KeyPart) (b : Address) : Prop :=
  ∃ rest' u, Focus (s.pass [(b, .table)]) rest' b u ∧
    (rest ++ under a (Contents.through inside k t).sites).Perm (rest' ++ under b (inside u).sites)

variable {s : Survey} {rest : List Site} {a : Address} {t : Contents}
  {inside : Contents → Contents} {k : KeyPart}

/-- A name that is not there yet leads into a new table. -/
theorem through_none (h : Focus s rest a t) (hinside : Contents.Grows inside)
    (hfind : t.find? k.name = none) (hcount : s.count (a ++ [Step.key k.name]) = 0)
    (hmeet : Mergeable (rest ++ under a (Contents.through inside k t).sites)) :
    LeadsTo s rest a t inside k (a ++ [Step.key k.name]) := by
  have hperm : (rest ++ under a (Contents.through inside k t).sites).Perm
      ((rest ++ under a t.sites ++ [(a ++ [Step.key k.name], Shape.table)]) ++
        under (a ++ [Step.key k.name]) (inside .empty).sites) := by
    simp [Contents.through, hfind]
  refine ⟨_, .empty, h.move ?_ ?_ ?_ (hinside .empty) (hmeet.of_perm hperm), hperm⟩
  · exact s.passable_name hcount
  · exact (h.closed.append (closed_sites t a)).append (closed_singleton a k.name _)
  · intro x
    simp

/-- A name that is there leads into a table of what it names: into `u`,
which stands at `c` in the node of that name, with the sites `frame`
around it. -/
theorem through_found (h : Focus s rest a t) (hinside : Contents.Grows inside) {old : KeyPart}
    {n m : Node} {u : Contents} (frame : List Site) {c : Address}
    (hfind : t.find? k.name = some (old, n))
    (hthrough : Contents.through inside k t = t.setNewest k.name m)
    (hn : n.sites.Perm (frame ++ under c u.sites))
    (hm : m.sites.Perm (frame ++ under c (inside u).sites))
    (hclosed : Closed frame) (htable : (c, .table) ∈ frame)
    (hb : s.Passable [(a ++ [Step.key k.name] ++ c, .table)])
    (hmeet : Mergeable (rest ++ under a (Contents.through inside k t).sites)) :
    LeadsTo s rest a t inside k (a ++ [Step.key k.name] ++ c) := by
  obtain ⟨others, hold, hnew⟩ := Contents.find?_frame hfind
  have hsplit : ∀ {n : Node} {whole inner : List Site},
      whole.Perm (under [.key k.name] n.sites ++ Node.entrySites others) →
      n.sites.Perm (frame ++ under c inner) →
      (rest ++ under a whole).Perm
        ((rest ++ under a (Node.entrySites others) ++ under (a ++ [Step.key k.name]) frame) ++
          under (a ++ [Step.key k.name] ++ c) inner) := by
    intro n whole inner hwhole hn
    have hboth := hwhole.trans ((perm_under hn [.key k.name]).append_right _)
    have := (perm_under (hboth.trans List.perm_append_comm) a).append_left rest
    simpa [List.append_assoc] using this
  have hbefore := hsplit hold hn
  have hafter := hsplit (hnew m) hm
  rw [← hthrough] at hafter
  refine ⟨_, u, h.move hb ?_ ?_ (hinside u) (hmeet.of_perm hafter), hafter⟩
  · exact (h.closed.append ((Node.closed_entrySites others).under
      (Node.rootless_entrySites others) a)).append (hclosed.under_key a k.name)
  · intro x
    rw [← hbefore.mem_iff, List.mem_append (t := [_]), List.mem_singleton, hbefore.mem_iff]
    refine ⟨.inl, fun hx => hx.elim id ?_⟩
    rintro rfl
    exact List.mem_append_left _ (List.mem_append_right _ (append_mem_under.2 htable))

/-- A name of a table leads into it. -/
theorem through_table (h : Focus s rest a t) (hinside : Contents.Grows inside) {old : KeyPart}
    {faults : List Clash} {l : Location} {kind : TableKind} {entries : List (KeyPart × Node)}
    (hfind : t.find? k.name = some (old, .table faults l kind entries))
    (hcount : s.count (a ++ [Step.key k.name]) = 0)
    (hmeet : Mergeable (rest ++ under a (Contents.through inside k t).sites)) :
    LeadsTo s rest a t inside k (a ++ [Step.key k.name]) := by
  obtain ⟨u, hu, hthrough⟩ : ∃ u : Contents, u.entries = entries ∧
      Contents.through inside k t = t.setNewest k.name ((inside u).node l kind) := by
    refine ⟨⟨if kind = .inlined then faults ++ [⟨.tableExpected, k, old⟩] else faults, entries⟩,
      rfl, ?_⟩
    simp only [Contents.through, hfind]
  rw [← List.append_nil (a ++ [Step.key k.name])]
  refine h.through_found hinside _ (u := u) hfind hthrough ?_ ?_
    (Node.closed_sites (.table [] l kind [])) List.mem_cons_self ?_ hmeet
  · simp [Node.sites, Node.entrySites, Contents.sites, hu]
  · simp [Node.sites, Node.entrySites]
  · rw [List.append_nil]
    exact s.passable_name hcount

/-- A name of an array that headers have opened leads into its last
element. -/
theorem through_array (h : Focus s rest a t) (hclear : s.Clear) (hinside : Contents.Grows inside)
    {old : KeyPart} {faults : List Clash} {l : Location} {ofTables : Bool} {items : List Node}
    (hfind : t.find? k.name = some (old, .array faults l ofTables items))
    (hpos : 0 < s.count (a ++ [Step.key k.name]))
    (hmeet : Mergeable (rest ++ under a (Contents.through inside k t).sites)) :
    LeadsTo s rest a t inside k (s.enter (a ++ [Step.key k.name])) := by
  have hlen := h.length_items hclear hfind hpos
  obtain ⟨init, last, rfl⟩ : ∃ init last, items = init ++ [last] := by
    have hne : items ≠ [] := by
      rintro rfl
      rw [List.length_nil] at hlen
      omega
    exact ⟨_, _, (List.dropLast_concat_getLast hne).symm⟩
  rw [List.length_append, List.length_singleton] at hlen
  have henter : s.enter (a ++ [Step.key k.name]) =
      a ++ [Step.key k.name] ++ [Step.index init.length] := by
    rw [Survey.enter, if_neg (by omega), ← hlen, Nat.add_sub_cancel]
  have hsites : ∀ n : Node, Node.itemSites 0 (init ++ [n]) =
      Node.itemSites 0 init ++ under [.index init.length] n.sites := by
    intro n
    simp [Node.itemSites_append, Node.itemSites]
  -- The last item is the element that was opened last, so it is a table.
  obtain ⟨faults', l', kind, entries, rfl⟩ : ∃ faults' l' kind entries,
      last = .table faults' l' kind entries := by
    obtain ⟨σ, hσ⟩ := last.exists_shape
    have hlast := h.mem_of_find? hfind (c := [.index init.length]) (σ := σ) (by
      rw [Node.sites, hsites]
      exact List.mem_cons_of_mem _ (List.mem_append_right _ (mem_under.2 ⟨[], rfl, hσ⟩)))
    have hitem := h.coherent.item_mem (a ++ [Step.key k.name]) init.length (by omega)
    obtain rfl := hclear.eq_of_mem _ _ _ hlast (List.mem_append_right _ hitem)
    exact Node.exists_table hσ
  have hthrough : Contents.through inside k t = t.setNewest k.name
      (.array (if ofTables then faults else faults ++ [⟨.arrayOfTablesExpected, k, old⟩]) l ofTables
        (init ++ [(inside ⟨faults', entries⟩).node l' kind])) := by
    simp only [Contents.through, hfind, Contents.fillLast, List.getLast?_concat,
      List.dropLast_concat]
  rw [henter]
  refine h.through_found hinside (Node.array [] l true (init ++ [.table [] l' kind []])).sites
    (u := ⟨faults', entries⟩) (c := [.index init.length]) hfind hthrough ?_ ?_
    (Node.closed_sites _) ?_ ?_ hmeet
  · simp [Node.sites, hsites, Node.entrySites, Contents.sites]
  · simp [Node.sites, hsites, Node.entrySites]
  · simp [Node.sites, hsites, Node.entrySites]
  · rw [← henter]
    exact s.passable_enter a k.name

/-- A scalar is led through by no header whose sites may meet. -/
theorem not_through_scalar {old : KeyPart} {faults : List Clash} {l : Location} {v : Scalar}
    (hfind : t.find? k.name = some (old, .scalar faults l v))
    (hmeet : Mergeable (rest ++ under a (Contents.through inside k t).sites)) : False := by
  have hthrough : (Contents.through inside k t).sites =
      t.sites ++ under [.key k.name] ((inside .empty).node k.location .passed).sites := by
    simp only [Contents.through, hfind, Contents.sites_push, Contents.sites_addFault]
  rw [hthrough] at hmeet
  have hboth := mergeable_under.1 (mergeable_append.1 hmeet).2.1
  obtain ⟨others, hperm, -⟩ := Contents.find?_frame hfind
  have hscalar : ([.key k.name], Shape.scalar v) ∈ t.sites := by
    rw [hperm.mem_iff]
    exact List.mem_append_left _ (mem_under.2 ⟨[], rfl, List.mem_singleton.2 rfl⟩)
  have htable : ([.key k.name], Shape.table) ∈
      under [.key k.name] ((inside .empty).node k.location .passed).sites :=
    mem_under.2 ⟨[], rfl, List.mem_cons_self⟩
  exact absurd ((mergeable_append.1 hboth).2.2 _ _ _ hscalar htable).1 (by simp)

/-- One name of a header leads into the table that the survey enters. -/
theorem through_focus (h : Focus s rest a t) (hinside : Contents.Grows inside)
    (hclear : (s.pass [(s.enter (a ++ [Step.key k.name]), .table)]).Clear)
    (hmeet : Mergeable (rest ++ under a (Contents.through inside k t).sites)) :
    LeadsTo s rest a t inside k (s.enter (a ++ [Step.key k.name])) := by
  have hbefore := hclear.of_within (Survey.within_pass s _)
  rcases Nat.eq_zero_or_pos (s.count (a ++ [Step.key k.name])) with hzero | hpos
  · have henter : s.enter (a ++ [Step.key k.name]) = a ++ [Step.key k.name] := if_pos hzero
    rw [henter] at hclear ⊢
    cases hfind : t.find? k.name with
    | none => exact h.through_none hinside hfind hzero hmeet
    | some e =>
      obtain ⟨old, n⟩ := e
      cases n with
      | table faults l kind entries => exact h.through_table hinside hfind hzero hmeet
      | array faults l ofTables items =>
        have harray := h.shape_mem hfind List.mem_cons_self
        cases hclear.eq_of_mem _ _ .table ((Survey.within_pass s _).subset harray)
          (by simp [Survey.pass])
      | scalar faults l v => exact (not_through_scalar hfind hmeet).elim
  · have harray := h.coherent.array_mem _ hpos
    cases hfind : t.find? k.name with
    | none =>
      have hmade : (a ++ [Step.key k.name], Shape.table) ∈
          under a (Contents.through inside k t).sites := by
        simp [Contents.through, hfind]
      have hzero := h.count_eq_zero hfind hmade hmeet
      omega
    | some e =>
      obtain ⟨old, n⟩ := e
      cases n with
      | array faults l ofTables items => exact h.through_array hbefore hinside hfind hpos hmeet
      | table faults l kind entries =>
        have htable := h.shape_mem hfind List.mem_cons_self
        cases hbefore.eq_of_mem _ _ _ htable (List.mem_append_right _ harray)
      | scalar faults l v => exact (not_through_scalar hfind hmeet).elim

end Focus

/-! ## A whole header -/

/-- Following a header moves the focus along the survey's route, and what
is done at its end is done to the table that the route ends in. -/
theorem Focus.follow_focus {arrive : KeyPart → Contents → Contents}
    (harrive : ∀ k, Contents.Grows (arrive k)) : ∀ {s : Survey} {rest : List Site} {a : Address}
    {t : Contents} {k : KeyPart} {ks : List KeyPart}, Focus s rest a t →
    (s.pass (s.route a k ks).2).Clear →
    Mergeable (rest ++ under a (Contents.follow arrive k ks t).sites) →
    ∃ rest' b k' u, (s.route a k ks).1 = b ++ [Step.key k'.name] ∧
      Focus (s.pass (s.route a k ks).2) rest' b u ∧
      (rest ++ under a (Contents.follow arrive k ks t).sites).Perm
        (rest' ++ under b (arrive k' u).sites)
  | s, rest, a, t, k, [], h, _, _ => by
      refine ⟨rest, a, k, t, rfl, ?_, .refl _⟩
      rwa [Survey.route, Survey.pass_nil]
  | s, rest, a, t, k, k' :: ks, h, hclear, hmeet => by
      have hroute := s.route_pass [(s.enter (a ++ [Step.key k.name]), .table)]
        (s.enter (a ++ [Step.key k.name])) k' ks
      rw [Contents.follow_cons] at hmeet ⊢
      have hway : (s.route a k (k' :: ks)).2 = [(s.enter (a ++ [Step.key k.name]), .table)] ++
          (s.route (s.enter (a ++ [Step.key k.name])) k' ks).2 := rfl
      have hlast : (s.route a k (k' :: ks)).1 =
          (s.route (s.enter (a ++ [Step.key k.name])) k' ks).1 := rfl
      rw [hway, ← Survey.pass_pass] at hclear ⊢
      obtain ⟨mid, u, hmid, hstep⟩ := h.through_focus (Contents.grows_follow harrive k' ks)
        (hclear.of_within (Survey.within_pass _ _)) hmeet
      rw [← hroute] at hclear hlast ⊢
      rw [hlast]
      obtain ⟨rest', b, k'', v, hend, hfocus, hrun⟩ :=
        hmid.follow_focus harrive hclear (hmeet.of_perm hstep)
      exact ⟨rest', b, k'', v, hend, hfocus, hstep.trans hrun⟩

end AuditSettings.Toml
