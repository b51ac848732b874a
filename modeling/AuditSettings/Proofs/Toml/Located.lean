/-
AuditSettings.Proofs.Toml.Located — building keeps values where they are
written.

Every step of building puts some written values and some locations into a
table, and loses none (`Gains`). Steps are taken in the order of the text,
so what a step puts inside a written value comes after the bracket of that
value: a table that was solid stays so. One lemma for each step says both
at once, and by induction the table of a whole document holds just the
values that are written there and is solid.
-/
import AuditSettings.Proofs.Toml.Newest
import AuditSettings.Proofs.Toml.Spots

namespace AuditSettings.Toml

open AuditSettings.Text

/-! ## What a step puts in -/

/-- A step that puts in the written values `xs` and locations from `new`.
What was solid stays solid if the new locations come after all that were
there. -/
structure Gains (xs : List Spot) (new : List Location) (w w' : List Spot)
    (ls ls' : List Location) (s s' : Prop) : Prop where
  written : w'.Perm (w ++ xs)
  locations : ls' ⊆ ls ++ new
  solid : s → (∀ p ∈ ls, ∀ q ∈ new, p < q) → s'

/-- A step from one node to another. -/
def Node.Gains (xs : List Spot) (new : List Location) (n m : Node) : Prop :=
  ∀ key, Toml.Gains xs new (n.written key) (m.written key) n.locations m.locations n.Solid m.Solid

/-- A step from some items to others. -/
def Node.ItemsGain (xs : List Spot) (new : List Location) (ns ms : List Node) : Prop :=
  Toml.Gains xs new (itemsWritten ns) (itemsWritten ms) (itemLocations ns) (itemLocations ms)
    (ItemsSolid ns) (ItemsSolid ms)

/-- A step from some entries to others. -/
def Node.EntriesGain (xs : List Spot) (new : List Location) (es fs : List (KeyPart × Node)) :
    Prop :=
  Toml.Gains xs new (entriesWritten es) (entriesWritten fs) (entryLocations es) (entryLocations fs)
    (EntriesSolid es) (EntriesSolid fs)

section Gains

variable {xs ys : List Spot} {new new' : List Location} {w w' w'' : List Spot}
  {ls ls' ls'' : List Location} {s s' s'' : Prop}

theorem Gains.refl (w : List Spot) (ls : List Location) (s : Prop) : Gains [] [] w w ls ls s s where
  written := by rw [List.append_nil]
  locations := List.subset_append_left _ _
  solid hs _ := hs

theorem Gains.mono (h : Gains xs new w w' ls ls' s s') (hsub : new ⊆ new') :
    Gains xs new' w w' ls ls' s s' where
  written := h.written
  locations := List.Subset.trans h.locations (append_subset_append (List.Subset.refl _) hsub)
  solid hs hlt := h.solid hs fun p hp q hq => hlt p hp q (hsub hq)

theorem Gains.trans (h : Gains xs new w w' ls ls' s s') (h' : Gains ys new' w' w'' ls' ls'' s' s'')
    (hlt : ∀ p ∈ new, ∀ q ∈ new', p < q) :
    Gains (xs ++ ys) (new ++ new') w w'' ls ls'' s s'' where
  written := by
    rw [← List.append_assoc]
    exact h'.written.trans (h.written.append_right ys)
  locations := by
    rw [← List.append_assoc]
    exact List.Subset.trans h'.locations (append_subset_append h.locations (List.Subset.refl _))
  solid hs hall := by
    refine h'.solid (h.solid hs fun p hp q hq => hall p hp q (List.mem_append_left _ hq)) ?_
    intro p hp q hq
    rcases List.mem_append.1 (h.locations hp) with hp | hp
    · exact hall p hp q (List.mem_append_right _ hq)
    · exact hlt p hp q hq

/-- What comes in is located after the bracket of the value that it comes
into, as what was there is. -/
theorem Gains.not_lt (h : Gains xs new w w' ls ls' s s') {l : Location} (hown : ∀ p ∈ ls, ¬ p < l)
    (hlt : ∀ q ∈ new, l < q) : ∀ p ∈ ls', ¬ p < l := by
  intro p hp
  rcases List.mem_append.1 (h.locations hp) with hp | hp
  · exact hown p hp
  · exact Location.not_lt_of_lt (hlt p hp)

end Gains

namespace Node

variable {xs : List Spot} {new : List Location} {n m : Node} {ns ms : List Node}
  {es fs : List (KeyPart × Node)} {l : Location} {kind : TableKind}

/-! ## Lists of items and entries -/

theorem itemsWritten_append (ns ms : List Node) :
    itemsWritten (ns ++ ms) = itemsWritten ns ++ itemsWritten ms := by
  induction ns with
  | nil => rfl
  | cons n ns ih => simp [itemsWritten, ih]

theorem itemLocations_append (ns ms : List Node) :
    itemLocations (ns ++ ms) = itemLocations ns ++ itemLocations ms := by
  induction ns with
  | nil => rfl
  | cons n ns ih => simp [itemLocations, ih]

theorem itemsSolid_append : ItemsSolid (ns ++ ms) ↔ ItemsSolid ns ∧ ItemsSolid ms := by
  induction ns with
  | nil => simp [ItemsSolid]
  | cons n ns ih => simp [ItemsSolid, ih, and_assoc]

theorem entriesWritten_append (es fs : List (KeyPart × Node)) :
    entriesWritten (es ++ fs) = entriesWritten es ++ entriesWritten fs := by
  induction es with
  | nil => rfl
  | cons e es ih => simp [entriesWritten, ih]

theorem entryLocations_append (es fs : List (KeyPart × Node)) :
    entryLocations (es ++ fs) = entryLocations es ++ entryLocations fs := by
  induction es with
  | nil => rfl
  | cons e es ih => simp [entryLocations, ih]

theorem entriesSolid_append : EntriesSolid (es ++ fs) ↔ EntriesSolid es ∧ EntriesSolid fs := by
  induction es with
  | nil => simp [EntriesSolid]
  | cons e es ih => simp [EntriesSolid, ih, and_assoc]

/-! ## Steps inside a node -/

/-- A table gains what its entries gain. -/
theorem EntriesGain.table (h : EntriesGain xs new es fs) (faults faults' : List Clash)
    (l : Location) (kind : TableKind) :
    (Node.table faults l kind es).Gains xs new (.table faults' l kind fs) := by
  intro key
  refine ⟨?_, ?_, ?_⟩
  · rw [written, written, List.append_assoc]
    exact h.written.append_left _
  · exact List.cons_subset_cons l h.locations
  · rintro ⟨hown, hes⟩ hlt
    exact ⟨fun hkind => h.not_lt (hown hkind) (hlt l List.mem_cons_self),
      h.solid hes fun p hp => hlt p (List.mem_cons_of_mem _ hp)⟩

/-- An array gains what its items gain. -/
theorem ItemsGain.array (h : ItemsGain xs new ns ms) (faults faults' : List Clash)
    (l : Location) (ofTables : Bool) :
    (Node.array faults l ofTables ns).Gains xs new (.array faults' l ofTables ms) := by
  intro key
  refine ⟨?_, ?_, ?_⟩
  · rw [written, written, List.append_assoc]
    exact h.written.append_left _
  · exact List.cons_subset_cons l h.locations
  · rintro ⟨hown, hns⟩ hlt
    exact ⟨fun hkind => h.not_lt (hown hkind) (hlt l List.mem_cons_self),
      h.solid hns fun p hp => hlt p (List.mem_cons_of_mem _ hp)⟩

/-- A step inside the last item. -/
theorem Gains.last (h : n.Gains xs new m) : ItemsGain xs new (ns ++ [n]) (ns ++ [m]) := by
  obtain ⟨hwritten, hlocations, hsolid⟩ := h none
  refine ⟨?_, ?_, ?_⟩
  · simp only [itemsWritten_append, itemsWritten, List.append_nil, List.append_assoc]
    exact hwritten.append_left _
  · simp only [itemLocations_append, itemLocations, List.append_nil, List.append_assoc]
    exact append_subset_append (List.Subset.refl _) hlocations
  · intro hs hlt
    obtain ⟨hns, hn, -⟩ := itemsSolid_append.1 hs
    refine itemsSolid_append.2 ⟨hns, hsolid hn fun p hp => hlt p ?_, trivial⟩
    simp [itemLocations_append, itemLocations, hp]

/-! ## New nodes -/

/-- A node that comes with written values and locations. The key that will
name it is still to be told. -/
structure Fresh (xs : Option KeyPart → List Spot) (new : List Location) (n : Node) : Prop where
  written : ∀ key, (n.written key).Perm (xs key)
  locations : n.locations ⊆ new
  solid : n.Solid

/-- A new item. -/
theorem Fresh.concat {xs : Option KeyPart → List Spot} (h : n.Fresh xs new) (ns : List Node) :
    ItemsGain (xs none) new ns (ns ++ [n]) := by
  refine ⟨?_, ?_, fun hns _ => itemsSolid_append.2 ⟨hns, h.solid, trivial⟩⟩
  · simp only [itemsWritten_append, itemsWritten, List.append_nil]
    exact (h.written none).append_left _
  · simp only [itemLocations_append, itemLocations, List.append_nil]
    exact append_subset_append (List.Subset.refl _) h.locations

/-- A table that no braces enclose, made of what is put into an empty
one. -/
theorem EntriesGain.fresh (h : EntriesGain xs new [] es) (hkind : kind ≠ .inlined)
    (faults : List Clash) (l : Location) :
    (Node.table faults l kind es).Fresh (fun _ => xs) (l :: new) where
  written key := by
    rw [written, if_neg hkind]
    exact h.written
  locations := List.cons_subset_cons l h.locations
  solid := ⟨fun h' => absurd h' hkind, h.solid trivial (by simp [entryLocations])⟩

end Node

namespace Contents

variable {xs : List Spot} {new : List Location} {t u : Contents} {k old : KeyPart} {n m : Node}
  {name : String}

/-- A step from one table under construction to another. -/
def Gains (xs : List Spot) (new : List Location) (t u : Contents) : Prop :=
  Node.EntriesGain xs new t.entries u.entries

theorem Gains.node (h : t.Gains xs new u) (faults : List Clash) (l : Location) (kind : TableKind) :
    (Node.table faults l kind t.entries).Gains xs new (u.node l kind) :=
  h.table faults u.faults l kind

theorem Gains.fresh {kind : TableKind} (h : empty.Gains xs new u) (hkind : kind ≠ .inlined)
    (l : Location) : (u.node l kind).Fresh (fun _ => xs) (l :: new) :=
  Node.EntriesGain.fresh h hkind u.faults l

/-! ## The two ways to change a table -/

/-- A new entry. -/
theorem gains_push {xs : Option KeyPart → List Spot} (h : n.Fresh xs new) (t : Contents) :
    t.Gains (xs (some k)) (k.location :: new) (t.push k n) := by
  refine ⟨?_, ?_, fun hs _ => Node.entriesSolid_append.2 ⟨hs, h.solid, trivial⟩⟩
  · simp only [push, Node.entriesWritten_append, Node.entriesWritten, List.append_nil]
    exact (h.written (some k)).append_left _
  · simp only [push, Node.entryLocations_append, Node.entryLocations, List.append_nil]
    exact append_subset_append (List.Subset.refl _) (List.cons_subset_cons _ h.locations)

/-- A node that is replaced. -/
theorem gains_setNewest (hfind : t.find? name = some (old, n)) (h : n.Gains xs new m) :
    t.Gains xs new (t.setNewest name m) := by
  obtain ⟨hname, older, fresh, ht, hf⟩ := find?_eq_some_iff.1 hfind
  obtain ⟨hwritten, hlocations, hsolid⟩ := h (some old)
  rw [Gains, Node.EntriesGain, setNewest_eq ht hname hf, ht]
  refine ⟨?_, ?_, ?_⟩
  · simp only [Node.entriesWritten_append, Node.entriesWritten, List.append_assoc]
    refine List.Perm.append_left _ ((hwritten.append_right _).trans ?_)
    rw [List.append_assoc]
    exact List.perm_append_comm.append_left _
  · have hsub : ∀ p ∈ m.locations, p ∈ n.locations ∨ p ∈ new := fun p hp =>
      List.mem_append.1 (hlocations hp)
    intro p hp
    simp only [Node.entryLocations_append, Node.entryLocations, List.mem_append,
      List.mem_cons] at hp ⊢
    grind
  · intro hs hlt
    obtain ⟨holder, hn, hfresh⟩ := Node.entriesSolid_append.1 hs
    refine Node.entriesSolid_append.2 ⟨holder, hsolid hn fun p hp => hlt p ?_, hfresh⟩
    simp [Node.entryLocations_append, Node.entryLocations, hp]

/-! ## Pairs -/

theorem gains_put {xs : Option KeyPart → List Spot} (hn : n.Fresh xs new) : ∀ (k : KeyPart)
    (ks : List KeyPart) (t : Contents), t.Gains (xs (some (Key.last ⟨k, ks⟩)))
      ((k :: ks).map KeyPart.location ++ new) (put n k ks t)
  | k, [], t => by
      rw [put, pushNew]
      split
      · exact gains_push hn (t.addFault _)
      · exact gains_push hn t
  | k, k' :: ks, t => by
      have hinside := gains_put hn k' ks
      have hnew : ∀ u : Contents, u.entries = t.entries → t.Gains (xs (some (Key.last ⟨k', ks⟩)))
          ((k :: k' :: ks).map KeyPart.location ++ new)
          (u.push k ((put n k' ks empty).node k.location .dotted)) := by
        intro u hu
        have hpush := gains_push (k := k) ((hinside empty).fresh
          (by decide : TableKind.dotted ≠ .inlined) k.location) u
        rw [Gains, hu] at hpush
        refine hpush.mono ?_
        simp
      have hlast : Key.last ⟨k, k' :: ks⟩ = Key.last ⟨k', ks⟩ := List.getLastD_cons ..
      rw [put, hlast]
      split
      · next old faults l kind entries hfind =>
        split
        · exact (gains_setNewest hfind ((hinside ⟨faults, entries⟩).node faults l kind)).mono
            (List.subset_cons_self _ _)
        · exact hnew (t.addFault _) rfl
      · exact hnew (t.addFault _) rfl
      · exact hnew t rfl

end Contents

/-! ## Written values -/

theorem Expr.locations_array (l : Location) (items : List Expr) :
    locationsIn (Expr.array l items).marks = l :: locationsIn (Expr.itemMarks items) := by
  simp [Expr.marks]

theorem Expr.locations_inlineTable (l : Location) (pairs : List (Key × Expr)) :
    locationsIn (Expr.inlineTable l pairs).marks = l :: locationsIn (Expr.pairMarks pairs) := by
  simp [Expr.marks]

theorem Expr.locations_pair (k : Key) (e : Expr) (pairs : List (Key × Expr)) :
    locationsIn (Expr.pairMarks ((k, e) :: pairs)) =
      (k.parts.map KeyPart.location ++ locationsIn e.marks) ++
        locationsIn (Expr.pairMarks pairs) := by
  simp [Expr.pairMarks]

mutual

/-- The node of a value comes with what is written in it. -/
theorem Expr.fresh_node : ∀ e : Expr, (locationsIn e.marks).Pairwise (· < ·) →
    e.node.Fresh e.spots (locationsIn e.marks)
  | .scalar l v, _ => ⟨fun key => .refl _, List.Subset.refl _, trivial⟩
  | .array l items, h => by
      rw [Expr.locations_array, List.pairwise_cons] at h
      obtain ⟨hfirst, hrest⟩ := h
      have hitems := Expr.gains_nodes items [] hrest
      rw [Expr.locations_array]
      exact ⟨fun key => hitems.written.cons _, List.cons_subset_cons l hitems.locations,
        fun _ => hitems.not_lt (by simp [Node.itemLocations]) hfirst,
        hitems.solid trivial (by simp [Node.itemLocations])⟩
  | .inlineTable l pairs, h => by
      rw [Expr.locations_inlineTable, List.pairwise_cons] at h
      obtain ⟨hfirst, hrest⟩ := h
      have hpairs := Expr.gains_contents pairs .empty hrest
      rw [Expr.locations_inlineTable]
      exact ⟨fun key => hpairs.written.cons _, List.cons_subset_cons l hpairs.locations,
        fun _ => hpairs.not_lt (by simp [Contents.empty, Node.entryLocations]) hfirst,
        hpairs.solid trivial (by simp [Contents.empty, Node.entryLocations])⟩

theorem Expr.gains_nodes : ∀ (es : List Expr) (ns : List Node),
    (locationsIn (Expr.itemMarks es)).Pairwise (· < ·) →
    Node.ItemsGain (Expr.itemSpots es) (locationsIn (Expr.itemMarks es)) ns (ns ++ Expr.nodes es)
  | [], ns, _ => by
      rw [Expr.nodes, List.append_nil]
      exact .refl _ _ _
  | e :: es, ns, h => by
      rw [Expr.itemMarks, locationsIn_append] at h ⊢
      obtain ⟨he, hes, hlt⟩ := List.pairwise_append.1 h
      have hrest := Expr.gains_nodes es (ns ++ [e.node]) hes
      rw [List.append_assoc] at hrest
      exact ((Expr.fresh_node e he).concat ns).trans hrest hlt

/-- Pairs put in what is written as their values. The marks of a pair come
before those of the next, so no step puts anything in front of what is
there. -/
theorem Expr.gains_contents : ∀ (ps : List (Key × Expr)) (t : Contents),
    (locationsIn (Expr.pairMarks ps)).Pairwise (· < ·) →
    t.Gains (Expr.pairSpots ps) (locationsIn (Expr.pairMarks ps)) (Expr.contents ps t)
  | [], t, _ => .refl _ _ _
  | (k, e) :: ps, t, h => by
      rw [Expr.locations_pair] at h ⊢
      obtain ⟨hpair, hps, hlt⟩ := List.pairwise_append.1 h
      have he := Expr.fresh_node e (List.pairwise_append.1 hpair).2.1
      exact (Contents.gains_put he k.head k.tail t).trans (Expr.gains_contents ps _ hps) hlt

end

namespace Contents

variable {xs : List Spot} {new : List Location} {t : Contents} {l : Location}
  {fill inside : Contents → Contents} {arrive : KeyPart → Contents → Contents}

/-! ## Headers -/

/-- The last item stands for the array, or a new table does. -/
theorem gains_fillLast (h : ∀ u : Contents, u.Gains xs new (inside u)) (l : Location)
    (items : List Node) : Node.ItemsGain xs (l :: new) items (fillLast l inside items) := by
  unfold fillLast
  split
  · next faults l' kind entries hlast =>
    obtain ⟨init, rfl⟩ := List.getLast?_eq_some_iff.1 hlast
    rw [List.dropLast_concat]
    have hgains := (h ⟨faults, entries⟩).node faults l' kind
    exact hgains.last.mono (List.subset_cons_self _ _)
  · exact ((h empty).fresh (by decide : TableKind.passed ≠ .inlined) l).concat items

/-- A header's key puts in what happens at its last part. -/
theorem gains_follow
    (harrive : ∀ (k : KeyPart) (u : Contents), u.Gains xs (k.location :: new) (arrive k u)) :
    ∀ (k : KeyPart) (ks : List KeyPart) (t : Contents),
      t.Gains xs ((k :: ks).map KeyPart.location ++ new) (follow arrive k ks t)
  | k, [], t => harrive k t
  | k, k' :: ks, t => by
      have hinside := gains_follow harrive k' ks
      -- a new table is located at the key part that leads a header through it
      have hpush : ∀ u : Contents, u.Gains xs ((k :: k' :: ks).map KeyPart.location ++ new)
          (u.push k ((follow arrive k' ks empty).node k.location .passed)) := by
        intro u
        have hfresh := (hinside empty).fresh (by decide : TableKind.passed ≠ .inlined) k.location
        exact (gains_push hfresh u).mono (by simp)
      rw [follow]
      split
      · exact hpush t
      · next old faults l kind entries hfind =>
        have hgains := fun fs => (hinside ⟨fs, entries⟩).node faults l kind
        exact (gains_setNewest hfind (hgains _)).mono (List.subset_cons_self _ _)
      · next old faults l ofTables items hfind =>
        have hgains := (gains_fillLast hinside k.location items).array faults
        exact gains_setNewest hfind (hgains _ l ofTables)
      · exact hpush (t.addFault _)

/-- A table header puts in its pairs. -/
theorem gains_openTable (hfill : ∀ u : Contents, u.Gains xs new (fill u)) (l : Location)
    (k : KeyPart) (t : Contents) : t.Gains xs (k.location :: l :: new) (openTable l fill k t) := by
  rw [openTable]
  split
  · exact gains_push ((hfill empty).fresh (by decide : TableKind.regular ≠ .inlined) l) t
  · next old faults l' kind entries hfind =>
    have hgains := fun fs => (hfill ⟨fs, entries⟩).node faults l' kind
    exact (gains_setNewest hfind (hgains _)).mono (by simp)
  · next old n _ _ => exact (hfill (t.addFault ⟨.conflictingKeys, k, old⟩)).mono (by simp)

/-- An array header puts in its pairs. -/
theorem gains_openArray (hfill : ∀ u : Contents, u.Gains xs new (fill u)) (l : Location)
    (k : KeyPart) (t : Contents) : t.Gains xs (k.location :: l :: new) (openArray l fill k t) := by
  have hitem := (hfill empty).fresh (by decide : TableKind.regular ≠ .inlined) l
  rw [openArray]
  split
  · have hfresh : (Node.array [] l true [(fill empty).node l .regular]).Fresh (fun _ => xs)
        (l :: new) := by
      have hitems := hitem.concat []
      refine ⟨fun _ => hitems.written, ?_, nofun, hitems.solid trivial (by simp [Node.itemLocations])⟩
      exact List.cons_subset.2 ⟨List.mem_cons_self, hitems.locations⟩
    exact gains_push hfresh t
  · next old faults l' ofTables items hfind =>
    exact (gains_setNewest hfind ((hitem.concat items).array faults _ l' ofTables)).mono
      (List.subset_cons_self _ _)
  · next old n _ hfind =>
    have hmark : n.Gains [] [] (n.addFault ⟨.arrayOfTablesExpected, k, old⟩) := by
      intro key
      cases n <;> exact .refl _ _ _
    have hgains := (gains_setNewest hfind hmark).trans (hfill _) (by simp)
    exact hgains.mono (by simp)

/-! ## Documents -/

/-- A section puts in its pairs. -/
theorem gains_addSection (s : Section) (t : Contents)
    (h : (locationsIn (s.heading.marks ++ Expr.pairMarks s.pairs)).Pairwise (· < ·)) :
    t.Gains (Expr.pairSpots s.pairs) (locationsIn (s.heading.marks ++ Expr.pairMarks s.pairs))
      (t.addSection s) := by
  obtain ⟨heading, pairs⟩ := s
  rw [locationsIn_append] at h ⊢
  have hpairs := fun u => Expr.gains_contents pairs u (List.pairwise_append.1 h).2.1
  cases heading with
  | table l k =>
    have hmarks : locationsIn (Heading.table l k).marks = l :: k.parts.map KeyPart.location := by
      simp [Heading.marks]
    rw [hmarks]
    exact (gains_follow (gains_openTable hpairs l) k.head k.tail t).mono List.perm_middle.subset
  | element l k =>
    have hmarks : locationsIn (Heading.element l k).marks = l :: k.parts.map KeyPart.location := by
      simp [Heading.marks]
    rw [hmarks]
    exact (gains_follow (gains_openArray hpairs l) k.head k.tail t).mono List.perm_middle.subset

/-- Sections put in their pairs, one after the other. -/
theorem gains_addSections : ∀ (ss : List Section) (t : Contents),
    (locationsIn (ss.flatMap fun s => s.heading.marks ++ Expr.pairMarks s.pairs)).Pairwise (· < ·) →
    t.Gains (ss.flatMap fun s => Expr.pairSpots s.pairs)
      (locationsIn (ss.flatMap fun s => s.heading.marks ++ Expr.pairMarks s.pairs))
      (ss.foldl addSection t)
  | [], t, _ => .refl _ _ _
  | s :: ss, t, h => by
      rw [List.flatMap_cons, locationsIn_append] at h
      rw [List.flatMap_cons, List.flatMap_cons, locationsIn_append]
      obtain ⟨hfirst, hrest, hlt⟩ := List.pairwise_append.1 h
      exact (gains_addSection s t hfirst).trans (gains_addSections ss _ hrest) hlt

end Contents

namespace Document

/-- The table of a document that is in order holds just what is written in
it. -/
theorem written_perm {d : Document} (h : (locationsIn d.marks).Pairwise (· < ·)) :
    (Node.entriesWritten d.contents.entries).Perm d.spots ∧
      Node.EntriesSolid d.contents.entries := by
  rw [marks, locationsIn_append] at h
  obtain ⟨hopening, hsections, hlt⟩ := List.pairwise_append.1 h
  have hgains := (Expr.gains_contents d.opening .empty hopening).trans
    (Contents.gains_addSections d.sections _ hsections) hlt
  exact ⟨hgains.written, hgains.solid trivial (by simp [Contents.empty, Node.entryLocations])⟩

end Document

end AuditSettings.Toml
