/-
AuditSettings.Proofs.Toml.Locations — the locations in a tree point at what
they name.

When a tree is made of a table, two tables of one address become one, and
of their two locations the older key's stays; nothing else is lost
(`Absorbs`). So every key in the tree of an accepted text is located where
a key is written that decodes to it, every scalar where the token is that
it was read from, and every bracketed array at its bracket. An inline table
is located at its brace, unless its key gives a table again that is there
already. That passes inside an element of an array of tables, and then the
table is located where the older one is.
-/
import AuditSettings.Proofs.Toml.Located
import AuditSettings.Proofs.Toml.Parsing
import AuditSettings.Proofs.Toml.Repeats
import AuditSettings.Proofs.Toml.Standing

namespace AuditSettings.Toml

open AuditSettings.Text

/-! ## Spots that meet -/

/-- Whether a spot is a table, and another table stands at its address that
an older key names. -/
def Superseded (spots : List (Address × Spot)) (x : Address × Spot) : Prop :=
  x.2.shape = .table ∧ ∃ y ∈ spots, y.1 = x.1 ∧ y.2.shape = .table ∧
    ∃ old ∈ y.2.key, ∃ new ∈ x.2.key, old.location < new.location

/-- Spots that are put to others: what was there stays, and what is lost
gives way to something older. -/
structure Absorbs (done new result lost : List (Address × Spot)) : Prop where
  perm : (done ++ new).Perm (result ++ lost)
  subset : done ⊆ result
  lost : ∀ x ∈ lost, Superseded result x

section Absorbs

variable {done new mid result lost xs ys : List (Address × Spot)} {x y : Address × Spot}

theorem Superseded.mono (h : Superseded xs x) (hsub : xs ⊆ ys) : Superseded ys x := by
  obtain ⟨hx, y, hy, rest⟩ := h
  exact ⟨hx, y, hsub hy, rest⟩

theorem Superseded.under (h : Superseded xs x) (a : Address) :
    Superseded (under a xs) (a ++ x.1, x.2) := by
  obtain ⟨hx, ⟨b, y⟩, hy, heq, rest⟩ := h
  exact ⟨hx, (a ++ b, y), append_mem_under.2 hy, by rw [← heq], rest⟩

/-- What gives way to something that gives way itself. -/
theorem Superseded.trans (h : Superseded xs x) (hxs : ∀ y ∈ xs, y ∈ ys ∨ Superseded ys y) :
    Superseded ys x := by
  obtain ⟨hx, y, hy, heq, hshape, old, hold, new, hnew, hlt⟩ := h
  rcases hxs y hy with hmem | ⟨-, z, hz, heq', hshape', older, holder, new', hnew', hlt'⟩
  · exact ⟨hx, y, hmem, heq, hshape, old, hold, new, hnew, hlt⟩
  · obtain rfl : new' = old := Option.some.inj (hnew'.symm.trans hold)
    exact ⟨hx, z, hz, heq'.trans heq, hshape', older, holder, new, hnew,
      Location.lt_trans hlt' hlt⟩

theorem Absorbs.refl (xs : List (Address × Spot)) : Absorbs xs [] xs [] :=
  ⟨.refl _, List.Subset.refl _, by simp⟩

/-- What meets nothing is kept. -/
theorem Absorbs.concat (done new : List (Address × Spot)) : Absorbs done new (done ++ new) [] :=
  ⟨by rw [List.append_nil], List.subset_append_left _ _, by simp⟩

theorem Absorbs.trans (h : Absorbs done xs mid lost) {lost' : List (Address × Spot)}
    (h' : Absorbs mid ys result lost') : Absorbs done (xs ++ ys) result (lost' ++ lost) where
  perm := by
    have hfirst := h.perm.append_right ys
    have hswap : (mid ++ lost ++ ys).Perm (mid ++ ys ++ lost) := by
      rw [List.append_assoc, List.append_assoc]
      exact List.perm_append_comm.append_left mid
    have hnext := h'.perm.append_right lost
    simp only [List.append_assoc] at hfirst hswap hnext ⊢
    exact hfirst.trans (hswap.trans hnext)
  subset := List.Subset.trans h.subset h'.subset
  lost x hx := by
    rcases List.mem_append.1 hx with hx | hx
    · exact h'.lost x hx
    · exact (h.lost x hx).mono h'.subset

/-- Something that was put together before may be put to others. -/
theorem Absorbs.of_parts (h : Absorbs [] xs new lost) {lost' : List (Address × Spot)}
    (h' : Absorbs done new result lost') : Absorbs done xs result (lost' ++ lost) where
  perm := by
    have hfirst := h.perm.append_left done
    have hnext := h'.perm.append_right lost
    simp only [List.nil_append, List.append_assoc] at hfirst hnext ⊢
    exact hfirst.trans hnext
  subset := h'.subset
  lost x hx := by
    rcases List.mem_append.1 hx with hx | hx
    · exact h'.lost x hx
    · refine (h.lost x hx).trans fun y hy => ?_
      rcases List.mem_append.1 (h'.perm.subset (List.mem_append_right _ hy)) with hy | hy
      · exact .inl hy
      · exact .inr (h'.lost y hy)

theorem Absorbs.under (h : Absorbs done new result lost) (a : Address) :
    Absorbs (under a done) (under a new) (under a result) (under a lost) where
  perm := by
    have hperm := perm_under h.perm a
    rwa [under_append, under_append] at hperm
  subset := List.map_subset _ h.subset
  lost x hx := by
    obtain ⟨y, hy, rfl⟩ := List.mem_map.1 hx
    exact (h.lost y hy).under a

/-- A node on top of what was put together. -/
theorem Absorbs.cons (h : Absorbs [] new result lost) (x : Address × Spot) :
    Absorbs [] (x :: new) (x :: result) lost where
  perm := h.perm.cons x
  subset := List.nil_subset _
  lost y hy := (h.lost y hy).mono (List.subset_cons_self _ _)

/-- Two lists that are put together apart. -/
theorem Absorbs.append (h : Absorbs [] xs new lost) {xs' new' lost' : List (Address × Spot)}
    (h' : Absorbs [] xs' new' lost') : Absorbs [] (xs ++ xs') (new ++ new') (lost' ++ lost) := by
  have hright : Absorbs new xs' (new ++ new') lost' := by
    refine ⟨?_, List.subset_append_left _ _, fun x hx => ?_⟩
    · rw [List.append_assoc]
      exact h'.perm.append_left new
    · exact (h'.lost x hx).mono (List.subset_append_right _ _)
  exact h.trans hright

end Absorbs

/-! ## Adding an entry to a tree -/

theorem Value.entrySpots_append (es fs : List (KeyPart × Value)) :
    entrySpots (es ++ fs) = entrySpots es ++ entrySpots fs := by
  induction es with
  | nil => rfl
  | cons e es ih => simp [entrySpots, ih]

/-- A table that meets a table of an older key. -/
theorem absorbs_table {before after : List (KeyPart × Value)} {k₀ k : KeyPart} {l l' : Location}
    {existing incoming merged : List (KeyPart × Value)} {lost : List (Address × Spot)}
    (hname : k₀.name = k.name) (hlt : k₀.location < k.location)
    (h : Absorbs (Value.entrySpots existing) (Value.entrySpots incoming)
      (Value.entrySpots merged) lost) :
    Absorbs (Value.entrySpots (before ++ (k₀, .table l' existing) :: after))
      (under [.key k.name] ((Value.table l incoming).spots (some k)))
      (Value.entrySpots (before ++ (k₀, .table l' merged) :: after))
      (([.key k.name], ⟨some k, l, .table⟩) :: under [.key k.name] lost) := by
  obtain ⟨hperm, hsub, hlost⟩ := h.under [.key k.name]
  have hthere : ([Step.key k.name], Spot.mk (some k₀) l' .table) ∈
      Value.entrySpots (before ++ (k₀, .table l' merged) :: after) := by
    simp [Value.entrySpots_append, Value.entrySpots, Value.spots, hname]
  refine ⟨?_, ?_, ?_⟩
  · -- of the two tables one is there before and after, the other is what is lost
    rw [List.perm_iff_count] at hperm ⊢
    intro x
    have := hperm x
    simp only [Value.entrySpots_append, Value.entrySpots, Value.spots, hname, under_cons,
      List.append_nil, List.count_append, List.count_cons] at this ⊢
    omega
  · intro x hx
    have := @hsub x
    simp only [Value.entrySpots_append, Value.entrySpots, Value.spots, hname, under_cons,
      List.mem_append, List.mem_cons] at hx ⊢
    grind
  · intro x hx
    rcases List.mem_cons.1 hx with rfl | hx
    · exact ⟨rfl, _, hthere, rfl, rfl, k₀, rfl, k, rfl, hlt⟩
    · refine (hlost x hx).mono fun y hy => ?_
      simp [Value.entrySpots_append, Value.entrySpots, Value.spots, hname, hy]

mutual

/-- An entry that comes later is absorbed. -/
theorem insertEntry_absorbs {v : Value} {done result : List (KeyPart × Value)} {k : KeyPart}
    (h : insertEntry done k v = .ok result) (hv : v.Distinct)
    (horder : Precedes (Value.entryKeySites done) (Value.entryKeySites [(k, v)])) :
    ∃ lost, Absorbs (Value.entrySpots done) (under [.key k.name] (v.spots (some k)))
      (Value.entrySpots result) lost := by
  rcases insertEntry_eq_ok h with ⟨-, rfl⟩ | ⟨before, k₀, l', existing, after, l, incoming,
    merged, rfl, -, hname, rfl, hins, rfl⟩
  · rw [Value.entrySpots_append, Value.entrySpots, Value.entrySpots, List.append_nil]
    exact ⟨[], .concat _ _⟩
  · have hmem : (k₀, Value.table l' existing) ∈ before ++ (k₀, .table l' existing) :: after :=
      List.mem_append_right _ List.mem_cons_self
    have hnew := List.mem_singleton_self (k, Value.table l incoming)
    have hold := Value.key_mem_entryKeySites hmem
    have hlt : k₀.location < k.location := by
      rw [hname] at hold
      exact horder _ _ _ hold (Value.key_mem_entryKeySites hnew)
    have hinside : Precedes (Value.entryKeySites existing) (Value.entryKeySites incoming) := by
      intro a p q hp hq
      have hp' := Value.under_subset_entryKeySites hmem (append_mem_under.2 hp)
      rw [hname] at hp'
      exact horder _ p q hp' (Value.under_subset_entryKeySites hnew (append_mem_under.2 hq))
    obtain ⟨lost, hlost⟩ := insertEntries_absorbs hins hv hinside
    exact ⟨_, absorbs_table hname hlt hlost⟩
termination_by sizeOf v

theorem insertEntries_absorbs : ∀ {incoming done result : List (KeyPart × Value)},
    insertEntries done incoming = .ok result → Value.EntriesDistinct incoming →
    Precedes (Value.entryKeySites done) (Value.entryKeySites incoming) →
    ∃ lost, Absorbs (Value.entrySpots done) (Value.entrySpots incoming)
      (Value.entrySpots result) lost
  | [], done, result, h, _, _ => by
      cases h
      exact ⟨[], .refl _⟩
  | (k, v) :: rest, done, result, h, hdistinct, horder => by
      obtain ⟨hk, hv, hrest⟩ := hdistinct
      rw [Value.entryKeySites_cons] at horder
      obtain ⟨hfirst, hlater⟩ := precedes_append_right.1 horder
      rw [insertEntries] at h
      split at h
      · next mid hmid =>
        obtain ⟨lost, hlost⟩ := insertEntry_absorbs hmid hv hfirst
        obtain ⟨lost', hlost'⟩ := insertEntries_absorbs h hrest (hlater.of_insertEntry hmid hk)
        exact ⟨_, hlost.trans hlost'⟩
      · cases h
termination_by incoming => sizeOf incoming

end

/-! ## The tree of a table under construction -/

mutual

/-- The spots of a node are those of its value, apart from tables that give
way to older ones. -/
theorem Node.value_absorbs : ∀ {n : Node} {v : Value} (key : Option KeyPart), n.value = .ok v →
    Ordered n.keySites → ∃ lost, Absorbs [] (n.spots key) (v.spots key) lost
  | .scalar faults l s, v, key, h, _ => by
      cases h
      exact ⟨[], .concat [] _⟩
  | .array faults l ofTables items, v, key, h, horder => by
      rw [Node.value] at h
      obtain ⟨vs, hvs, rfl⟩ := exists_of_map_eq_ok h
      obtain ⟨lost, hlost⟩ := Node.values_absorb 0 hvs horder
      exact ⟨lost, hlost.cons _⟩
  | .table faults l kind entries, v, key, h, horder => by
      rw [Node.value] at h
      obtain ⟨es, hes, rfl⟩ := exists_of_map_eq_ok h
      obtain ⟨lost, hlost⟩ := Node.addEntries_absorbs [] hes (List.Subset.refl _) horder
      exact ⟨lost, hlost.cons _⟩

theorem Node.values_absorb : ∀ {ns : List Node} {vs : List Value} (i : Nat),
    Node.values ns = .ok vs → Ordered (Node.itemKeySites i ns) →
    ∃ lost, Absorbs [] (Node.itemSpots i ns) (Value.itemSpots i vs) lost
  | [], vs, i, h, _ => by
      cases h
      exact ⟨[], .refl _⟩
  | n :: ns, vs, i, h, horder => by
      obtain ⟨hfirst, hrest, -⟩ := ordered_append.1 horder
      rw [Node.values] at h
      split at h
      · next v hv =>
        obtain ⟨us, hvs, rfl⟩ := exists_of_map_eq_ok h
        obtain ⟨lost, hlost⟩ := Node.value_absorbs none hv (ordered_under.1 hfirst)
        obtain ⟨lost', hlost'⟩ := Node.values_absorb (i + 1) hvs hrest
        exact ⟨_, (hlost.under [.index i]).append hlost'⟩
      · cases h

/-- The entries added so far have their keys from `prior`. -/
theorem Node.addEntries_absorbs : ∀ {es : List (KeyPart × Node)}
    {done result : List (KeyPart × Value)} (prior : List (Address × KeyPart)),
    Node.addEntries done es = .ok result → Value.entryKeySites done ⊆ prior →
    Ordered (prior ++ Node.entryKeySites es) →
    ∃ lost, Absorbs (Value.entrySpots done) (Node.entrySpots es) (Value.entrySpots result) lost
  | [], done, result, prior, h, _, _ => by
      cases h
      exact ⟨[], .refl _⟩
  | (k, n) :: es, done, result, prior, h, hdone, horder => by
      rw [Node.entryKeySites_cons, ← List.append_assoc] at horder
      obtain ⟨hfirst, -, -⟩ := ordered_append.1 horder
      obtain ⟨-, hentry, hcross⟩ := ordered_append.1 hfirst
      rw [Node.addEntries] at h
      split at h
      · cases h
      · next v hv =>
        split at h
        · next mid hmid =>
          have hsub := entryKeySites_subset (k := k) (Node.value_subset hv)
          have hmore := List.Subset.trans (insertEntry_subset hmid) (append_subset_append hdone hsub)
          obtain ⟨lost, hlost⟩ := Node.value_absorbs (some k) hv (Node.ordered_of_entry hentry)
          obtain ⟨lost', hlost'⟩ := insertEntry_absorbs hmid (Node.value_merged hv).1
            fun a p q hp hq => hcross a p q (hdone hp) (hsub hq)
          -- the node gives up what its own entries meet, then its table what it meets there
          obtain ⟨lost'', hlost''⟩ := Node.addEntries_absorbs _ h hmore horder
          exact ⟨_, ((hlost.under [.key k.name]).of_parts hlost').trans hlost''⟩
        · cases h

end

/-! ## Keys of spots -/

mutual

/-- The key of a spot in a node is its own or one at its address. -/
theorem Node.key_mem_keySites : ∀ {n : Node} {key : Option KeyPart} {a : Address} {x : Spot}
    {k : KeyPart}, (a, x) ∈ n.spots key → k ∈ x.key → a = [] ∧ k ∈ key ∨ (a, k) ∈ n.keySites
  | .scalar _ l v, key, a, x, k, hx, hk => by
      cases List.mem_singleton.1 hx
      exact .inl ⟨rfl, hk⟩
  | .array _ l _ items, key, a, x, k, hx, hk => by
      rcases List.mem_cons.1 hx with hx | hx
      · cases hx
        exact .inl ⟨rfl, hk⟩
      · exact .inr (Node.key_mem_itemKeySites 0 hx hk)
  | .table _ l _ entries, key, a, x, k, hx, hk => by
      rcases List.mem_cons.1 hx with hx | hx
      · cases hx
        exact .inl ⟨rfl, hk⟩
      · exact .inr (Node.key_mem_entryKeySites hx hk)

theorem Node.key_mem_itemKeySites : ∀ {ns : List Node} {a : Address} {x : Spot} {k : KeyPart}
    (i : Nat), (a, x) ∈ Node.itemSpots i ns → k ∈ x.key → (a, k) ∈ Node.itemKeySites i ns
  | [], a, x, k, i, hx, _ => by cases hx
  | n :: ns, a, x, k, i, hx, hk => by
      rcases List.mem_append.1 hx with hx | hx
      · obtain ⟨b, rfl, hb⟩ := mem_under.1 hx
        have hmem := (Node.key_mem_keySites hb hk).resolve_left (by simp)
        exact List.mem_append_left _ (append_mem_under.2 hmem)
      · exact List.mem_append_right _ (Node.key_mem_itemKeySites (i + 1) hx hk)

/-- The key of a spot in some entries is one at its address. -/
theorem Node.key_mem_entryKeySites : ∀ {es : List (KeyPart × Node)} {a : Address} {x : Spot}
    {k : KeyPart}, (a, x) ∈ Node.entrySpots es → k ∈ x.key → (a, k) ∈ Node.entryKeySites es
  | [], a, x, k, hx, _ => by cases hx
  | (p, n) :: es, a, x, k, hx, hk => by
      rcases List.mem_append.1 hx with hx | hx
      · obtain ⟨b, rfl, hb⟩ := mem_under.1 hx
        rcases Node.key_mem_keySites hb hk with ⟨rfl, hp⟩ | hmem
        · obtain rfl := Option.some.inj hp
          exact List.mem_append_left _ List.mem_cons_self
        · exact List.mem_append_left _ (List.mem_cons_of_mem _ (append_mem_under.2 hmem))
      · exact List.mem_append_right _ (Node.key_mem_entryKeySites hx hk)

end

/-! ## Accepted texts -/

namespace Document

variable {text : List Char} {d : Document} {t : Table}

/-- A tree has what the table that it is made of has, apart from tables that
give way to older ones. -/
theorem absorbs_table (hd : ofText text = .ok d) (h : d.table = .ok t) :
    d.contents.firstFault = none ∧
      ∃ lost, Absorbs [] (Node.entrySpots d.contents.entries) t.spots lost := by
  have hkept := kept (names_in_order hd).1
  rw [table] at h
  split at h
  · cases h
  · next hnone =>
    rw [Contents.table] at h
    obtain ⟨es, hes, rfl⟩ := exists_of_map_eq_ok h
    exact ⟨hnone, Node.addEntries_absorbs [] hes (List.Subset.refl _) hkept.inSequence.ordered⟩

/-- A key of the table stands in the text. -/
theorem key_standsIn (hd : ofText text = .ok d) {x : Address × Spot}
    (hx : x ∈ Node.entrySpots d.contents.entries) {k : KeyPart} (hk : k ∈ x.2.key) :
    k.StandsIn text := by
  have hkept := kept (names_in_order hd).1
  have hmem := mem_namesIn.1 (hkept.mem _ (Node.key_mem_entryKeySites hx hk))
  exact standsIn hd hmem

/-- Only below an element of an array does a table give way to an older
one. -/
theorem exists_index_of_superseded (hnone : d.contents.firstFault = none)
    {spots : List (Address × Spot)} {x : Address × Spot}
    (hspots : ∀ y ∈ x :: spots, y ∈ Node.entrySpots d.contents.entries) (h : Superseded spots x) :
    ∃ i, .index i ∈ x.1.dropLast.dropLast := by
  obtain ⟨-, y, hy, heq, -, old, hold, new, hnew, hlt⟩ := h
  by_contra hsight
  rw [not_exists] at hsight
  have hp := Node.key_mem_entryKeySites (hspots x List.mem_cons_self) hnew
  have hq := Node.key_mem_entryKeySites (hspots y (List.mem_cons_of_mem _ hy)) hold
  rw [heq] at hq
  obtain rfl := eq_of_mem_keySites hnone (Sight.reaches_of_dropLast hsight) hp hq
  exact Location.not_lt_self _ hlt

end Document

/-- In an accepted text stands, at every location in its tree, what the tree
has there: a key that decodes to the entry's, a token that converts to the
scalar, the bracket of a written array and the brace of an inline table. Of
all that is written nothing is missing but tables in elements of arrays whose
key names again what an older key has named. -/
theorem parse_locations {text : List Char} {t : Table} (h : parse text = .ok t) :
    (∀ x ∈ t.spots, ∀ k ∈ x.2.key, k.StandsIn text) ∧
    (∀ x ∈ t.spots, ∀ v, x.2.shape = .scalar v → x.2.mark.StandsIn text) ∧
    ∃ d, Document.ofText text = .ok d ∧ (∀ x ∈ d.spots, x.mark.StandsIn text) ∧
      ∃ made lost, (d.spots ++ made).Perm ((t.spots ++ lost).map Prod.snd) ∧
        (∀ x ∈ made, x.shape = .array ∨ x.shape = .table) ∧
        ∀ x ∈ lost, Superseded t.spots x ∧ ∃ i, .index i ∈ x.1.dropLast.dropLast := by
  obtain ⟨d, hd, htable⟩ := exists_document h
  obtain ⟨hwritten, hsolid⟩ := Document.written_perm (Document.marks_in_order hd).1
  obtain ⟨hnone, lost, hlost⟩ := Document.absorbs_table hd htable
  have hmem : ∀ x ∈ t.spots ++ lost, x ∈ Node.entrySpots d.contents.entries := fun x hx =>
    hlost.perm.mem_iff.2 hx
  have hstands : ∀ x ∈ d.spots, x.mark.StandsIn text := fun x hx =>
    Document.standsIn hd (Document.spots_in hx).1
  have hmade : ∀ x ∈ Node.entriesMade d.contents.entries, x.shape = .array ∨ x.shape = .table :=
    fun x => Node.shape_of_mem_entriesMade
  have hperm : (d.spots ++ Node.entriesMade d.contents.entries).Perm
      ((t.spots ++ lost).map Prod.snd) :=
    calc d.spots ++ Node.entriesMade d.contents.entries
      _ |>.Perm (Node.entriesWritten d.contents.entries ++ Node.entriesMade d.contents.entries) :=
        hwritten.symm.append_right _
      _ |>.Perm ((Node.entrySpots d.contents.entries).map Prod.snd) := hsolid.perm.symm
      _ |>.Perm ((t.spots ++ lost).map Prod.snd) := hlost.perm.map _
  refine ⟨?_, ?_, d, hd, hstands, _, lost, hperm, hmade, fun x hx => ⟨hlost.lost x hx, ?_⟩⟩
  · intro x hx k hk
    exact Document.key_standsIn hd (hmem x (List.mem_append_left _ hx)) hk
  · intro x hx v hv
    have hthere := hperm.mem_iff.2 (List.mem_map_of_mem (List.mem_append_left lost hx))
    rcases List.mem_append.1 hthere with hthere | hthere
    · exact hstands _ hthere
    · -- what headers and dots make is no scalar
      rcases hmade _ hthere with hshape | hshape
      · rw [hv] at hshape
        cases hshape
      · rw [hv] at hshape
        cases hshape
  · refine Document.exists_index_of_superseded hnone (fun y hy => hmem y ?_) (hlost.lost x hx)
    rcases List.mem_cons.1 hy with rfl | hy
    · exact List.mem_append_right _ hx
    · exact List.mem_append_left _ hy

/-- A character outside the basic plane counts twice in what follows it. -/
theorem parse_locations_wide : ∃ t, parse "\"😀\" = 1\r\n1.5 = [true]\n".toList = .ok t ∧
    ([.key "😀"], ⟨some ⟨"😀", ⟨1, 1⟩⟩, ⟨1, 8⟩, .scalar (.integer 1)⟩) ∈ t.spots ∧
    (∀ x ∈ t.spots, ∀ k ∈ x.2.key, k.StandsIn "\"😀\" = 1\r\n1.5 = [true]\n".toList) ∧
    ∀ x ∈ t.spots, ∀ v, x.2.shape = .scalar v →
      x.2.mark.StandsIn "\"😀\" = 1\r\n1.5 = [true]\n".toList := by
  obtain ⟨t, ht⟩ := exists_of_isOk (x := parse "\"😀\" = 1\r\n1.5 = [true]\n".toList) (by
    simp only [String.reduceToList]
    decide +kernel)
  have hmem := of_all (fun t => decide
    (([Step.key "😀"], Spot.mk (some ⟨"😀", ⟨1, 1⟩⟩) ⟨1, 8⟩ (.scalar (.integer 1))) ∈ t.spots)) ht (by
      simp only [String.reduceToList]
      decide +kernel)
  obtain ⟨hkeys, hscalars, -⟩ := parse_locations ht
  exact ⟨t, ht, of_decide_eq_true hmem, hkeys, hscalars⟩

/-- An inline table whose key was dotted before, in an element of an array,
is located at that key: nothing in the tree is located at its brace. -/
theorem parse_misplaces_inline_table : ∃ t d,
    parse "[[r]]\n[r.t]\na.x = 1\na = \x7by = 2\x7d\n".toList = .ok t ∧
    Document.ofText "[[r]]\n[r.t]\na.x = 1\na = \x7by = 2\x7d\n".toList = .ok d ∧
    ⟨some ⟨"a", ⟨4, 1⟩⟩, ⟨4, 5⟩, .table⟩ ∈ d.spots ∧
    (∀ x ∈ t.spots, x.2.location ≠ ⟨4, 5⟩) ∧
    ([.key "r", .index 0, .key "t", .key "a"], ⟨some ⟨"a", ⟨3, 1⟩⟩, ⟨3, 1⟩, .table⟩) ∈ t.spots := by
  obtain ⟨t, ht⟩ := exists_of_isOk
    (x := parse "[[r]]\n[r.t]\na.x = 1\na = \x7by = 2\x7d\n".toList) (by
      simp only [String.reduceToList]
      decide +kernel)
  obtain ⟨d, hd, -⟩ := exists_document ht
  have hwritten := of_all (fun d => decide
    (Spot.mk (some ⟨"a", ⟨4, 1⟩⟩) ⟨4, 5⟩ .table ∈ d.spots)) hd (by
      simp only [String.reduceToList]
      decide +kernel)
  have hmissing := of_all (fun t => decide (∀ x ∈ t.spots, x.2.location ≠ ⟨4, 5⟩)) ht (by
    simp only [String.reduceToList]
    decide +kernel)
  have hthere := of_all (fun t => decide (([Step.key "r", .index 0, .key "t", .key "a"],
    Spot.mk (some ⟨"a", ⟨3, 1⟩⟩) ⟨3, 1⟩ .table) ∈ t.spots)) ht (by
      simp only [String.reduceToList]
      decide +kernel)
  exact ⟨t, d, ht, hd, of_decide_eq_true hwritten, of_decide_eq_true hmissing,
    of_decide_eq_true hthere⟩

end AuditSettings.Toml
