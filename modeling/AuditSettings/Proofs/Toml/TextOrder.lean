/-
AuditSettings.Proofs.Toml.TextOrder — tables keep the order of the text.

The entries of a table can be written far apart: under a header that is
opened again, under dotted keys between other sections, in a table whose own
header follows those of its sub-tables. They stand in the table in the order
of their keys in the text all the same, in every table of an accepted text
(`parse_keys_in_order`).

While the document is taken in, this holds because whatever comes in was
written last (`Document.kept`). When its tree is made, tables of one address
come together. The older one keeps its place, and what the newer one adds
comes after all that it held, so one entry that is added keeps the order
(`inSequence_insertEntry`) and so do all of them.
-/
import AuditSettings.Proofs.Toml.Parsing
import AuditSettings.Proofs.Toml.UniqueKeys

namespace AuditSettings.Toml

open AuditSettings.Text

/-! ## Entries that are added -/

/-- What was made of the beginning of a sequence goes on like it, if it is in
sequence itself and has no other keys. -/
theorem InSequence.exchange {xs ys zs : List (Address × KeyPart)} (h : InSequence (xs ++ zs))
    (hy : InSequence ys) (hsub : ys ⊆ xs) : InSequence (ys ++ zs) := by
  obtain ⟨-, hz, hlead⟩ := inSequence_append.1 h
  exact inSequence_append.2 ⟨hy, hz, hlead.mono hsub (List.Subset.refl _)⟩

theorem Value.root_not_mem_entryKeySites (es : List (KeyPart × Value)) (p : KeyPart) :
    ([], p) ∉ entryKeySites es := by
  intro h
  obtain ⟨⟨k, v⟩, -, he⟩ := mem_entryKeySites.1 h
  obtain ⟨c, hc⟩ := exists_of_mem_entryKeySites he
  cases hc

/-- The keys of entries of other names, and the keys in them, are in no table
with those inside an entry. -/
theorem Value.leads_others {name : String} {es fs : List (KeyPart × Value)}
    (h : ∀ f ∈ fs, f.1.name ≠ name) :
    Leads (under [.key name] (entryKeySites es)) (entryKeySites fs) := by
  refine leads_of_name_ne (root_not_mem_entryKeySites es) fun y hy => ?_
  obtain ⟨f, hf, hy⟩ := mem_entryKeySites.1 hy
  obtain ⟨c, hc⟩ := exists_of_mem_entryKeySites hy
  exact ⟨f.1.name, c, hc, h f hf⟩

section

variable {before after old new both : List (Address × KeyPart)} {s : Step} {k₀ k : KeyPart}

/-- What is inside an entry and inside a later one of its name is in
sequence. -/
theorem InSequence.inside (h : InSequence (before ++ ((([s], k₀) :: under [s] old) ++ after) ++
    (([s], k) :: under [s] new))) : InSequence (old ++ new) := by
  have hold : (under [s] old).Sublist (before ++ ((([s], k₀) :: under [s] old) ++ after)) :=
    ((List.sublist_cons_self _ _).trans (List.sublist_append_left _ _)).trans
      (List.sublist_append_right _ _)
  have hinside := List.Pairwise.sublist (hold.append (List.sublist_cons_self _ _)) h
  rw [← under_append] at hinside
  exact inSequence_under.1 hinside

/-- An entry that takes in a later one keeps its place: what it gains comes
after what stood before it, and is in no table with what follows it. -/
theorem InSequence.gained (h : InSequence (before ++ ((([s], k₀) :: under [s] old) ++ after) ++
      (([s], k) :: under [s] new)))
    (hboth : InSequence both) (hroot : ∀ p, ([], p) ∉ both) (hsub : both ⊆ old ++ new)
    (hafter : Leads (under [s] both) after) :
    InSequence (before ++ ((([s], k₀) :: under [s] both) ++ after)) := by
  rw [List.append_assoc] at h
  obtain ⟨hbefore, hrest, hlead⟩ := inSequence_append.1 h
  obtain ⟨hentry, -, -⟩ := inSequence_append.1 hrest
  obtain ⟨-, hlast, hold⟩ := inSequence_append.1 hentry
  refine inSequence_append.2 ⟨hbefore, inSequence_append.2
    ⟨(inSequence_entry hroot).2 hboth, hlast, ?_⟩, hlead.mono (List.Subset.refl _) ?_⟩
  · rw [← List.singleton_append] at hold ⊢
    exact leads_append_left.2 ⟨(leads_append_left.1 hold).1, hafter⟩
  · have hinside : under [s] both ⊆ under [s] old ++ under [s] new := by
      rw [← under_append]
      exact List.map_subset _ hsub
    intro x hx
    have hx' := @hinside x
    simp only [List.cons_append, List.mem_cons, List.mem_append] at hx hx' ⊢
    tauto

end

mutual

/-- An entry that comes later leaves the entries in sequence. -/
theorem inSequence_insertEntry {v : Value} {done result : List (KeyPart × Value)} {k : KeyPart}
    (h : insertEntry done k v = .ok result) (hdone : Value.EntriesDistinct done) (hv : v.Distinct)
    (hseq : InSequence (Value.entryKeySites done ++ Value.entryKeySites [(k, v)])) :
    InSequence (Value.entryKeySites result) := by
  rcases insertEntry_eq_ok h with ⟨-, rfl⟩ | ⟨before, k₀, l₀, existing, after, l, incoming,
    merged, rfl, -, hname, rfl, hins, rfl⟩
  · rwa [Value.entryKeySites_append]
  · obtain ⟨-, ⟨hk, hexisting, -⟩, -⟩ := Value.entriesDistinct_append.1 hdone
    have hafter : ∀ f ∈ after, f.1.name ≠ k₀.name := by
      intro f hf heq
      exact hk (List.mem_map.2 ⟨f, hf, heq⟩)
    simp only [Value.entryKeySites_append, Value.entryKeySites, Value.keySites, List.append_nil,
      ← hname] at hseq ⊢
    have hmerged := inSequence_insertEntries hins hexisting hv hseq.inside
    exact hseq.gained hmerged (Value.root_not_mem_entryKeySites _)
      (insertEntries_subset hins) (Value.leads_others hafter)
termination_by sizeOf v

/-- So do entries that come later one by one. -/
theorem inSequence_insertEntries : ∀ {incoming done result : List (KeyPart × Value)},
    insertEntries done incoming = .ok result → Value.EntriesDistinct done →
    Value.EntriesDistinct incoming →
    InSequence (Value.entryKeySites done ++ Value.entryKeySites incoming) →
    InSequence (Value.entryKeySites result)
  | [], done, result, h, _, _, hseq => by
      cases h
      exact (inSequence_append.1 hseq).1
  | (k, v) :: rest, done, result, h, hdone, hincoming, hseq => by
      obtain ⟨-, hv, hrest⟩ := hincoming
      rw [Value.entryKeySites_cons, ← List.append_assoc] at hseq
      rw [insertEntries] at h
      split at h
      · next mid hmid =>
        have hmidSeq := inSequence_insertEntry hmid hdone hv (inSequence_append.1 hseq).1
        exact inSequence_insertEntries h (insertEntry_merged hmid hdone hv).distinct hrest
          (hseq.exchange hmidSeq (insertEntry_subset hmid))
      · cases h
termination_by incoming => sizeOf incoming

end

/-! ## The tree of a table under construction -/

/-- The key of an entry and the keys in it stay in sequence when its node
becomes a value. -/
theorem inSequence_entry_value {k : KeyPart} {n : Node} {v : Value}
    (hn : InSequence (Node.entryKeySites [(k, n)])) (hsub : v.keySites ⊆ n.keySites)
    (hv : InSequence n.keySites → InSequence v.keySites) :
    InSequence (Value.entryKeySites [(k, v)]) := by
  simp only [Node.entryKeySites, Value.entryKeySites, List.append_nil] at hn ⊢
  have hroot : ∀ p, ([], p) ∉ v.keySites := fun p hp => n.root_not_mem_keySites p (hsub hp)
  exact (inSequence_entry hroot).2 (hv ((inSequence_entry n.root_not_mem_keySites).1 hn))

mutual

/-- The tree of a node is in sequence when the node is. -/
theorem Node.inSequence_value : ∀ {n : Node} {v : Value}, n.value = .ok v →
    InSequence n.keySites → InSequence v.keySites
  | .scalar faults l s, v, h, _ => by
      cases h
      exact .nil
  | .array faults l ofTables items, v, h, hseq => by
      rw [Node.value] at h
      obtain ⟨vs, hvs, rfl⟩ := exists_of_map_eq_ok h
      exact Node.inSequence_values hvs 0 hseq
  | .table faults l kind entries, v, h, hseq => by
      rw [Node.value] at h
      obtain ⟨es, hes, rfl⟩ := exists_of_map_eq_ok h
      exact Node.inSequence_addEntries hes trivial hseq

theorem Node.inSequence_values : ∀ {ns : List Node} {vs : List Value}, Node.values ns = .ok vs →
    ∀ i, InSequence (Node.itemKeySites i ns) → InSequence (Value.itemKeySites i vs)
  | [], vs, h, i, _ => by
      cases h
      exact .nil
  | n :: ns, vs, h, i, hseq => by
      rw [Node.values] at h
      split at h
      · next v hv =>
        obtain ⟨us, hvs, rfl⟩ := exists_of_map_eq_ok h
        rw [Node.itemKeySites] at hseq
        obtain ⟨hfirst, hrest, hlead⟩ := inSequence_append.1 hseq
        have hitem := Node.inSequence_value hv (inSequence_under.1 hfirst)
        rw [Value.itemKeySites]
        refine inSequence_append.2 ⟨inSequence_under.2 hitem,
          Node.inSequence_values hvs (i + 1) hrest, hlead.mono ?_ (Node.values_subset hvs (i + 1))⟩
        exact List.map_subset _ (Node.value_subset hv)
      · cases h

/-- So is what the entries of a table are added to. -/
theorem Node.inSequence_addEntries : ∀ {es : List (KeyPart × Node)}
    {done result : List (KeyPart × Value)}, Node.addEntries done es = .ok result →
    Value.EntriesDistinct done →
    InSequence (Value.entryKeySites done ++ Node.entryKeySites es) →
    InSequence (Value.entryKeySites result)
  | [], done, result, h, _, hseq => by
      cases h
      exact (inSequence_append.1 hseq).1
  | (k, n) :: es, done, result, h, hdone, hseq => by
      rw [Node.entryKeySites_cons, ← List.append_assoc] at hseq
      obtain ⟨hfirst, -, -⟩ := inSequence_append.1 hseq
      obtain ⟨hdoneSeq, hentry, hlead⟩ := inSequence_append.1 hfirst
      rw [Node.addEntries] at h
      split at h
      · cases h
      · next v hv =>
        split at h
        · next mid hmid =>
          have hdistinct := (Node.value_merged hv).1
          have hsub := Node.value_subset hv
          have hentrySub := entryKeySites_subset (k := k) hsub
          have hvalue := inSequence_entry_value hentry hsub (Node.inSequence_value hv)
          have hadded : InSequence (Value.entryKeySites done ++ Value.entryKeySites [(k, v)]) :=
            inSequence_append.2
              ⟨hdoneSeq, hvalue, hlead.mono (List.Subset.refl _) hentrySub⟩
          have hmidSeq := inSequence_insertEntry hmid hdone hdistinct hadded
          have hmidSub := List.Subset.trans (insertEntry_subset hmid)
            (append_subset_append (List.Subset.refl _) hentrySub)
          exact Node.inSequence_addEntries h (insertEntry_merged hmid hdone hdistinct).distinct
            (hseq.exchange hmidSeq hmidSub)
        · cases h

end

/-- The tree of a document whose names are in order is in sequence. -/
theorem Document.table_inSequence {d : Document} {t : Table} (hinc : Increasing (namesIn d.marks))
    (h : d.table = .ok t) : InSequence (Value.entryKeySites t.entries) := by
  rw [Document.table] at h
  split at h
  · cases h
  · rw [Contents.table] at h
    obtain ⟨es, hes, rfl⟩ := exists_of_map_eq_ok h
    exact Node.inSequence_addEntries hes trivial (Document.kept hinc).inSequence

/-! ## Tables in order -/

/-- Whether the keys of a table stand in it in the order of the text. -/
def Table.KeysInOrder (t : Table) : Prop :=
  t.entries.Pairwise fun e f => e.1.location < f.1.location

namespace Value

/-- The keys of entries in sequence are in order. -/
theorem keysInOrder_of_inSequence {es : List (KeyPart × Value)}
    (h : InSequence (entryKeySites es)) : (Table.mk es).KeysInOrder := by
  induction es with
  | nil => exact .nil
  | cons e es ih =>
    obtain ⟨k, v⟩ := e
    obtain ⟨hentry, hrest, hlead⟩ := inSequence_append.1 h
    refine List.pairwise_cons.2 ⟨fun f hf => ?_, ih hrest⟩
    exact hlead _ _ _ _ List.mem_cons_self (key_mem_entryKeySites (k := f.1) (v := f.2) hf)
      (.names k.name f.1.name)

mutual

theorem tables_keysInOrder : ∀ {v : Value}, InSequence v.keySites → ∀ u ∈ v.tables, u.KeysInOrder
  | .scalar _ _, _, u, hu => by simp [tables] at hu
  | .array _ items, h, u, hu => itemTables_keysInOrder (i := 0) h u hu
  | .table _ entries, h, u, hu => by
      rcases List.mem_cons.1 hu with rfl | hu
      · exact keysInOrder_of_inSequence h
      · exact entryTables_keysInOrder h u hu

theorem itemTables_keysInOrder : ∀ {vs : List Value} {i : Nat}, InSequence (itemKeySites i vs) →
    ∀ u ∈ itemTables vs, u.KeysInOrder
  | [], _, _, u, hu => by simp [itemTables] at hu
  | v :: vs, i, h, u, hu => by
      rw [itemKeySites] at h
      obtain ⟨hfirst, hrest, -⟩ := inSequence_append.1 h
      rcases List.mem_append.1 hu with hu | hu
      · exact tables_keysInOrder (inSequence_under.1 hfirst) u hu
      · exact itemTables_keysInOrder hrest u hu

theorem entryTables_keysInOrder : ∀ {es : List (KeyPart × Value)},
    InSequence (entryKeySites es) → ∀ u ∈ entryTables es, u.KeysInOrder
  | [], _, u, hu => by simp [entryTables] at hu
  | (k, v) :: es, h, u, hu => by
      rw [entryKeySites] at h
      obtain ⟨hfirst, hrest, -⟩ := inSequence_append.1 h
      rcases List.mem_append.1 hu with hu | hu
      · exact tables_keysInOrder (inSequence_under.1 (List.pairwise_cons.1 hfirst).2) u hu
      · exact entryTables_keysInOrder hrest u hu

end

end Value

/-- In every table of an accepted text, however deep, the keys stand in the
order in which they are written: each has its location behind those of the
entries before it. -/
theorem parse_keys_in_order {text : List Char} {t : Table} (h : parse text = .ok t) :
    ∀ u ∈ t.tables, u.entries.Pairwise fun e f => e.1.location < f.1.location := by
  obtain ⟨d, hd, htable⟩ := exists_document h
  have hseq := Document.table_inSequence (Document.names_in_order hd).1 htable
  intro u hu
  rcases List.mem_cons.1 hu with rfl | hu
  · exact Value.keysInOrder_of_inSequence hseq
  · exact Value.entryTables_keysInOrder hseq u hu

/-- A sub-table that is opened before its parent, a section between the two,
and an array's element with dotted keys: the parent holds the sub-table first
and then what its own header brings. -/
theorem parse_keys_in_order_reopened : ∃ t,
    parse "[t.s]\nx = 1\n[u]\n[t]\nb.c = 2\nb.a = 3\n[[r]]\nq.z = 4\nq.y = 5\n".toList = .ok t ∧
      ["s", "b"] ∈ t.tables.map Table.names ∧
      ∀ u ∈ t.tables, u.entries.Pairwise fun e f => e.1.location < f.1.location := by
  obtain ⟨t, ht⟩ := exists_of_isOk
    (x := parse "[t.s]\nx = 1\n[u]\n[t]\nb.c = 2\nb.a = 3\n[[r]]\nq.z = 4\nq.y = 5\n".toList) (by
      simp only [String.reduceToList]
      decide +kernel)
  have hnames := of_all (fun t => decide (["s", "b"] ∈ t.tables.map Table.names)) ht (by
    simp only [String.reduceToList]
    decide +kernel)
  exact ⟨t, ht, of_decide_eq_true hnames, parse_keys_in_order ht⟩

end AuditSettings.Toml
