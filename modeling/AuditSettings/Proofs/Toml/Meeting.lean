/-
AuditSettings.Proofs.Toml.Meeting — when a table under construction makes a
tree.

A tree is made entry by entry, and an entry is refused only where it meets
one of its name that it cannot be merged with. So a table under
construction makes a tree exactly when whatever meets in it are tables
(`Document.exists_table_iff`). Validation is there to find the others
beforehand, and does in every table that it looks into; but it does not look
into what is inside an array's items. What is refused after validation is a
key that is given again at least two names below such an item
(`refused_unseen`).
-/
import AuditSettings.Proofs.Toml.Parsing
import AuditSettings.Proofs.Toml.Repeats

namespace AuditSettings.Toml

open AuditSettings.Text

/-! ## Adding an entry that meets only tables -/

theorem MayMeet.mono {xs xs' ys ys' : List Site} (h : MayMeet xs ys) (hx : xs' ⊆ xs)
    (hy : ys' ⊆ ys) : MayMeet xs' ys' :=
  fun a σ τ ha hb => h a σ τ (hx ha) (hy hb)

/-- An entry that is added may meet what the table has of its name. -/
theorem mayMeet_of_find? {done : List (KeyPart × Value)} {k k₀ : KeyPart} {v v₀ : Value}
    (h : MayMeet (Value.entrySites done) (under [.key k.name] v.sites))
    (hfind : (done.find? fun e => e.1.name == k.name) = some (k₀, v₀)) :
    MayMeet v₀.sites v.sites := by
  have hname : k₀.name = k.name := by simpa using List.find?_some hfind
  intro a σ τ ha hb
  refine h ([.key k.name] ++ a) σ τ (Value.mem_entrySites.2 ?_) (append_mem_under.2 hb)
  exact ⟨_, List.mem_of_find?_eq_some hfind, a, by rw [hname]; rfl, ha⟩

/-- What may meet something else than a table is not there. -/
theorem find?_eq_none_of_mayMeet {done : List (KeyPart × Value)} {k : KeyPart} {v : Value}
    {τ : Shape} (h : MayMeet (Value.entrySites done) (under [.key k.name] v.sites))
    (hroot : ([], τ) ∈ v.sites) (hτ : τ ≠ .table) :
    (done.any fun e => e.1.name == k.name) = false := by
  rw [List.any_eq_false]
  rintro ⟨k₀, v₀⟩ hmem hname
  obtain ⟨σ, hσ⟩ : ∃ σ, ([], σ) ∈ v₀.sites := by cases v₀ <;> exact ⟨_, List.mem_cons_self⟩
  have hmeet := h [.key k.name] σ τ (Value.mem_entrySites.2
    ⟨_, hmem, [], by rw [show k₀.name = k.name by simpa using hname], hσ⟩)
    (mem_under.2 ⟨[], rfl, hroot⟩)
  exact hτ hmeet.2

/-- Once an entry was added, more entries of other names still meet only
what they met before. -/
theorem Merged.mayMeet_rest {done mid rest : List (KeyPart × Value)} {k : KeyPart} {xs : List Site}
    (hmid : Merged done (under [.key k.name] xs) mid)
    (h : MayMeet (Value.entrySites done) (Value.entrySites rest))
    (hk : k.name ∉ rest.map fun e => e.1.name) :
    MayMeet (Value.entrySites mid) (Value.entrySites rest) := by
  intro a σ τ ha hb
  rcases (hmid.mem_iff _).1 ha with ha | ha
  · exact h a σ τ ha hb
  · obtain ⟨c, rfl, -⟩ := mem_under.1 ha
    obtain ⟨e, he, d, hd, -⟩ := Value.mem_entrySites.1 hb
    simp only [List.singleton_append, List.cons.injEq, Step.key.injEq] at hd
    exact absurd (List.mem_map.2 ⟨e, he, hd.1.symm⟩) hk

mutual

/-- An entry that meets only tables is added. -/
theorem exists_insertEntry : ∀ {v : Value} {done : List (KeyPart × Value)} {k : KeyPart},
    Value.EntriesDistinct done → v.Distinct →
    MayMeet (Value.entrySites done) (under [.key k.name] v.sites) →
    ∃ result, insertEntry done k v = .ok result
  | .scalar l s, done, k, _, _, h => by
      rw [insertEntry, find?_eq_none_of_mayMeet h List.mem_cons_self (by simp)]
      exact ⟨_, rfl⟩
  | .array l items, done, k, _, _, h => by
      rw [insertEntry, find?_eq_none_of_mayMeet h List.mem_cons_self (by simp)]
      exact ⟨_, rfl⟩
  | .table l incoming, done, k, hdone, hv, h => by
      rw [insertEntry]
      split
      · exact ⟨_, rfl⟩
      · next k₀ l' existing hfind =>
        have hmeet := mayMeet_of_find? h hfind
        obtain ⟨before, after, rfl⟩ := List.append_of_mem (List.mem_of_find?_eq_some hfind)
        have hexisting := (Value.entriesDistinct_append.1 hdone).2.1.2.1
        obtain ⟨merged, hmerged⟩ := exists_insertEntries hexisting hv
          (hmeet.mono (List.subset_cons_self _ _) (List.subset_cons_self _ _))
        rw [hmerged]
        exact ⟨_, rfl⟩
      · next found hnot hfind =>
        obtain ⟨k₀, v₀⟩ := found
        have hmeet := mayMeet_of_find? h hfind
        cases v₀ with
        | scalar l' s => cases (hmeet [] _ _ List.mem_cons_self List.mem_cons_self).1
        | array l' items => cases (hmeet [] _ _ List.mem_cons_self List.mem_cons_self).1
        | table l' existing => exact absurd rfl (hnot k₀ l' existing)

theorem exists_insertEntries : ∀ {incoming done : List (KeyPart × Value)},
    Value.EntriesDistinct done → Value.EntriesDistinct incoming →
    MayMeet (Value.entrySites done) (Value.entrySites incoming) →
    ∃ result, insertEntries done incoming = .ok result
  | [], done, _, _, _ => ⟨done, rfl⟩
  | (k, v) :: rest, done, hdone, hincoming, h => by
      obtain ⟨hk, hv, hrest⟩ := hincoming
      obtain ⟨mid, hmid⟩ := exists_insertEntry hdone hv
        (h.mono (List.Subset.refl _) (List.subset_append_left _ _))
      have hmerged := insertEntry_merged hmid hdone hv
      obtain ⟨result, hresult⟩ := exists_insertEntries hmerged.distinct hrest
        (hmerged.mayMeet_rest (h.mono (List.Subset.refl _) (List.subset_append_right _ _)) hk)
      exact ⟨result, by rw [insertEntries, hmid]; exact hresult⟩

end

/-! ## Making a tree -/

theorem Mergeable.tail {x : Site} {xs : List Site} (h : Mergeable (x :: xs)) : Mergeable xs :=
  (List.pairwise_cons.1 h).2

mutual

/-- A node in which only tables meet has a value. -/
theorem Node.exists_value : ∀ {n : Node}, Mergeable n.sites → ∃ v, n.value = .ok v
  | .scalar _ l s, _ => ⟨.scalar l s, rfl⟩
  | .array faults l ofTables items, h => by
      obtain ⟨vs, hvs⟩ := Node.exists_values (i := 0) (Mergeable.tail h)
      rw [Node.value, hvs]
      exact ⟨_, rfl⟩
  | .table faults l kind entries, h => by
      obtain ⟨es, hes⟩ := Node.exists_addEntries (show Value.EntriesDistinct [] from trivial)
        (Mergeable.tail h) (by simp [MayMeet, Value.entrySites])
      rw [Node.value, hes]
      exact ⟨_, rfl⟩

theorem Node.exists_values : ∀ {ns : List Node} {i : Nat}, Mergeable (Node.itemSites i ns) →
    ∃ vs, Node.values ns = .ok vs
  | [], _, _ => ⟨[], rfl⟩
  | n :: ns, i, h => by
      obtain ⟨hn, hns, -⟩ := mergeable_append.1 h
      obtain ⟨v, hv⟩ := Node.exists_value (mergeable_under.1 hn)
      obtain ⟨vs, hvs⟩ := Node.exists_values hns
      rw [Node.values, hv, hvs]
      exact ⟨_, rfl⟩

/-- Entries of which only tables meet each other and what was there before
are added. -/
theorem Node.exists_addEntries : ∀ {es : List (KeyPart × Node)} {done : List (KeyPart × Value)},
    Value.EntriesDistinct done → Mergeable (Node.entrySites es) →
    MayMeet (Value.entrySites done) (Node.entrySites es) →
    ∃ result, Node.addEntries done es = .ok result
  | [], done, _, _, _ => ⟨done, rfl⟩
  | (k, n) :: es, done, hdone, h, hmeet => by
      obtain ⟨hn, hes, hcross⟩ := mergeable_append.1 h
      obtain ⟨v, hv⟩ := Node.exists_value (mergeable_under.1 hn)
      obtain ⟨hdistinct, hmem, -⟩ := Node.value_merged hv
      have hsites := mem_under_congr n.sites hmem [.key k.name]
      obtain ⟨mid, hmid⟩ := exists_insertEntry hdone hdistinct
        (hmeet.mono (List.Subset.refl _) fun x hx => List.mem_append_left _ ((hsites x).1 hx))
      have hmerged := insertEntry_merged hmid hdone hdistinct
      have hrest : MayMeet (Value.entrySites mid) (Node.entrySites es) := by
        intro a σ τ ha hb
        rcases (hmerged.mem_iff _).1 ha with ha | ha
        · exact hmeet a σ τ ha (List.mem_append_right _ hb)
        · exact hcross a σ τ ((hsites _).1 ha) hb
      obtain ⟨result, hresult⟩ := Node.exists_addEntries hmerged.distinct hes hrest
      exact ⟨result, by rw [Node.addEntries, hv]; simp only [hmid]; exact hresult⟩

end

/-- A table under construction makes a tree exactly when only tables meet in
it. -/
theorem Contents.exists_table_iff {t : Contents} : (∃ u, t.table = .ok u) ↔ Mergeable t.sites := by
  rw [Contents.table, exists_map_eq_ok_iff]
  constructor
  · rintro ⟨es, hes⟩
    exact (Node.addEntries_merged hes trivial).2
  · intro h
    exact Node.exists_addEntries trivial h (by simp [MayMeet, Value.entrySites])

/-! ## After validation -/

namespace Document

/-- A key of the document is given again at an address that validation does
not reach, and is what the document is refused for. -/
structure GivenAgain (d : Document) (a : Address) (old new : KeyPart) (e : SyntaxError) : Prop where
  old_mem : (a, old) ∈ d.contents.keySites
  new_mem : (a, new) ∈ d.contents.keySites
  lt : old.location < new.location
  error_eq : e = ⟨.duplicateKey new.name, new.location⟩
  /-- Two names at least lead on from an item of an array. -/
  inside : ∃ i, Step.index i ∈ a.dropLast.dropLast

/-- What is refused although validation found nothing is a key that is given
again where validation does not look. -/
theorem exists_givenAgain {d : Document} {e : SyntaxError} (hinc : Increasing (namesIn d.marks))
    (hvalid : d.contents.firstFault = none) (h : d.contents.table = .error e) :
    ∃ a old new, d.GivenAgain a old new e := by
  have htable : d.table = .error e := by rw [table, hvalid]; exact h
  obtain ⟨old, new, hrefused, -, -, -, hlt⟩ := exists_refused hinc htable
  cases hrefused with
  | recorded kind hfault => rw [hvalid] at hfault; cases hfault
  | merged a _ hold hnew =>
    refine ⟨a, old, new, hold, hnew, hlt, rfl, ?_⟩
    by_contra hnone
    have hreach := Sight.reaches_of_dropLast (a := a) fun i hi => hnone ⟨i, hi⟩
    rw [eq_of_mem_keySites hvalid hreach hold hnew] at hlt
    exact Location.not_lt_self _ hlt

end Document

/-- A document that passed validation makes a tree exactly when only tables
meet in it; otherwise it is refused for a key that is given again inside an
item of an array, and for nothing else. -/
theorem refused_unseen {text : List Char} {d : Document} (hd : Document.ofText text = .ok d)
    (hvalid : d.contents.firstFault = none) :
    ((∃ t, d.contents.table = .ok t) ↔ Mergeable d.contents.sites) ∧
      ∀ e, d.contents.table = .error e → ∃ a old new, d.GivenAgain a old new e :=
  ⟨Contents.exists_table_iff, fun _ he =>
    Document.exists_givenAgain (Document.names_in_order hd).1 hvalid he⟩

/-- The fault of a document that passed validation is that of its text. -/
theorem table_eq_error_of_fault? {text : List Char} {d : Document} {e : SyntaxError}
    (hd : Document.ofText text = .ok d) (hvalid : d.contents.firstFault = none)
    (he : fault? text = some e) : d.contents.table = .error e := by
  rw [fault?_eq_some_iff, parse, hd] at he
  simpa only [Document.table, hvalid] using he

/-- A dotted key that an inline table gives twice, as an item of an array,
passes validation and is then refused. -/
theorem refused_unseen_inline : ∃ d, Document.ofText "x = [\x7by.z = 1, y.z = 2\x7d]\n".toList = .ok d ∧
    d.contents.firstFault = none ∧ ∃ e, d.contents.table = .error e ∧
      ¬ Mergeable d.contents.sites ∧ ∃ a old new, d.GivenAgain a old new e := by
  obtain ⟨d, hd⟩ := exists_of_isOk
    (x := Document.ofText "x = [\x7by.z = 1, y.z = 2\x7d]\n".toList) (by
      simp only [String.reduceToList]
      decide +kernel)
  have hvalid := of_all (fun d => decide (d.contents.firstFault = none)) hd (by
    simp only [String.reduceToList]
    decide +kernel)
  have hvalid := of_decide_eq_true hvalid
  have he := table_eq_error_of_fault? hd hvalid (e := ⟨.duplicateKey "z", ⟨1, 18⟩⟩) (by
    simp only [String.reduceToList]
    decide +kernel)
  obtain ⟨hiff, hgiven⟩ := refused_unseen hd hvalid
  refine ⟨d, hd, hvalid, _, he, fun hmeet => ?_, hgiven _ he⟩
  obtain ⟨t, ht⟩ := hiff.2 hmeet
  rw [he] at ht
  cases ht

/-- A key that is given twice in a table of an array's element passes
validation, and adding its second value is refused. -/
theorem validation_misses_duplicate : ∃ d,
    Document.ofText "[[r]]\n[r.t]\na = 1\na = 2\n".toList = .ok d ∧
    d.contents.firstFault = none ∧ d.contents.table = .error ⟨.duplicateKey "a", ⟨4, 1⟩⟩ := by
  obtain ⟨d, hd⟩ := exists_of_isOk
    (x := Document.ofText "[[r]]\n[r.t]\na = 1\na = 2\n".toList) (by
      simp only [String.reduceToList]
      decide +kernel)
  have hvalid := of_all (fun d => decide (d.contents.firstFault = none)) hd (by
    simp only [String.reduceToList]
    decide +kernel)
  have hvalid := of_decide_eq_true hvalid
  refine ⟨d, hd, hvalid, table_eq_error_of_fault? hd hvalid ?_⟩
  simp only [String.reduceToList]
  decide +kernel

end AuditSettings.Toml
