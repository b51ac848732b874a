/-
AuditSettings.Proofs.Settings.Accounting — every key is applied or ignored.

A reading answers for the entries of the root that are no sections and for
those that stand directly in a section, its topics. A topic is that of a
field or of none. The first kind makes the setting of its field, and the
second kind is what is ignored: all of it, once each, in the order of the
text, and nothing besides (`readDocument_accounts`). Two keys that are
ignored may have the same name, for the root may have a key with a dot in
it. They never stand at the same place, because the keys of a text do not.
-/
import AuditSettings.Proofs.Settings.Meaning
import AuditSettings.Proofs.Toml.UsedOnce

namespace AuditSettings

open AuditSettings.Text AuditSettings.Toml

/-- An entry that a reading answers for, with the section that it is in, if
it is in one. -/
structure Topic where
  inSection : Option String
  key : KeyPart
  value : Value

namespace Topic

/-- The field of a topic, if it has one. -/
def field? (x : Topic) : Option Field := x.inSection.bind fun s => Field.find? s x.key.name

/-- The key of a topic with its section in front, and where it is
written. -/
def ignoredKey (x : Topic) : IgnoredKey where
  key :=
    match x.inSection with
    | some s => s ++ "." ++ x.key.name
    | none => x.key.name
  location := x.key.location

/-- The visit to a topic. -/
def visit (x : Topic) : Visit :=
  match x.field? with
  | some f => .field f x.ignoredKey.key x.value
  | none => .unknown x.ignoredKey

/-- The topics of an entry of the root: the entries in it if it is a
section, and otherwise itself. -/
def ofEntry (k : KeyPart) (v : Value) : List Topic :=
  if k.name ∈ sectionNames then
    match v.table? with
    | some t => t.entries.map fun (f, w) => ⟨some k.name, f, w⟩
    | none => []
  else [⟨none, k, v⟩]

end Topic

/-- The topics of a tree, in the order of its text. -/
def Toml.Table.topics (t : Table) : List Topic := t.entries.flatMap fun (k, v) => Topic.ofEntry k v

/-! ## Topics and visits -/

namespace Topic

theorem visit_inSection (s : String) (k : KeyPart) (v : Value) :
    visit ⟨some s, k, v⟩ = Visit.ofField s k v := by
  rw [visit, Visit.ofField]
  rfl

/-- An entry has no other visits, if its section is a table. -/
theorem visits_ofEntry {k : KeyPart} {v : Value}
    (h : k.name ∈ sectionNames → ∃ u, v.table? = some u) :
    Visit.ofEntry k v = (ofEntry k v).map visit := by
  by_cases hsection : k.name ∈ sectionNames
  · obtain ⟨u, hu⟩ := h hsection
    simp [Visit.ofEntry, ofEntry, hsection, hu, visit_inSection]
  · simp [Visit.ofEntry, ofEntry, hsection, visit, field?, ignoredKey]

/-- A tree has no other visits, if its sections are tables. -/
theorem visits_ofTable {t : Table}
    (h : ∀ e ∈ t.entries, e.1.name ∈ sectionNames → ∃ u, e.2.table? = some u) :
    Visit.ofTable t = t.topics.map visit := by
  rw [Visit.ofTable, Table.topics, List.map_flatMap]
  exact List.flatMap_congr fun e he => visits_ofEntry (h e he)

theorem sublist_entries (entries : List (KeyPart × Value)) :
    (entries.map Prod.fst).Sublist ((Value.entryKeySites entries).map Prod.snd) := by
  induction entries with
  | nil => exact .slnil
  | cons e entries ih =>
    rw [Value.entryKeySites, List.map_append]
    exact (ih.trans (List.sublist_append_right _ _)).cons_cons e.1

theorem sublist_ofEntry (k : KeyPart) (v : Value) : ((ofEntry k v).map key).Sublist
    ((([.key k.name], k) :: under [.key k.name] v.keySites).map Prod.snd) := by
  rw [ofEntry]
  split
  · cases v with
    | scalar l s => exact List.nil_sublist _
    | array l items => exact List.nil_sublist _
    | table l entries =>
      have hkeys : (entries.map fun (f, w) => (⟨some k.name, f, w⟩ : Topic)).map key =
          entries.map Prod.fst := by
        rw [List.map_map]
        rfl
      rw [List.map_cons, map_snd_under, Value.keySites]
      exact hkeys ▸ (sublist_entries entries).cons k
  · exact (List.nil_sublist _).cons_cons k

/-- The keys of topics are keys of the tree. -/
theorem sublist_keys (t : Table) :
    (t.topics.map key).Sublist ((Value.entryKeySites t.entries).map Prod.snd) := by
  obtain ⟨entries⟩ := t
  rw [Table.topics]
  induction entries with
  | nil => exact .slnil
  | cons e entries ih =>
    obtain ⟨k, v⟩ := e
    rw [List.flatMap_cons, List.map_append, Value.entryKeySites, List.map_append]
    exact (sublist_ofEntry k v).append ih

/-- The topics of an accepted text stand at different places. -/
theorem nodup_locations {text : List Char} {t : Table} (h : parse text = .ok t) :
    (t.topics.map fun x => x.key.location).Nodup := by
  have hkeys := (sublist_keys t).map KeyPart.location
  rw [List.map_map, List.map_map] at hkeys
  exact (parse_key_locations h).sublist hkeys

/-- A topic of a field tells the setting of that field. -/
theorem means {t : Table} {r : Reading} (hunique : t.KeysUnique)
    (hr : Reading.ofTable t = .ok r) {x : Topic} (hx : x.visit ∈ Visit.ofTable t) {f : Field}
    (hf : x.field? = some f) : f.Means x.value (f.content r.settings) := by
  have hvisit : x.visit = .field f x.ignoredKey.key x.value := by rw [visit, hf]
  have hvalue := (Visit.field_mem_ofTable_iff hunique).1 ⟨_, hvisit ▸ hx⟩
  have htold := Reading.told_of_visits hunique (.refl _) hr f
  rwa [Field.Told, hvalue] at htold

end Topic

/-! ## Running through the visits -/

/-- The key that a visit ignores, if it ignores one. -/
def Visit.ignored? : Visit → Option IgnoredKey
  | .unknown k => some k
  | .field _ _ _ => none
  | .misfit _ _ => none

theorem Topic.ignored?_visit (x : Topic) :
    x.visit.ignored? = if x.field?.isNone then some x.ignoredKey else none := by
  rw [visit]
  cases x.field? <;> rfl

/-- A visit adds the key that it ignores. -/
theorem Reading.ignored_visit {r r' : Reading} {x : Visit} (h : r.visit x = .ok r') :
    r'.ignored = r.ignored ++ x.ignored?.toList := by
  cases x with
  | field f key v =>
    rw [visit] at h
    split at h
    · cases h
      simp [Visit.ignored?]
    · cases h
  | unknown k =>
    cases h
    rfl
  | misfit key v => cases h

/-- Some visits add the keys that they ignore. -/
theorem Reading.ignored_foldlM {xs : List Visit} {r r' : Reading}
    (h : xs.foldlM visit r = .ok r') : r'.ignored = r.ignored ++ xs.filterMap Visit.ignored? := by
  induction xs generalizing r with
  | nil =>
    cases h
    simp
  | cons x xs ih =>
    rw [List.foldlM_cons] at h
    obtain ⟨mid, hmid, hrest⟩ := exists_of_bind_eq_ok h
    rw [ih hrest, ignored_visit hmid, List.append_assoc]
    cases hx : x.ignored? <;> simp [hx]

/-- What is ignored of a tree: the topics without a field. -/
theorem Reading.ignored_ofTable {t : Table} {r : Reading} (hr : ofTable t = .ok r)
    (h : ∀ e ∈ t.entries, e.1.name ∈ sectionNames → ∃ u, e.2.table? = some u) :
    r.ignored = (t.topics.filter fun x => x.field?.isNone).map Topic.ignoredKey := by
  have hall := ignored_foldlM (show (Visit.ofTable t).foldlM visit standard = .ok r from hr)
  rw [Topic.visits_ofTable h, List.filterMap_map] at hall
  rw [hall, ← List.filterMap_eq_map, List.filterMap_filter]
  exact List.filterMap_congr fun x _ => x.ignored?_visit

/-- A text that has a reading is accounted for. Its sections are tables. A
topic of a field tells the setting of that field and is not ignored; a topic
without a field is ignored just once. What is ignored are the topics without
a field, in their order, and no two of them stand at one place. -/
theorem readDocument_accounts {text : List Char} {r : Reading} (h : readDocument text = .ok r) :
    ∃ t, parse text = .ok t ∧
      (∀ e ∈ t.entries, e.1.name ∈ sectionNames → ∃ u, e.2.table? = some u) ∧
      (∀ x ∈ t.topics, ∀ f, x.field? = some f →
        f.Means x.value (f.content r.settings) ∧ ∀ k ∈ r.ignored, k.location ≠ x.key.location) ∧
      (∀ x ∈ t.topics, x.field? = none → r.ignored.count x.ignoredKey = 1) ∧
      r.ignored = (t.topics.filter fun x => x.field?.isNone).map Topic.ignoredKey ∧
      (r.ignored.map IgnoredKey.location).Nodup := by
  obtain ⟨t, ht, hr⟩ := readDocument_eq_ok_iff.1 h
  obtain ⟨d, -, htable⟩ := exists_document ht
  have hunique := Document.table_keysUnique htable
  have hsections : ∀ e ∈ t.entries, e.1.name ∈ sectionNames → ∃ u, e.2.table? = some u :=
    fun e he hname => ((Reading.ofTable_isOk_iff hunique).1 ⟨r, hr⟩).1 _ hname e
      ((Table.get?_eq_some_iff_mem hunique.root).2 ⟨he, rfl⟩)
  have hignored := Reading.ignored_ofTable hr hsections
  have hplaces := Topic.nodup_locations ht
  have hlocations : (r.ignored.map IgnoredKey.location).Nodup := by
    rw [hignored, List.map_map]
    exact hplaces.sublist (List.filter_sublist.map _)
  refine ⟨t, ht, hsections, fun x hx f hf => ⟨?_, fun k hk hsame => ?_⟩, fun x hx hf => ?_,
    hignored, hlocations⟩
  · refine Topic.means hunique hr ?_ hf
    rw [Topic.visits_ofTable hsections]
    exact List.mem_map_of_mem hx
  · -- a key that is ignored here would be that of a topic without a field
    rw [hignored] at hk
    obtain ⟨y, hy, rfl⟩ := List.mem_map.1 hk
    obtain ⟨hy, hnone⟩ := List.mem_filter.1 hy
    obtain rfl := List.inj_on_of_nodup_map hplaces hy hx hsame
    rw [hf] at hnone
    cases hnone
  · refine List.count_eq_one_of_mem (.of_map _ hlocations) ?_
    rw [hignored]
    exact List.mem_map_of_mem (List.mem_filter.2 ⟨hx, by simp [hf]⟩)

/-- The root has a key with the name of a key in a section, and an unknown
section has a key with the name of a field. -/
def ambiguousKeys : String :=
  "\"output.colour\" = 1\n[output]\ncolour = 2\nquiet = true\n[other]\nquiet = false\n"

/-- Both keys of one name are ignored, each where it stands, and nothing in
the unknown section is. -/
theorem readDocument_accounts_ambiguous : ∃ r t, readDocument ambiguousKeys.toList = .ok r ∧
    parse ambiguousKeys.toList = .ok t ∧
    r.ignored = [⟨"output.colour", ⟨1, 1⟩⟩, ⟨"output.colour", ⟨3, 1⟩⟩, ⟨"other", ⟨5, 2⟩⟩] ∧
    (t.topics.filter fun x => x.field?.isNone).map Topic.ignoredKey = r.ignored ∧
    (∀ x ∈ t.topics, x.field? = none → r.ignored.count x.ignoredKey = 1) ∧
    (∃ x ∈ t.topics, x.field? = some .quiet ∧ x.value.boolean? = some r.settings.output.quiet) ∧
    r.settings.output.quiet = true := by
  obtain ⟨r, hr⟩ := exists_of_isOk (x := readDocument ambiguousKeys.toList) (by
    simp only [ambiguousKeys, String.reduceToList]
    decide +kernel)
  obtain ⟨t, ht, -, hknown, honce, hignored, -⟩ := readDocument_accounts hr
  have hread := of_all (fun r => r.settings.output.quiet && decide (r.ignored =
      [⟨"output.colour", ⟨1, 1⟩⟩, ⟨"output.colour", ⟨3, 1⟩⟩, ⟨"other", ⟨5, 2⟩⟩])) hr (by
    simp only [ambiguousKeys, String.reduceToList]
    decide +kernel)
  have htopic := of_all (fun t => t.topics.any fun x => x.field? = some .quiet) ht (by
    simp only [ambiguousKeys, String.reduceToList]
    decide +kernel)
  simp only [Bool.and_eq_true, decide_eq_true_eq] at hread
  obtain ⟨x, hx, hf⟩ := List.any_eq_true.1 htopic
  have hquiet := of_decide_eq_true hf
  exact ⟨r, t, hr, ht, hread.2, hignored.symm, honce,
    ⟨x, hx, hquiet, (hknown x hx _ hquiet).1⟩, hread.1⟩

end AuditSettings
