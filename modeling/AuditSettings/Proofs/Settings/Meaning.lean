/-
AuditSettings.Proofs.Settings.Meaning — what a tree with unique keys says of
the settings.

A document is read by one walk over its entries that updates one set of
settings as it goes. `Reading.ofTable_meaning` says what comes out without
that walk: each field is looked up under its own key, and its setting is
what the value there means, or the default where there is none. The order
of the sections and of the fields in them is not in that description, so it
does not matter.

The walk is taken apart once, over the list of its visits
(`foldlM_visit_isOk_iff`, `content_foldlM_visit`). What is left is to say
which visits a tree has (`field_mem_ofTable_iff`): where keys are unique, a
field is visited with the value that the lookup of its key finds.
-/
import AuditSettings.Discovery.Error
import AuditSettings.Proofs.Settings.Accepting
import AuditSettings.Proofs.Settings.Assigning
import AuditSettings.Proofs.Toml.Parsing
import AuditSettings.Proofs.Toml.UniqueKeys

namespace AuditSettings

open AuditSettings.Text AuditSettings.Toml AuditSettings.Policy

/-! ## Looking a field up -/

/-- The section of a name, if it is there and a table. -/
def Toml.Table.section? (t : Table) (name : String) : Option Table :=
  (t.get? name).bind fun e => e.2.table?

namespace Field

/-- The value under the key of a field, if there is one. -/
def value? (f : Field) (t : Table) : Option Value :=
  ((t.section? f.sectionName).bind fun u => u.get? f.name).map Prod.snd

/-- Whether some settings have for a field what a tree says of it: what the
value under its key means, and the default if there is no such value. -/
def Told (f : Field) (t : Table) (s : Settings) : Prop :=
  match f.value? t with
  | some v => f.Means v (content s f)
  | none => content s f = content .standard f

/-- Settings are told by the value under the key of the field. -/
theorem Told.unique {f : Field} {t t' : Table} {s s' : Settings} (h : f.Told t s)
    (h' : f.Told t' s') (hvalue : f.value? t = f.value? t') : content s f = content s' f := by
  rw [Told] at h h'
  rw [← hvalue] at h'
  cases hv : f.value? t with
  | some v =>
    rw [hv] at h h'
    exact Means.unique h h'
  | none =>
    rw [hv] at h h'
    exact h.trans h'.symm

theorem find?_eq_some_iff {f : Field} {inSection name : String} :
    find? inSection name = some f ↔ f.sectionName = inSection ∧ f.name = name := by
  constructor
  · intro h
    simpa using List.find?_some h
  · rintro ⟨rfl, rfl⟩
    exact find?_name f

theorem sectionName_mem (f : Field) : f.sectionName ∈ sectionNames := by
  cases f <;> decide

/-- The keys that a document may have, each by its section and its name there,
and the field that is set by it. -/
def keys : List (String × String × Field) :=
  [("advisories", "ignore", ignore),
    ("advisories", "informational_warnings", informationalWarnings),
    ("advisories", "severity_threshold", severityThreshold),
    ("output", "deny", deny),
    ("output", "format", format),
    ("output", "quiet", quiet),
    ("output", "show_tree", showTree),
    ("yanked", "enabled", yankedEnabled),
    ("yanked", "update_index", updateIndex),
    ("database", "path", databasePath),
    ("database", "url", databaseUrl),
    ("database", "fetch", fetch),
    ("database", "stale", stale),
    ("target", "arch", arch),
    ("target", "os", os)]

/-- A key is known for the field that it names, and no other is. -/
theorem find?_eq_some_iff_mem_keys {f : Field} {inSection name : String} :
    find? inSection name = some f ↔ (inSection, name, f) ∈ keys := by
  rw [find?_eq_some_iff]
  cases f <;> simp [keys, sectionName, Field.name, eq_comm]

end Field

/-! ## Running through the visits -/

namespace Visit

/-- Whether a visit goes well. -/
def Fine : Visit → Prop
  | field f _ v => f.expectation.Met v
  | unknown _ => True
  | misfit _ _ => False

/-- A visit that goes well gives a reading. -/
theorem visit_isOk_iff {r : Reading} {x : Visit} : (∃ r', r.visit x = .ok r') ↔ x.Fine := by
  cases x with
  | field f key v =>
    rw [Fine, ← Field.read_isOk_iff, Reading.visit]
    cases f.read v with
    | error e => simp
    | ok a => simp
  | unknown k => simp [Reading.visit, Fine]
  | misfit key v => simp [Reading.visit, Fine]

/-- A run over some visits gives a reading exactly when each of them goes
well. -/
theorem foldlM_visit_isOk_iff {xs : List Visit} {r : Reading} :
    (∃ r', xs.foldlM Reading.visit r = .ok r') ↔ ∀ x ∈ xs, x.Fine := by
  induction xs generalizing r with
  | nil =>
    simp [pure, Except.pure]
  | cons x xs ih =>
    rw [List.foldlM_cons, List.forall_mem_cons, ← visit_isOk_iff (r := r)]
    constructor
    · rintro ⟨r', h⟩
      obtain ⟨r₁, h₁, hrest⟩ := exists_of_bind_eq_ok h
      exact ⟨⟨r₁, h₁⟩, ih.1 ⟨r', hrest⟩⟩
    · rintro ⟨⟨r₁, h₁⟩, hrest⟩
      obtain ⟨r', h⟩ := ih.2 hrest
      exact ⟨r', by rw [h₁]; exact h⟩

/-- What a setting is after one visit. -/
theorem content_visit {r r' : Reading} {x : Visit} (h : r.visit x = .ok r') (f : Field) :
    (∃ key v, x = .field f key v ∧ f.Means v (f.content r'.settings)) ∨
      (∀ key v, x ≠ .field f key v) ∧ f.content r'.settings = f.content r.settings := by
  cases x with
  | field g key v =>
    rw [Reading.visit] at h
    cases ha : g.read v with
    | error e => simp [ha] at h
    | ok a =>
      obtain rfl : { r with settings := r.settings.assign a } = r' := by simpa [ha] using h
      by_cases hfg : f = g
      · subst hfg
        exact .inl ⟨key, v, rfl, Field.means_of_read ha _⟩
      · refine .inr ⟨fun _ _ hx => ?_, Field.content_of_read ha _ hfg⟩
        cases hx
        exact hfg rfl
  | unknown k =>
    cases h
    exact .inr ⟨nofun, rfl⟩
  | misfit key v => cases h

/-- What a setting is after some visits: what the value of one of them
means, or what it was if none of them is to its field. -/
theorem content_foldlM_visit {xs : List Visit} {f : Field} {r r' : Reading}
    (h : xs.foldlM Reading.visit r = .ok r') :
    (∃ key v, .field f key v ∈ xs ∧ f.Means v (f.content r'.settings)) ∨
      (∀ key v, .field f key v ∉ xs) ∧ f.content r'.settings = f.content r.settings := by
  induction xs generalizing r with
  | nil =>
    cases h
    exact .inr ⟨fun _ _ => List.not_mem_nil, rfl⟩
  | cons x xs ih =>
    rw [List.foldlM_cons] at h
    obtain ⟨r₁, h₁, hrest⟩ := exists_of_bind_eq_ok h
    rcases ih hrest with ⟨key, v, hmem, hmeans⟩ | ⟨hnone, hsame⟩
    · exact .inl ⟨key, v, List.mem_cons_of_mem _ hmem, hmeans⟩
    · -- no later visit touches the field, so this one decides
      rw [hsame]
      rcases content_visit h₁ f with ⟨key, v, rfl, hmeans⟩ | ⟨hne, hsame₁⟩
      · exact .inl ⟨key, v, List.mem_cons_self, hmeans⟩
      · refine .inr ⟨fun key v hmem => ?_, hsame₁⟩
        rcases List.mem_cons.1 hmem with hx | hmem
        · exact hne key v hx.symm
        · exact hnone key v hmem

/-! ## The visits of a tree -/

theorem field_mem_ofEntry_iff {k : KeyPart} {v w : Value} {f : Field} {key : String} :
    .field f key w ∈ ofEntry k v ↔ k.name = f.sectionName ∧ key = k.name ++ "." ++ f.name ∧
      ∃ u, v.table? = some u ∧ ∃ e ∈ u.entries, e.1.name = f.name ∧ e.2 = w := by
  rw [ofEntry]
  split
  · cases v.table? with
    | none => simp
    | some u =>
      simp only [List.mem_map, Option.some.injEq, exists_eq_left', Prod.exists]
      constructor
      · rintro ⟨l, x, hmem, hvisit⟩
        rw [ofField] at hvisit
        split at hvisit
        · next g hg =>
          obtain ⟨hsection, hname⟩ := Field.find?_eq_some_iff.1 hg
          cases hvisit
          exact ⟨hsection.symm, by rw [hname], l, w, hmem, hname.symm, rfl⟩
        · cases hvisit
      · rintro ⟨hsection, rfl, l, x, hmem, hname, rfl⟩
        have hg : Field.find? k.name l.name = some f :=
          Field.find?_eq_some_iff.2 ⟨hsection.symm, hname.symm⟩
        exact ⟨l, x, hmem, by simp only [ofField, hg, ← hname]⟩
  · next hnot =>
    constructor
    · intro h
      simp at h
    · rintro ⟨hsection, -⟩
      rw [hsection] at hnot
      exact absurd (List.contains_iff_mem.2 f.sectionName_mem) hnot

theorem misfit_mem_ofEntry_iff {k : KeyPart} {v w : Value} {key : String} :
    .misfit key w ∈ ofEntry k v ↔
      k.name ∈ sectionNames ∧ v.table? = none ∧ key = k.name ∧ w = v := by
  rw [ofEntry]
  split
  · next hsection =>
    cases v.table? with
    | none => simp [List.contains_iff_mem.1 hsection]
    | some u =>
      simp only [List.mem_map, Prod.exists, reduceCtorEq, false_and, and_false, iff_false]
      rintro ⟨l, x, -, hvisit⟩
      rw [ofField] at hvisit
      split at hvisit <;> cases hvisit
  · next hnot =>
    have hnot : k.name ∉ sectionNames := fun h => hnot (List.contains_iff_mem.2 h)
    simp [hnot]

end Visit

/-- Where keys are unique, the lookup of a key finds whatever has it. -/
theorem Toml.Table.get?_eq_some_iff_mem {t : Table} (h : t.names.Nodup) {key : String}
    {e : KeyPart × Value} : t.get? key = some e ↔ e ∈ t.entries ∧ e.1.name = key := by
  rw [get?_eq_some_iff h]
  constructor
  · rintro ⟨hmem, hname, -⟩
    exact ⟨hmem, hname⟩
  · rintro ⟨hmem, hname⟩
    exact ⟨hmem, hname, fun f hf hfname =>
      List.inj_on_of_nodup_map h hf hmem (hfname.trans hname.symm)⟩

theorem Toml.Value.mem_entryTables {entries : List (KeyPart × Value)} {e : KeyPart × Value}
    {u : Table} (he : e ∈ entries) (hu : u ∈ e.2.tables) : u ∈ entryTables entries := by
  induction entries with
  | nil => cases he
  | cons e' entries ih =>
    rw [entryTables]
    rcases List.mem_cons.1 he with rfl | he
    · exact List.mem_append_left _ hu
    · exact List.mem_append_right _ (ih he)

theorem Toml.Table.KeysUnique.root {t : Table} (h : t.KeysUnique) : t.names.Nodup :=
  h t List.mem_cons_self

theorem Toml.Table.KeysUnique.section {t u : Table} (h : t.KeysUnique) {e : KeyPart × Value}
    (he : e ∈ t.entries) (hu : e.2.table? = some u) : u.names.Nodup := by
  refine h u (List.mem_cons_of_mem _ (Value.mem_entryTables he ?_))
  cases hv : e.2 with
  | scalar l s => simp [hv, Value.table?] at hu
  | array l items => simp [hv, Value.table?] at hu
  | table l entries =>
    obtain rfl : ⟨entries⟩ = u := by simpa [hv, Value.table?] using hu
    exact List.mem_cons_self

theorem Field.value?_eq_some_iff {t : Table} (h : t.KeysUnique) {f : Field} {v : Value} :
    f.value? t = some v ↔ ∃ e ∈ t.entries, e.1.name = f.sectionName ∧
      ∃ u, e.2.table? = some u ∧ ∃ e' ∈ u.entries, e'.1.name = f.name ∧ e'.2 = v := by
  simp only [value?, Table.section?, Option.map_eq_some_iff, Option.bind_eq_some_iff]
  constructor
  · rintro ⟨e', ⟨u, ⟨e, he, hu⟩, he'⟩, rfl⟩
    obtain ⟨hmem, hname⟩ := (Table.get?_eq_some_iff_mem h.root).1 he
    obtain ⟨hmem', hname'⟩ := (Table.get?_eq_some_iff_mem (h.section hmem hu)).1 he'
    exact ⟨e, hmem, hname, u, hu, e', hmem', hname', rfl⟩
  · rintro ⟨e, hmem, hname, u, hu, e', hmem', hname', rfl⟩
    exact ⟨e', ⟨u, ⟨e, (Table.get?_eq_some_iff_mem h.root).2 ⟨hmem, hname⟩, hu⟩,
      (Table.get?_eq_some_iff_mem (h.section hmem hu)).2 ⟨hmem', hname'⟩⟩, rfl⟩

namespace Visit

/-- A field is visited with the value that the lookup of its key finds. -/
theorem field_mem_ofTable_iff {t : Table} (h : t.KeysUnique) {f : Field} {v : Value} :
    (∃ key, .field f key v ∈ ofTable t) ↔ f.value? t = some v := by
  rw [Field.value?_eq_some_iff h]
  simp only [ofTable, List.mem_flatMap, field_mem_ofEntry_iff]
  constructor
  · rintro ⟨key, e, he, hname, -, hfield⟩
    exact ⟨e, he, hname, hfield⟩
  · rintro ⟨e, he, hname, hfield⟩
    exact ⟨_, e, he, hname, rfl, hfield⟩

/-- All visits go well exactly when each section is a table and each field
has a value of the kind that it asks for. -/
theorem fine_ofTable_iff {t : Table} (h : t.KeysUnique) :
    (∀ x ∈ ofTable t, x.Fine) ↔
      (∀ name ∈ sectionNames, ∀ e, t.get? name = some e → Expectation.table.Met e.2) ∧
        ∀ (f : Field) v, f.value? t = some v → f.expectation.Met v := by
  constructor
  · intro hfine
    refine ⟨fun name hname e he => ?_, fun f v hv => ?_⟩
    · obtain ⟨hmem, rfl⟩ := (Table.get?_eq_some_iff_mem h.root).1 he
      cases hu : e.2.table? with
      | some u => exact ⟨u, hu⟩
      | none =>
        -- the entry would be visited as a misfit
        have hmisfit : misfit e.1.name e.2 ∈ ofTable t :=
          List.mem_flatMap.2 ⟨e, hmem, misfit_mem_ofEntry_iff.2 ⟨hname, hu, rfl, rfl⟩⟩
        exact (hfine _ hmisfit).elim
    · obtain ⟨key, hmem⟩ := (field_mem_ofTable_iff h).2 hv
      exact hfine _ hmem
  · rintro ⟨hsections, hfields⟩ x hx
    cases x with
    | field f key v => exact hfields f v ((field_mem_ofTable_iff h).1 ⟨key, hx⟩)
    | unknown k => trivial
    | misfit key v =>
      obtain ⟨e, he, hmisfit⟩ := List.mem_flatMap.1 hx
      obtain ⟨hname, hnone, -, -⟩ := misfit_mem_ofEntry_iff.1 hmisfit
      obtain ⟨u, hu⟩ := hsections _ hname e ((Table.get?_eq_some_iff_mem h.root).2 ⟨he, rfl⟩)
      rw [hu] at hnone
      cases hnone

end Visit

/-! ## Trees that differ in their order -/

/-- An entry with the entries of its table, if it has one, in any order. -/
def Toml.EntryRearranged (e e' : KeyPart × Value) : Prop :=
  e.1 = e'.1 ∧ (e.2 = e'.2 ∨
    ∃ l entries entries', e.2 = .table l entries ∧ e'.2 = .table l entries' ∧ entries.Perm entries')

/-- A tree with its sections, and the fields inside of them, in any order. -/
def Toml.Table.Rearranged (t t' : Table) : Prop :=
  ∃ middle, List.Forall₂ EntryRearranged t.entries middle ∧ middle.Perm t'.entries

namespace Visit

theorem perm_ofEntry {e e' : KeyPart × Value} (h : EntryRearranged e e') :
    (ofEntry e.1 e.2).Perm (ofEntry e'.1 e'.2) := by
  obtain ⟨hkey, hvalue | ⟨l, entries, entries', hvalue, hvalue', hperm⟩⟩ := h
  · rw [hkey, hvalue]
  · rw [hkey, hvalue, hvalue', ofEntry, ofEntry]
    split
    · exact hperm.map _
    · exact .refl _

/-- A rearranged tree has the same visits, in another order. -/
theorem perm_ofTable {t t' : Table} (h : t.Rearranged t') : (ofTable t).Perm (ofTable t') := by
  obtain ⟨middle, hall, hperm⟩ := h
  have hmiddle : (ofTable t).Perm (ofTable ⟨middle⟩) := by
    unfold ofTable
    generalize t.entries = entries at hall
    clear hperm
    induction hall with
    | nil => exact .refl _
    | cons he _ ih =>
      rw [List.flatMap_cons, List.flatMap_cons]
      exact (perm_ofEntry he).append ih
  exact hmiddle.trans (hperm.flatMap_right _)

end Visit

namespace Reading

/-- The visits of a tree make the settings that the tree tells, in whatever
order they are made. -/
theorem told_of_visits {t : Table} (h : t.KeysUnique) {xs : List Visit}
    (hxs : (Visit.ofTable t).Perm xs) {r : Reading} (hr : xs.foldlM visit standard = .ok r)
    (f : Field) : f.Told t r.settings := by
  rw [Field.Told]
  rcases Visit.content_foldlM_visit (f := f) hr with ⟨key, v, hmem, hmeans⟩ | ⟨hnone, hsame⟩
  · rw [(Visit.field_mem_ofTable_iff h).1 ⟨key, hxs.mem_iff.2 hmem⟩]
    exact hmeans
  · cases hv : f.value? t with
    | none => exact hsame
    | some v =>
      obtain ⟨key, hmem⟩ := (Visit.field_mem_ofTable_iff h).2 hv
      exact absurd (hxs.mem_iff.1 hmem) (hnone key v)

/-- A tree is read exactly when each section in it is a table and each
field in it has a value of the kind that the field asks for. -/
theorem ofTable_isOk_iff {t : Table} (h : t.KeysUnique) : (∃ r, ofTable t = .ok r) ↔
    (∀ name ∈ sectionNames, ∀ e, t.get? name = some e → Expectation.table.Met e.2) ∧
      ∀ (f : Field) v, f.value? t = some v → f.expectation.Met v :=
  Visit.foldlM_visit_isOk_iff.trans (Visit.fine_ofTable_iff h)

/-- A rearranged tree gives the same settings, or none just as well. -/
theorem settings_of_rearranged {t t' : Table} (h : t.KeysUnique) (ht : t.Rearranged t') :
    (ofTable t').toOption.map settings = (ofTable t).toOption.map settings := by
  have hperm := Visit.perm_ofTable ht
  have hok : (∃ r, ofTable t' = .ok r) ↔ ∃ r, ofTable t = .ok r := by
    unfold ofTable
    rw [Visit.foldlM_visit_isOk_iff, Visit.foldlM_visit_isOk_iff]
    exact forall_congr' fun x => by rw [hperm.mem_iff]
  cases hr : ofTable t with
  | ok r =>
    obtain ⟨r', hr'⟩ := hok.2 ⟨r, hr⟩
    have hsame : r'.settings = r.settings := Field.settings_ext fun f =>
      (told_of_visits h hperm hr' f).unique (told_of_visits h (.refl _) hr f) rfl
    rw [hr']
    exact congrArg some hsame
  | error e =>
    cases hr' : ofTable t' with
    | error e' => rfl
    | ok r' =>
      obtain ⟨r, hr''⟩ := hok.1 ⟨r', hr'⟩
      rw [hr] at hr''
      cases hr''

/-- Fifteen keys are known, each for its field. A tree with unique keys is read
exactly when each section in it is a table and each field in it has a value that
the field accepts. Each setting is then what the value under its own key means,
or its default, and so no other key has a say in it, and the order of the
sections and of their fields has none either. -/
theorem ofTable_meaning {t : Table} (h : t.KeysUnique) :
    (∀ f : Field, (f.sectionName, f.name, f) ∈ Field.keys) ∧
    (∀ f inSection name, Field.find? inSection name = some f ↔
      (inSection, name, f) ∈ Field.keys) ∧
    ((∃ r, ofTable t = .ok r) ↔
      (∀ name ∈ sectionNames, ∀ e, t.get? name = some e → Expectation.table.Met e.2) ∧
        ∀ (f : Field) v, f.value? t = some v → f.expectation.Met v) ∧
    (∀ r, ofTable t = .ok r → ∀ f : Field, f.Told t r.settings) ∧
    (∀ r t' r', ofTable t = .ok r → t'.KeysUnique → ofTable t' = .ok r' →
      ∀ f : Field, f.value? t = f.value? t' → f.content r.settings = f.content r'.settings) ∧
    ∀ t', t.Rearranged t' →
      (ofTable t').toOption.map settings = (ofTable t).toOption.map settings := by
  refine ⟨fun f => Field.find?_eq_some_iff_mem_keys.1 (Field.find?_name f),
    fun _ _ _ => Field.find?_eq_some_iff_mem_keys, ofTable_isOk_iff h,
    fun r hr f => told_of_visits h (.refl _) hr f, ?_,
    fun t' ht => settings_of_rearranged h ht⟩
  intro r t' r' hr h' hr' f hvalue
  exact (told_of_visits h (.refl _) hr f).unique (told_of_visits h' (.refl _) hr' f) hvalue

end Reading

/-! ## Texts -/

/-- A text has a reading when it has a tree that has one. -/
theorem readDocument_eq_ok_iff {cs : List Char} {r : Reading} :
    readDocument cs = .ok r ↔ ∃ t, parse cs = .ok t ∧ Reading.ofTable t = .ok r := by
  rw [readDocument, mapError_eq_ok_iff, Reading.ofText]
  cases parse cs with
  | error e => simp
  | ok t => cases hr : Reading.ofTable t <;> simp [hr]

/-- The settings of a text are those that its tree tells. -/
theorem told_of_readSettings {text : List Char} {s : Settings} (h : readSettings text = .ok s) :
    ∃ t, parse text = .ok t ∧ ∀ f : Field, f.Told t s := by
  obtain ⟨r, hr, rfl⟩ := exists_of_map_eq_ok h
  obtain ⟨t, ht, hread⟩ := readDocument_eq_ok_iff.1 hr
  obtain ⟨d, -, htable⟩ := parse_eq_ok_iff.1 ht
  have hunique := Document.table_keysUnique htable
  exact ⟨t, ht, fun f => Reading.told_of_visits hunique (.refl _) hread f⟩

/-- An empty section and a section of two fields. -/
def Toml.Table.targetThenOutput : Table where
  entries :=
    [(⟨"target", .origin⟩, .table .origin []),
      (⟨"output", .origin⟩, .table .origin
        [(⟨"deny", .origin⟩, .array .origin [.scalar .origin (.string "warnings")]),
          (⟨"quiet", .origin⟩, .scalar .origin (.boolean true))])]

/-- The same sections and fields the other way round. -/
def Toml.Table.outputThenTarget : Table where
  entries :=
    [(⟨"output", .origin⟩, .table .origin
        [(⟨"quiet", .origin⟩, .scalar .origin (.boolean true)),
          (⟨"deny", .origin⟩, .array .origin [.scalar .origin (.string "warnings")])]),
      (⟨"target", .origin⟩, .table .origin [])]

theorem Reading.ofTable_meaning_swapped :
    Table.targetThenOutput.KeysUnique ∧
      Table.targetThenOutput.Rearranged Table.outputThenTarget ∧
      ∃ r, ofTable Table.targetThenOutput = .ok r ∧
        (∀ f : Field, f.Told Table.targetThenOutput r.settings) ∧
        r.settings.output.quiet = true ∧ r.settings.output.showTree = true ∧
        r.settings.output.deny.members = [.warnings] ∧
        (ofTable Table.outputThenTarget).toOption.map settings = some r.settings := by
  have hunique : Table.targetThenOutput.KeysUnique := by
    unfold Table.KeysUnique
    decide
  have hrearranged : Table.targetThenOutput.Rearranged Table.outputThenTarget := by
    refine ⟨Table.outputThenTarget.entries.reverse, .cons ?_ (.cons ?_ .nil), .swap ..⟩
    · exact ⟨rfl, .inl rfl⟩
    · exact ⟨rfl, .inr ⟨.origin, _, _, rfl, rfl, .swap ..⟩⟩
  obtain ⟨-, -, -, htold, -, hsame⟩ := ofTable_meaning hunique
  obtain ⟨r, hr⟩ := exists_of_isOk (x := ofTable Table.targetThenOutput) (by decide +kernel)
  have hread := of_all (fun r => r.settings.output.quiet && r.settings.output.showTree &&
    decide (r.settings.output.deny.members = [.warnings])) hr (by decide +kernel)
  simp only [Bool.and_eq_true, decide_eq_true_eq] at hread
  obtain ⟨⟨hquiet, htree⟩, hdeny⟩ := hread
  refine ⟨hunique, hrearranged, r, hr, htold r hr, hquiet, htree, hdeny, ?_⟩
  rw [hsame _ hrearranged, hr]
  rfl

end AuditSettings
