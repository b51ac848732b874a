/-
AuditSettings.Proofs.Settings.RoundTrip — settings that are written and
read are the same settings.

Main statement: whichever of the three spellings some settings are written
in, reading the text gives the settings back and ignores nothing.

The tree of the text shows the sections of the JSON object, so reading it
visits the sections in order and in each of them the fields that the
object has. Every visit copies its field, and a field that is left out has
nothing to copy.
-/
import AuditSettings.Proofs.Settings.Assigning
import AuditSettings.Proofs.Settings.Sections
import AuditSettings.Settings.Reading

namespace AuditSettings

open AuditSettings.Text AuditSettings.Toml AuditSettings.Policy

/-! ## The sections of some settings -/

theorem Field.members_cons (s : Settings) (f : Field) (fs : List Field) :
    members s (f :: fs) =
      if (f.json s).isNull then members s fs else (f.name, f.json s) :: members s fs := by
  cases h : (f.json s).isNull <;> simp [members, h]

theorem areWritable_map_string (names : List String) :
    Json.AreWritable (names.map .string) := by
  induction names with
  | nil => trivial
  | cons name names ih => exact ⟨trivial, ih⟩

/-- Whatever a field says can be written. -/
theorem isWritable_json {s : Settings} {f : Field} (h : (f.json s).isNull = false) :
    (f.json s).IsWritable := by
  cases f with
  | databasePath =>
    cases hp : s.database.path <;> simp [Field.json, hp, Json.isNull, Json.IsWritable] at h ⊢
  | ignore | informationalWarnings | deny | arch | os =>
    simp only [Field.json, Json.wordSet, Json.strings, Json.IsWritable]
    exact areWritable_map_string _
  | _ => simp [Field.json, Json.IsWritable]

/-- Only a path can be left out. -/
theorem isNull_json {s : Settings} {f : Field} (h : f ≠ .databasePath) :
    (f.json s).isNull = false := by
  cases f <;> first | rfl | exact absurd rfl h

theorem membersWritable_members (s : Settings) : ∀ fs : List Field,
    Json.MembersWritable (Field.members s fs)
  | [] => trivial
  | f :: fs => by
      rw [Field.members_cons]
      split
      · exact membersWritable_members s fs
      · next h =>
        have hname : IsBareName f.name.toList := by cases f <;> decide
        exact ⟨hname, isWritable_json (by simpa using h), membersWritable_members s fs⟩

theorem isSection_of_mem {s : Settings} : ∀ m ∈ s.sections, IsSection m ∧ m.2 ≠ [] := by
  have hbare : ∀ name ∈ sectionNames, IsBareName name.toList := by decide
  have hnames : ∀ name ∈ sectionNames, ((Field.inSection name).map Field.name).Nodup := by decide
  have hfield : ∀ name ∈ sectionNames, ∃ f ∈ Field.inSection name, f ≠ .databasePath := by decide
  intro m hm
  rw [Settings.sections_eq] at hm
  obtain ⟨name, hname, rfl⟩ := List.mem_map.1 hm
  have hsub : ((Field.members s (Field.inSection name)).map Prod.fst).Sublist
      ((Field.inSection name).map Field.name) := by
    have := (List.filter_sublist (p := fun m : String × Json => !m.2.isNull)
      (l := (Field.inSection name).map fun f => (f.name, f.json s))).map Prod.fst
    simpa [Field.members, Function.comp_def] using this
  refine ⟨⟨hbare name hname, ?_⟩, ?_⟩
  · simp only [Json.IsWritable]
    exact ⟨hsub.nodup (hnames name hname), membersWritable_members s _⟩
  · obtain ⟨f, hf, hpath⟩ := hfield name hname
    refine List.ne_nil_of_mem (a := (f.name, f.json s)) (List.mem_filter.2 ⟨?_, ?_⟩)
    · exact List.mem_map.2 ⟨f, hf, rfl⟩
    · simp [isNull_json hpath]

theorem names_sections_nodup (s : Settings) : (s.sections.map Prod.fst).Nodup := by
  have hnames : sectionNames.Nodup := by decide
  rw [Settings.sections_eq]
  simpa [Function.comp_def] using hnames

/-! ## Visits -/

/-- The visits to the fields of a section copy them one by one. -/
theorem visit_members {s : Settings} {name : String} : ∀ {fs : List Field},
    (∀ f ∈ fs, f.sectionName = name) → ∀ {es : List (KeyPart × Value)},
    Value.jsonEntries es = Field.members s fs → ∀ r : Reading,
    (es.map fun (k, v) => Visit.ofField name k v).foldlM Reading.visit r =
      .ok { r with settings := fs.foldl s.copy r.settings }
  | [], _, es, hes, r => by
      obtain rfl := Value.eq_nil_of_jsonEntries hes
      rfl
  | f :: fs, hfs, es, hes, r => by
      have hrest : ∀ g ∈ fs, g.sectionName = name := fun g hg => hfs g (List.mem_cons_of_mem _ hg)
      rw [Field.members_cons] at hes
      cases hnull : (f.json s).isNull with
      | true =>
        rw [hnull, if_pos rfl] at hes
        rw [visit_members hrest hes r, List.foldl_cons, Settings.copy,
          Field.assignment?_of_isNull hnull]
        rfl
      | false =>
        rw [hnull, if_neg (by simp)] at hes
        obtain ⟨k, v, es, rfl, hk, hv, hes⟩ := Value.eq_cons_of_jsonEntries hes
        obtain ⟨a, ha, hread⟩ := Field.read_json hv hnull
        have hvisit : Visit.ofField name k v = .field f (name ++ "." ++ k.name) v := by
          have hfind := f.find?_name
          rw [hfs f List.mem_cons_self] at hfind
          simp only [Visit.ofField, hk, hfind]
        simp only [List.map_cons, List.foldlM_cons, hvisit, Reading.visit, hread]
        refine (visit_members hrest hes _).trans ?_
        rw [List.foldl_cons, Settings.copy, ha]
        rfl

theorem visit_sections {s : Settings} : ∀ {names : List String}, names ⊆ sectionNames →
    ∀ {es : List (KeyPart × Value)}, Value.jsonEntries es =
      sectionMembers (names.map fun name => (name, Field.members s (Field.inSection name))) →
    ∀ r : Reading, (es.flatMap fun (k, v) => Visit.ofEntry k v).foldlM Reading.visit r =
      .ok { r with settings := (names.flatMap Field.inSection).foldl s.copy r.settings }
  | [], _, es, hes, r => by
      obtain rfl := Value.eq_nil_of_jsonEntries hes
      rfl
  | name :: names, hnames, es, hes, r => by
      obtain ⟨k, v, es, rfl, hk, hv, hrest⟩ := Value.eq_cons_of_jsonEntries hes
      obtain ⟨l, fields, rfl, hfields⟩ := Value.eq_of_json_object hv
      have hname : k.name = name := hk
      have hknown : sectionNames.contains name = true :=
        List.contains_iff_mem.2 (hnames List.mem_cons_self)
      have hentry : Visit.ofEntry k (.table l fields) =
          fields.map fun (f, w) => Visit.ofField name f w := by
        simp only [Visit.ofEntry, hname, hknown, if_true, Value.table?]
      have hsection : ∀ f ∈ Field.inSection name, f.sectionName = name := by
        intro f hf
        simpa using (List.mem_filter.1 hf).2
      simp only [List.flatMap_cons, hentry, List.foldlM_append, visit_members hsection hfields r]
      refine (visit_sections (fun x hx => hnames (List.mem_cons_of_mem _ hx)) hrest _).trans ?_
      rw [List.foldl_append]

/-! ## The round trip -/

/-- The fields of the sections are all fields. -/
theorem flatMap_inSection : sectionNames.flatMap Field.inSection = Field.all := by decide

/-- Settings written in any of the spellings are read back as they were,
and no key is ignored. -/
theorem Reading.ofText_document (s : Settings) (w : Spelling) :
    Reading.ofText (s.document w) = .ok ⟨s, []⟩ := by
  obtain ⟨t, hparse, hentries⟩ := parse_sections isSection_of_mem (names_sections_nodup s) w
  rw [Settings.sections_eq] at hentries
  have hvisit := visit_sections (List.Subset.refl _) hentries Reading.standard
  rw [flatMap_inSection] at hvisit
  have hread : Reading.ofTable t = .ok ⟨s, []⟩ := by
    rw [Reading.ofTable, Visit.ofTable, hvisit, Reading.standard]
    simp only [Settings.foldl_copy_all]
  rw [Reading.ofText, Settings.document, hparse]
  simp only [hread]

end AuditSettings
