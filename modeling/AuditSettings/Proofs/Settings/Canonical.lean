/-
AuditSettings.Proofs.Settings.Canonical — sets are printed in one way.

Five fields hold sets. Of the array in a document only its strings matter,
not their order and not how often one is repeated: trees that differ in
nothing else are read alike (`Reading.ofTable_of_rearranged`). And the set
is printed in an order of its own, advisories and platforms by the bytes of
their names and words as their vocabulary lists them, with each string of
the array once and no others (`Reading.ofTable_canonical`).

The JSON text has all five sets, each as an array with an item on every line.
The summary has each on a line of its own, the items between commas. It shows
an empty set by a note and leaves out the section on platforms when it has
nothing to say.
-/
import AuditSettings.Proofs.Settings.FirstOffence
import AuditSettings.Proofs.Text.ByteOrder
import AuditSettings.Report.Json
import AuditSettings.Report.Terminal
import Mathlib.Data.List.Sort

namespace AuditSettings

open AuditSettings.Text AuditSettings.Toml AuditSettings.Policy

/-! ## Strings of an array -/

/-- The words of a set that an array lists are the strings of the array. -/
theorem Toml.Value.Lists.mem_map_iff {α : Type} [Ord α] {g : α → String} {v : Value}
    {set : OrderedSet α} (h : v.Lists (fun i a => i.string? = some (g a)) set) (s : String) :
    s ∈ set.members.map g ↔ s ∈ v.strings := by
  rw [List.mem_map]
  constructor
  · rintro ⟨a, ha, rfl⟩
    exact (h.mem_iff a).1 ha
  · intro hs
    obtain ⟨items, hitems, hall, hmem⟩ := h
    rw [strings, hitems, Option.getD_some] at hs
    obtain ⟨i, hi, hstring⟩ := List.mem_filterMap.1 hs
    obtain ⟨a, ha⟩ := hall i hi
    exact ⟨a, (hmem a).2 ⟨i, hi, ha⟩, Option.some.inj (ha.symm.trans hstring)⟩

/-- Arrays with the same strings list the same set. -/
theorem Toml.Value.Lists.eq_of_strings {α : Type} [Ord α] [Std.LawfulEqOrd α] [Std.TransOrd α]
    {g : α → String} {v w : Value} {set set' : OrderedSet α}
    (h : v.Lists (fun i a => i.string? = some (g a)) set)
    (h' : w.Lists (fun i a => i.string? = some (g a)) set')
    (hsame : ∀ s, s ∈ v.strings ↔ s ∈ w.strings) : set = set' :=
  OrderedSet.ext fun a => (h.mem_iff a).trans ((hsame _).trans (h'.mem_iff a).symm)

namespace Field

/-- The fields that hold sets. -/
def sets : List Field := [ignore, informationalWarnings, deny, arch, os]

/-- Arrays with the same strings mean the same set. -/
theorem Means.eq_of_strings {f : Field} (hf : f ∈ sets) {v w : Value} {c c' : f.Content}
    (h : f.Means v c) (h' : f.Means w c') (hsame : ∀ s, s ∈ v.strings ↔ s ∈ w.strings) :
    c = c' := by
  simp only [sets, List.mem_cons, List.not_mem_nil, or_false] at hf
  rcases hf with rfl | rfl | rfl | rfl | rfl
  · exact Value.Lists.eq_of_strings (g := fun s => s) h h' hsame
  · exact Value.Lists.eq_of_strings (α := Category) (g := Keyword.word) h h' hsame
  · exact Value.Lists.eq_of_strings (α := Denial) (g := Keyword.word) h h' hsame
  · exact Value.Lists.eq_of_strings (g := fun s => s) h h' hsame
  · exact Value.Lists.eq_of_strings (g := fun s => s) h h' hsame

end Field

/-! ## Trees that differ in the items of arrays -/

/-- An entry of a section with the items of its array, if its field holds a
set, in any order and number. -/
def Toml.FieldRearranged (inSection : String) (e e' : KeyPart × Value) : Prop :=
  e.1 = e'.1 ∧ (e.2 = e'.2 ∨ ∃ f ∈ Field.sets, Field.find? inSection e.1.name = some f ∧
    f.expectation.Met e.2 ∧ f.expectation.Met e'.2 ∧ ∀ s, s ∈ e.2.strings ↔ s ∈ e'.2.strings)

/-- An entry of the root with such fields. -/
def Toml.SectionRearranged (e e' : KeyPart × Value) : Prop :=
  e.1 = e'.1 ∧ (e.2 = e'.2 ∨ ∃ l l' fields fields', e.2 = .table l fields ∧
    e'.2 = .table l' fields' ∧ List.Forall₂ (FieldRearranged e.1.name) fields fields')

/-- A tree with the items of the arrays that stand for sets in any order and
number. -/
def Toml.Table.ItemsRearranged (t t' : Table) : Prop :=
  List.Forall₂ SectionRearranged t.entries t'.entries

/-- Visits that do the same to every reading. -/
def Visit.Alike (x y : Visit) : Prop := ∀ r : Reading, r.visit x = r.visit y

/-- Arrays with the same strings are read alike. -/
theorem Visit.alike_field {f : Field} (hf : f ∈ Field.sets) {key : String} {v w : Value}
    (hv : f.expectation.Met v) (hw : f.expectation.Met w)
    (hsame : ∀ s, s ∈ v.strings ↔ s ∈ w.strings) : (field f key v).Alike (field f key w) := by
  obtain ⟨a, ha⟩ := Field.read_isOk_iff.2 hv
  obtain ⟨b, hb⟩ := Field.read_isOk_iff.2 hw
  intro r
  have hassign : r.settings.assign a = r.settings.assign b := by
    refine Field.settings_ext fun g => ?_
    by_cases hg : g = f
    · subst hg
      exact (Field.means_of_read ha _).eq_of_strings hf (Field.means_of_read hb _) hsame
    · rw [Field.content_of_read ha _ hg, Field.content_of_read hb _ hg]
  rw [Reading.visit, Reading.visit, ha, hb]
  exact congrArg (fun s => Except.ok { r with settings := s }) hassign

theorem Visit.alike_ofField {s : String} {e e' : KeyPart × Value} (h : FieldRearranged s e e') :
    (ofField s e.1 e.2).Alike (ofField s e'.1 e'.2) := by
  obtain ⟨hkey, hvalue | ⟨f, hf, hfind, hmet, hmet', hsame⟩⟩ := h
  · rw [hkey, hvalue]
    exact fun _ => rfl
  · rw [← hkey, ofField, ofField, hfind]
    exact alike_field hf hmet hmet' hsame

theorem Visit.alike_ofEntry {e e' : KeyPart × Value} (h : SectionRearranged e e') :
    List.Forall₂ Alike (ofEntry e.1 e.2) (ofEntry e'.1 e'.2) := by
  obtain ⟨hkey, hvalue | ⟨l, l', fields, fields', hvalue, hvalue', hfields⟩⟩ := h
  · rw [hkey, hvalue]
    exact List.forall₂_same.2 fun _ _ _ => rfl
  · by_cases hsection : e.1.name ∈ sectionNames
    · have hu : e.2.table? = some ⟨fields⟩ := by rw [hvalue, Value.table?]
      have hu' : e'.2.table? = some ⟨fields'⟩ := by rw [hvalue', Value.table?]
      rw [ofEntry_section hsection hu, ofEntry_section (hkey ▸ hsection) hu', ← hkey]
      simp only [List.forall₂_map_left_iff, List.forall₂_map_right_iff]
      exact hfields.imp fun _ _ => alike_ofField
    · rw [ofEntry_unknown hsection, ofEntry_unknown (hkey ▸ hsection), ← hkey]
      exact .cons (fun _ => rfl) .nil

theorem Visit.alike_ofTable {t t' : Table} (h : t.ItemsRearranged t') :
    List.Forall₂ Alike (ofTable t) (ofTable t') := by
  obtain ⟨entries⟩ := t
  obtain ⟨entries'⟩ := t'
  dsimp only [Table.ItemsRearranged] at h
  dsimp only [ofTable]
  induction h with
  | nil => exact .nil
  | cons he _ ih =>
    rw [List.flatMap_cons, List.flatMap_cons]
    exact List.rel_append (alike_ofEntry he) ih

theorem Visit.foldlM_of_alike {xs ys : List Visit} (h : List.Forall₂ Alike xs ys) (r : Reading) :
    xs.foldlM Reading.visit r = ys.foldlM Reading.visit r := by
  induction h generalizing r with
  | nil => rfl
  | cons hx _ ih =>
    rw [List.foldlM_cons, List.foldlM_cons, hx r]
    exact congrArg _ (funext ih)

/-- A tree with rearranged items is read alike: to the same settings and
ignored keys, or to the same fault. -/
theorem Reading.ofTable_of_rearranged {t t' : Table} (h : t.ItemsRearranged t') :
    ofTable t' = ofTable t :=
  (Visit.foldlM_of_alike (Visit.alike_ofTable h) standard).symm

/-! ## The order of a set -/

namespace Field

/-- The order in which the set of a field is printed: that of the vocabulary
for words, and that of the bytes for other strings. -/
def Before (f : Field) (a b : String) : Prop :=
  match f.expectation with
  | .keywords words => words.idxOf a < words.idxOf b
  | _ => Utf8.encode a.toList < Utf8.encode b.toList

instance (f : Field) : Std.Asymm f.Before where
  asymm a b h h' := by
    unfold Before at h h'
    generalize f.expectation = asked at h h'
    cases asked with
    | keywords words => exact Nat.lt_asymm h h'
    | _ => exact List.lt_asymm h h'

/-- Only one row of strings is in this order and has these members. -/
theorem eq_of_pairwise_before {f : Field} {xs ys : List String} (hx : xs.Pairwise f.Before)
    (hy : ys.Pairwise f.Before) (h : ∀ s, s ∈ xs ↔ s ∈ ys) : xs = ys :=
  hx.eq_of_mem_iff hy h

/-- The strings of the set that some settings have for a field. -/
def shown (s : Settings) : Field → List String
  | ignore => s.advisories.ignore.members
  | informationalWarnings => Report.wordsOf s.advisories.informationalWarnings
  | deny => Report.wordsOf s.output.deny
  | arch => s.target.arch.members
  | os => s.target.os.members
  | _ => []

theorem idxOf_lt_of_compare_category {a b : Category} (h : compare a b = .lt) :
    (Keyword.words Category).idxOf (Keyword.word a) <
      (Keyword.words Category).idxOf (Keyword.word b) := by
  revert h
  cases a <;> cases b <;> decide

theorem idxOf_lt_of_compare_denial {a b : Denial} (h : compare a b = .lt) :
    (Keyword.words Denial).idxOf (Keyword.word a) <
      (Keyword.words Denial).idxOf (Keyword.word b) := by
  revert h
  cases a <;> cases b <;> decide

/-- A set is shown in its order. -/
theorem pairwise_shown {f : Field} (hf : f ∈ sets) (s : Settings) :
    (f.shown s).Pairwise f.Before := by
  simp only [sets, List.mem_cons, List.not_mem_nil, or_false] at hf
  rcases hf with rfl | rfl | rfl | rfl | rfl
  · exact s.advisories.ignore.increasing.imp Utf8.encode_lt_of_compare
  · exact List.pairwise_map.2
      (s.advisories.informationalWarnings.increasing.imp idxOf_lt_of_compare_category)
  · exact List.pairwise_map.2 (s.output.deny.increasing.imp idxOf_lt_of_compare_denial)
  · exact s.target.arch.increasing.imp Utf8.encode_lt_of_compare
  · exact s.target.os.increasing.imp Utf8.encode_lt_of_compare

/-- What is shown of a set are the strings of its array. -/
theorem mem_shown_iff {f : Field} (hf : f ∈ sets) {v : Value} {s : Settings}
    (h : f.Means v (content s f)) (x : String) : x ∈ f.shown s ↔ x ∈ v.strings := by
  simp only [sets, List.mem_cons, List.not_mem_nil, or_false] at hf
  rcases hf with rfl | rfl | rfl | rfl | rfl
  · exact Value.Lists.mem_iff (g := fun s => s) h x
  · exact Value.Lists.mem_map_iff (α := Category) (g := Keyword.word) h x
  · exact Value.Lists.mem_map_iff (α := Denial) (g := Keyword.word) h x
  · exact Value.Lists.mem_iff (g := fun s => s) h x
  · exact Value.Lists.mem_iff (g := fun s => s) h x

end Field

/-! ## The JSON text -/

namespace Json

/-- The value of a member of an object. -/
def member? (name : String) : Json → Option Json
  | object members => members.lookup name
  | _ => none

/-- The text of a member, the value of which stands at a depth. -/
def memberText (depth : Nat) (name : String) (v : Json) : List Char :=
  stringText name ++ ':' :: ' ' :: text depth v

theorem infix_memberText (depth : Nat) (name : String) (v : Json) :
    text depth v <:+: memberText depth name v :=
  ⟨stringText name ++ [':', ' '], [], by simp [memberText]⟩

theorem infix_membersText {name : String} {v : Json} {members : List (String × Json)}
    (h : (name, v) ∈ members) (depth : Nat) :
    memberText depth name v <:+: membersText depth members := by
  induction members with
  | nil => cases h
  | cons m members ih =>
    obtain ⟨k, w⟩ := m
    rw [membersText]
    rcases List.mem_cons.1 h with hm | hm
    · cases hm
      exact ⟨',' :: newline depth, membersText depth members, by simp [memberText]⟩
    · exact (ih hm).trans (List.suffix_append _ _).isInfix

/-- The text of an object has that of each of its members. -/
theorem infix_text {name : String} {v : Json} {members : List (String × Json)}
    (h : (name, v) ∈ members) (depth : Nat) :
    memberText (depth + 1) name v <:+: text depth (object members) := by
  cases members with
  | nil => cases h
  | cons m members =>
    obtain ⟨k, w⟩ := m
    rw [text]
    rcases List.mem_cons.1 h with hm | hm
    · cases hm
      exact ⟨'\x7b' :: newline (depth + 1),
        membersText (depth + 1) members ++ newline depth ++ ['\x7d'], by simp [memberText]⟩
    · exact (infix_membersText hm (depth + 1)).trans
        ⟨'\x7b' :: newline (depth + 1) ++ memberText (depth + 1) k w, newline depth ++ ['\x7d'],
          by simp [memberText]⟩

/-- Strings in an array are written with a comma and a line break between
them. -/
theorem itemsText_strings (depth : Nat) (s : String) (ss : List String) :
    stringText s ++ itemsText depth (ss.map .string) =
      (',' :: newline depth).intercalate ((s :: ss).map stringText) := by
  induction ss generalizing s with
  | nil => simp [itemsText]
  | cons s' ss ih =>
    rw [List.map_cons, itemsText, text, List.append_assoc, ih, List.map_cons, List.map_cons,
      List.map_cons, List.intercalate_cons_cons, List.append_assoc]

/-- An array of strings as the value of a setting has each of them on a line. -/
theorem text_strings (items : List String) : text 2 (strings items) =
    (if items = [] then "[]" else "[\n      " ++ ",\n      ".intercalate
      (items.map fun s => String.ofList (stringText s)) ++ "\n    ]").toList := by
  cases items with
  | nil =>
    rw [strings, List.map_nil, text]
    rfl
  | cons s ss =>
    have hitems : ((s :: ss).map fun s => String.ofList (stringText s)).map String.toList =
        (s :: ss).map stringText := by
      simp [Function.comp_def]
    have hopen : "[\n      ".toList = '[' :: newline 3 := by decide
    have hcomma : ",\n      ".toList = ',' :: newline 3 := by decide
    have hclose : "\n    ]".toList = newline 2 ++ [']'] := by decide
    rw [if_neg (by simp), strings, List.map_cons, text, text, String.toList_append,
      String.toList_append, String.toList_intercalate, hitems, List.append_assoc ('[' :: _),
      itemsText_strings, hopen, hcomma, hclose, List.append_assoc]

theorem mem_of_member? {name : String} {v w : Json} (h : v.member? name = some w) :
    ∃ members, v = object members ∧ (name, w) ∈ members := by
  cases v with
  | object members =>
    obtain ⟨before, after, rfl, -⟩ := List.lookup_eq_some_iff.1 h
    exact ⟨_, rfl, by simp⟩
  | _ => cases h

end Json

/-- The JSON object has the value of a field under its section and name. -/
theorem Field.member?_json (f : Field) (s : Settings) :
    (s.json.member? f.sectionName).bind (Json.member? f.name) = some (f.json s) := by
  cases f <;> rfl

/-- The JSON of a set is an array of what is shown of it. -/
theorem Field.json_eq_strings {f : Field} (hf : f ∈ sets) (s : Settings) :
    f.json s = Json.strings (f.shown s) := by
  simp only [sets, List.mem_cons, List.not_mem_nil, or_false] at hf
  rcases hf with rfl | rfl | rfl | rfl | rfl <;> rfl

/-- The JSON text has the value of a field after its name. -/
theorem Field.infix_jsonText (f : Field) (s : Settings) :
    Json.memberText 2 f.name (f.json s) <:+: s.jsonText.toList := by
  obtain ⟨section', hsection, hfield⟩ := Option.bind_eq_some_iff.1 (f.member?_json s)
  obtain ⟨members, hs, hmem⟩ := Json.mem_of_member? hsection
  obtain ⟨members', rfl, hmem'⟩ := Json.mem_of_member? hfield
  rw [Settings.jsonText, String.toList_ofList, hs]
  have hinside := Json.infix_memberText 1 f.sectionName (.object members')
  exact (Json.infix_text hmem' 1).trans (hinside.trans (Json.infix_text hmem 0))

/-- The JSON text has each set with its name in front. -/
theorem Field.infix_jsonText_of_sets {f : Field} (hf : f ∈ sets) (s : Settings) :
    ("\"" ++ f.name ++ "\": " ++ if f.shown s = [] then "[]" else "[\n      " ++
      ",\n      ".intercalate ((f.shown s).map fun x => String.ofList (Json.stringText x)) ++
        "\n    ]").toList <:+: s.jsonText.toList := by
  have hname : Json.stringText f.name ++ [':', ' '] = ("\"" ++ f.name ++ "\": ").toList := by
    cases f <;> decide
  have htext := f.infix_jsonText s
  rwa [f.json_eq_strings hf, Json.memberText, Json.text_strings, ← List.singleton_append,
    ← List.singleton_append (x := ' '), ← List.append_assoc [':'], ← List.append_assoc,
    List.singleton_append, hname, ← String.toList_append] at htext

/-! ## The summary -/

/-- The name of a field in the summary. -/
def Field.label : Field → String
  | ignore => "Ignore"
  | informationalWarnings => "Informational warnings"
  | severityThreshold => "Severity threshold"
  | deny => "Deny"
  | format => "Format"
  | quiet => "Quiet"
  | showTree => "Show tree"
  | yankedEnabled => "Enabled"
  | updateIndex => "Update index"
  | databasePath => "Path"
  | databaseUrl => "URL"
  | fetch => "Fetch"
  | stale => "Stale"
  | arch => "Arch"
  | os => "OS"

/-- The line that the summary has for a set. -/
def Field.line (s : Settings) (f : Field) : String :=
  Report.bullet f.label (Report.row (f.shown s))

theorem Field.line_eq (s : Settings) (f : Field) : f.line s =
    "* " ++ f.label ++ ": " ++ if f.shown s = [] then "(none)" else ", ".intercalate (f.shown s) := by
  simp only [line, Report.bullet, Report.row, List.isEmpty_iff]

/-- Whether a text has a line as a whole, after another one. -/
def Report.HasLine (text line : String) : Prop :=
  ∃ before after, text = before ++ "\n" ++ line ++ "\n" ++ after

theorem Report.hasLine_unlines {before : List String} (hne : before ≠ []) (line : String)
    (after : List String) : HasLine (unlines (before ++ line :: after)) line := by
  refine ⟨unlines before.dropLast ++ before.getLast hne, unlines after, ?_⟩
  conv_lhs => rw [← List.dropLast_concat_getLast hne]
  simp [unlines, String.append_assoc]

/-- The summary has a line for every set outside of the section on
platforms, and for the sets in it if one of them has a member. -/
theorem Report.hasLine {f : Field} (hf : f ∈ Field.sets) (l : Loaded)
    (h : f.sectionName = "target" →
      ¬ (l.settings.target.arch.members = [] ∧ l.settings.target.os.members = [])) :
    HasLine (summary l) (f.line l.settings) := by
  suffices hlines : ∃ before after, before ≠ [] ∧
      summary l = unlines (before ++ f.line l.settings :: after) by
    obtain ⟨before, after, hne, hlines⟩ := hlines
    rw [hlines]
    exact hasLine_unlines hne _ after
  simp only [Field.sets, List.mem_cons, List.not_mem_nil, or_false] at hf
  have htarget (hne : ¬ (l.settings.target.arch.members = [] ∧
      l.settings.target.os.members = [])) : targetLines l.settings.target =
        ["", "# Target", Field.arch.line l.settings, Field.os.line l.settings] := by
    rw [targetLines, if_neg (by simpa using hne)]
    rfl
  rcases hf with rfl | rfl | rfl | rfl | rfl
  · exact ⟨[sourceLine l, "", "# Advisories"], _, by simp, rfl⟩
  · exact ⟨[sourceLine l, "", "# Advisories", Field.ignore.line l.settings], _, by simp, rfl⟩
  · exact ⟨sourceLine l :: advisoriesLines l.settings.advisories ++ ["", "# Output"], _, by simp,
      rfl⟩
  · rw [summary, htarget (h rfl)]
    exact ⟨sourceLine l :: advisoriesLines l.settings.advisories ++
      outputLines l.settings.output ++ yankedLines l.settings.yanked ++
      databaseLines l.settings.database ++ ["", "# Target"],
      [Field.os.line l.settings] ++ ignoredLines l.ignored, by simp, by simp⟩
  · rw [summary, htarget (h rfl)]
    exact ⟨sourceLine l :: advisoriesLines l.settings.advisories ++
      outputLines l.settings.output ++ yankedLines l.settings.yanked ++
      databaseLines l.settings.database ++ ["", "# Target", Field.arch.line l.settings],
      ignoredLines l.ignored, by simp, by simp⟩

/-- The summary without the section on platforms. -/
def Report.summaryWithoutTarget (l : Loaded) : String :=
  unlines (sourceLine l :: advisoriesLines l.settings.advisories ++
    outputLines l.settings.output ++ yankedLines l.settings.yanked ++
    databaseLines l.settings.database ++ ignoredLines l.ignored)

theorem Report.summary_eq_withoutTarget {l : Loaded} (harch : l.settings.target.arch.members = [])
    (hos : l.settings.target.os.members = []) : summary l = summaryWithoutTarget l := by
  rw [summary, targetLines, harch, hos]
  simp [summaryWithoutTarget]

/-! ## What is printed of a tree -/

/-- Of the arrays that stand for sets a tree says no more than which strings
are in them. Each set that it gives is printed in its order, without
repetition, and with the strings of its array: in the JSON text with an item
on every line, and in the summary on one line of its own with the items
between commas, or a note that there are none. Only the section on platforms
is left out of the summary, when both sets in it are empty. -/
theorem Reading.ofTable_canonical {t : Table} (h : t.KeysUnique) :
    (∀ t', t.ItemsRearranged t' → ofTable t' = ofTable t) ∧
    ∀ r, ofTable t = .ok r → ∀ f ∈ Field.sets, ∃ items : List String,
      items.Pairwise f.Before ∧
      (∀ v, f.value? t = some v → ∀ s, s ∈ items ↔ s ∈ v.strings) ∧
      (r.settings.json.member? f.sectionName).bind (Json.member? f.name) =
        some (Json.strings items) ∧
      ("\"" ++ f.name ++ "\": " ++ if items = [] then "[]" else "[\n      " ++
        ",\n      ".intercalate (items.map fun s => String.ofList (Json.stringText s)) ++
          "\n    ]").toList <:+: r.settings.jsonText.toList ∧
      ∀ l : Loaded, l.settings = r.settings →
        if f.sectionName = "target" ∧ r.settings.target.arch.members = [] ∧
            r.settings.target.os.members = [] then
          Report.summary l = Report.summaryWithoutTarget l
        else Report.HasLine (Report.summary l)
          ("* " ++ f.label ++ ": " ++ if items = [] then "(none)" else ", ".intercalate items) := by
  refine ⟨fun t' ht => ofTable_of_rearranged ht, fun r hr f hf => ⟨f.shown r.settings,
    Field.pairwise_shown hf _, fun v hv s => ?_, ?_, f.infix_jsonText_of_sets hf _,
    fun l hl => ?_⟩⟩
  · have htold := told_of_visits h (.refl _) hr f
    rw [Field.Told, hv] at htold
    exact Field.mem_shown_iff hf htold s
  · rw [f.member?_json, Field.json_eq_strings hf]
  · rw [← hl, ← Field.line_eq]
    split
    · next hempty => exact Report.summary_eq_withoutTarget hempty.2.1 hempty.2.2
    · next hsome => exact Report.hasLine hf l fun hsection hboth => hsome ⟨hsection, hboth⟩

/-- Three names of processors, one of them twice. -/
def Toml.Table.archRepeated : Table where
  entries :=
    [(⟨"target", .origin⟩, .table .origin [(⟨"arch", .origin⟩, .array .origin
      [.scalar .origin (.string "x86_64"), .scalar .origin (.string "é"),
        .scalar .origin (.string "arm"), .scalar .origin (.string "x86_64")])])]

/-- The same names once. -/
def Toml.Table.archOnce : Table where
  entries :=
    [(⟨"target", .origin⟩, .table .origin [(⟨"arch", .origin⟩, .array .origin
      [.scalar .origin (.string "é"), .scalar .origin (.string "x86_64"),
        .scalar .origin (.string "arm")])])]

/-- They are printed once each, the one that is not of ASCII letters last. -/
theorem Reading.ofTable_canonical_archRepeated :
    Table.archRepeated.KeysUnique ∧ Table.archRepeated.ItemsRearranged Table.archOnce ∧
    ofTable Table.archOnce = ofTable Table.archRepeated ∧
    ∃ r, ofTable Table.archRepeated = .ok r ∧
      "\"arch\": [\n      \"arm\",\n      \"x86_64\",\n      \"é\"\n    ]".toList <:+:
        r.settings.jsonText.toList ∧
      Report.HasLine (Report.summary (.ofReading .explicit "audit.toml" r))
        "* Arch: arm, x86_64, é" := by
  have hunique : Table.archRepeated.KeysUnique := by
    unfold Table.KeysUnique
    decide
  have hrearranged : Table.archRepeated.ItemsRearranged Table.archOnce := by
    refine .cons ⟨rfl, .inr ⟨.origin, .origin, _, _, rfl, rfl, .cons ⟨rfl, .inr ⟨.arch, by decide,
      rfl, ?_, ?_, ?_⟩⟩ .nil⟩⟩ .nil
    · exact ⟨_, rfl, by simp [Value.string?]⟩
    · exact ⟨_, rfl, by simp [Value.string?]⟩
    · intro s
      simp only [Value.strings, Value.items?, Option.getD_some, List.filterMap_cons, Value.string?,
        List.filterMap_nil, List.mem_cons, List.not_mem_nil, or_false]
      tauto
  obtain ⟨hsame, hprinted⟩ := ofTable_canonical hunique
  obtain ⟨r, hr⟩ := exists_of_isOk (x := ofTable Table.archRepeated) (by decide +kernel)
  have harch := of_all (fun r => decide (r.settings.target.arch.members ≠ [])) hr
    (by decide +kernel)
  obtain ⟨items, horder, hmem, -, htext, hline⟩ := hprinted r hr .arch (by decide)
  have hline := hline (.ofReading .explicit "audit.toml" r) rfl
  rw [if_neg fun h => of_decide_eq_true harch h.2.1] at hline
  have hordered : ["arm", "x86_64", "é"].Pairwise
      fun a b => Utf8.encode a.toList < Utf8.encode b.toList := by decide +kernel
  obtain rfl : items = ["arm", "x86_64", "é"] := by
    refine Field.eq_of_pairwise_before horder hordered fun s => ?_
    rw [hmem _ rfl s]
    simp only [Value.strings, Value.items?, Option.getD_some, List.filterMap_cons, Value.string?,
      List.filterMap_nil, List.mem_cons, List.not_mem_nil, or_false]
    tauto
  exact ⟨hunique, hrearranged, hsame _ hrearranged, r, hr, htext, hline⟩

/-- The summary of an empty document has no line for the processors. -/
theorem Report.summary_lacks_arch :
    Table.empty.KeysUnique ∧ Reading.ofTable Table.empty = .ok .standard ∧
    Loaded.standard.settings = Reading.standard.settings ∧
    ¬ "* Arch: ".toList <:+: (summary .standard).toList := by
  refine ⟨?_, rfl, rfl, ?_⟩
  · unfold Table.KeysUnique
    decide
  · rw [summary, toList_unlines]
    decide +kernel

end AuditSettings
