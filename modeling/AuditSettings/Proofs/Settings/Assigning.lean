/-
AuditSettings.Proofs.Settings.Assigning — what each field says of some
settings, and that it is read back.

For some settings `Field.json` is the member that their JSON object has
for a field, and `Field.assignment?` what gives the field the value that
it has in them. `read_json` says that a field reads a value of that form
as that assignment, through the five ways there are to accept a value. All
assignments together leave nothing over of the settings they are made in
(`foldl_copy_all`), for a set is replaced by the set of its own members.
-/
import AuditSettings.Proofs.Settings.Shown
import AuditSettings.Proofs.Settings.Spelling
import AuditSettings.Settings.Field

namespace AuditSettings

open AuditSettings.Text AuditSettings.Toml AuditSettings.Policy

/-! ## What a field accepts -/

namespace Toml.Value

theorem eq_of_json_boolean {v : Value} {b : Bool} (h : v.json = .boolean b) :
    ∃ l, v = .scalar l (.boolean b) := by
  cases v with
  | scalar l s => cases s <;> simp_all [json]
  | array l items => simp [json] at h
  | table l entries => simp [json] at h

theorem eq_of_json_string {v : Value} {s : String} (h : v.json = .string s) :
    ∃ l, v = .scalar l (.string s) := by
  cases v with
  | scalar l s => cases s <;> simp_all [json]
  | array l items => simp [json] at h
  | table l entries => simp [json] at h

theorem eq_of_json_array {v : Value} {js : List Json} (h : v.json = .array js) :
    ∃ l items, v = .array l items ∧ jsonItems items = js := by
  cases v with
  | scalar l s => cases s <;> simp [json] at h
  | array l items => exact ⟨l, items, rfl, by simpa [json] using h⟩
  | table l entries => simp [json] at h

theorem eq_of_json_object {v : Value} {ms : List (String × Json)} (h : v.json = .object ms) :
    ∃ l entries, v = .table l entries ∧ jsonEntries entries = ms := by
  cases v with
  | scalar l s => cases s <;> simp [json] at h
  | array l items => simp [json] at h
  | table l entries => exact ⟨l, entries, rfl, by simpa [json] using h⟩

theorem eq_cons_of_jsonEntries {es : List (KeyPart × Value)} {name : String} {j : Json}
    {ms : List (String × Json)} (h : jsonEntries es = (name, j) :: ms) :
    ∃ k v es', es = (k, v) :: es' ∧ k.name = name ∧ v.json = j ∧ jsonEntries es' = ms := by
  cases es with
  | nil => simp [jsonEntries] at h
  | cons e es =>
    simp only [jsonEntries, List.cons.injEq, Prod.mk.injEq] at h
    exact ⟨e.1, e.2, es, rfl, h.1.1, h.1.2, h.2⟩

theorem eq_nil_of_jsonEntries {es : List (KeyPart × Value)} (h : jsonEntries es = []) :
    es = [] := by
  cases es with
  | nil => rfl
  | cons e es => simp [jsonEntries] at h

end Toml.Value

namespace Accept

theorem boolean_eq {v : Value} {b : Bool} (h : v.json = .boolean b) : boolean v = .ok b := by
  obtain ⟨l, rfl⟩ := Value.eq_of_json_boolean h
  rfl

theorem string_eq {v : Value} {s : String} (h : v.json = .string s) : string v = .ok s := by
  obtain ⟨l, rfl⟩ := Value.eq_of_json_string h
  rfl

theorem stringItems_eq {names : List String} : ∀ {vs : List Value},
    Value.jsonItems vs = names.map .string → stringItems vs = .ok names := by
  induction names with
  | nil => intro vs h; cases vs <;> simp_all [Value.jsonItems, stringItems]
  | cons s names ih =>
    intro vs h
    cases vs with
    | nil => simp [Value.jsonItems] at h
    | cons v vs =>
      simp only [Value.jsonItems, List.map_cons, List.cons.injEq] at h
      obtain ⟨l, rfl⟩ := Value.eq_of_json_string h.1
      simp [stringItems, Value.string?, ih h.2, Except.map]

theorem strings_eq {v : Value} {names : List String} (h : v.json = Json.strings names) :
    strings v = .ok names := by
  obtain ⟨l, items, rfl, hitems⟩ := Value.eq_of_json_array h
  exact stringItems_eq hitems

variable {α : Type} [Keyword α]

theorem keyword_eq {v : Value} {a : α} (h : v.json = .string (Keyword.word a)) :
    keyword α v = .ok a := by
  obtain ⟨l, rfl⟩ := Value.eq_of_json_string h
  have hword : Keyword.ofWord? (Keyword.word a) = some a := Keyword.ofWord?_eq_some_iff.2 rfl
  simp [keyword, Value.string?, hword]

theorem keywordItems_eq {members : List α} : ∀ {vs : List Value},
    Value.jsonItems vs = (members.map Keyword.word).map .string →
    keywordItems α vs = .ok members := by
  induction members with
  | nil => intro vs h; cases vs <;> simp_all [Value.jsonItems, keywordItems]
  | cons a members ih =>
    intro vs h
    cases vs with
    | nil => simp [Value.jsonItems] at h
    | cons v vs =>
      simp only [Value.jsonItems, List.map_cons, List.cons.injEq] at h
      simp only [keywordItems, keyword_eq h.1, ih h.2, Except.map]

theorem keywords_eq [Ord α] {v : Value} {s : OrderedSet α} (h : v.json = Json.wordSet s) :
    keywords α v = .ok s.members := by
  obtain ⟨l, items, rfl, hitems⟩ := Value.eq_of_json_array h
  exact keywordItems_eq hitems

end Accept

/-! ## Fields -/

namespace Field

/-- What the JSON object of some settings has for a field. -/
def json (s : Settings) : Field → Json
  | ignore => Json.strings s.advisories.ignore.members
  | informationalWarnings => Json.wordSet s.advisories.informationalWarnings
  | severityThreshold => .string (Keyword.word s.advisories.severityThreshold)
  | deny => Json.wordSet s.output.deny
  | format => .string (Keyword.word s.output.format)
  | quiet => .boolean s.output.quiet
  | showTree => .boolean s.output.showTree
  | yankedEnabled => .boolean s.yanked.enabled
  | updateIndex => .boolean s.yanked.updateIndex
  | databasePath => s.database.path.elim .null .string
  | databaseUrl => .string s.database.url
  | fetch => .boolean s.database.fetch
  | stale => .boolean s.database.stale
  | arch => Json.strings s.target.arch.members
  | os => Json.strings s.target.os.members

/-- What gives a field the value that it has in some settings. A path that
is not there cannot be given. -/
def assignment? (s : Settings) : Field → Option Assignment
  | ignore => some (.ignore s.advisories.ignore.members)
  | informationalWarnings => some (.informationalWarnings s.advisories.informationalWarnings.members)
  | severityThreshold => some (.severityThreshold s.advisories.severityThreshold)
  | deny => some (.deny s.output.deny.members)
  | format => some (.format s.output.format)
  | quiet => some (.quiet s.output.quiet)
  | showTree => some (.showTree s.output.showTree)
  | yankedEnabled => some (.yankedEnabled s.yanked.enabled)
  | updateIndex => some (.updateIndex s.yanked.updateIndex)
  | databasePath => s.database.path.map .databasePath
  | databaseUrl => some (.databaseUrl s.database.url)
  | fetch => some (.fetch s.database.fetch)
  | stale => some (.stale s.database.stale)
  | arch => some (.arch s.target.arch.members)
  | os => some (.os s.target.os.members)

/-- A field reads the JSON of some settings as what gives it their value. -/
theorem read_json {s : Settings} {f : Field} {v : Value} (h : v.json = f.json s)
    (hnull : (f.json s).isNull = false) : ∃ a, f.assignment? s = some a ∧ f.read v = .ok a := by
  cases f with
  | databasePath =>
    cases hp : s.database.path with
    | none => simp [json, hp, Json.isNull] at hnull
    | some p =>
      refine ⟨.databasePath p, by simp [assignment?, hp], ?_⟩
      rw [json, hp] at h
      simp [read, Accept.string_eq h, Except.map]
  | ignore | arch | os => exact ⟨_, rfl, by simp only [read, Accept.strings_eq h, Except.map]⟩
  | informationalWarnings | deny =>
    exact ⟨_, rfl, by simp only [read, Accept.keywords_eq h, Except.map]⟩
  | severityThreshold | format =>
    exact ⟨_, rfl, by simp only [read, Accept.keyword_eq h, Except.map]⟩
  | databaseUrl => exact ⟨_, rfl, by simp only [read, Accept.string_eq h, Except.map]⟩
  | quiet | showTree | yankedEnabled | updateIndex | fetch | stale =>
    exact ⟨_, rfl, by simp only [read, Accept.boolean_eq h, Except.map]⟩

theorem assignment?_of_isNull {s : Settings} {f : Field} (h : (f.json s).isNull = true) :
    f.assignment? s = none := by
  cases f <;> simp_all [json, Json.isNull, Json.strings, Json.wordSet, assignment?]
  cases hp : s.database.path <;> simp_all

theorem find?_name (f : Field) : find? f.sectionName f.name = some f := by
  cases f <;> decide

/-- The fields of a section. -/
def inSection (name : String) : List Field := all.filter fun f => f.sectionName == name

/-- The members of a section of some settings. -/
def members (s : Settings) (fs : List Field) : List (String × Json) :=
  (fs.map fun f => (f.name, f.json s)).filter fun m => !m.2.isNull

end Field

theorem Settings.sections_eq (s : Settings) :
    s.sections = sectionNames.map fun name => (name, Field.members s (Field.inSection name)) := rfl

/-! ## Copying settings -/

theorem OrderedSet.ofList_members {α : Type} [Ord α] [Std.LawfulEqOrd α] [Std.TransOrd α]
    (s : OrderedSet α) : OrderedSet.ofList s.members = s :=
  OrderedSet.ext fun _ => OrderedSet.mem_ofList

/-- The settings `r` with a field as it is in the settings `s`. -/
def Settings.copy (s r : Settings) (f : Field) : Settings := (f.assignment? s).elim r r.assign

/-- Copying every field into the standard settings makes the settings that
the fields are copied from. -/
theorem Settings.foldl_copy_all (s : Settings) : Field.all.foldl s.copy .standard = s := by
  obtain ⟨⟨ig, iw, st⟩, ⟨de, fo, qu, sh⟩, ⟨en, up⟩, ⟨path, url, fe, sta⟩, ⟨ar, os⟩⟩ := s
  cases path <;>
    simp [Field.all, copy, Field.assignment?, assign, OrderedSet.ofList_members, standard,
      Database.standard]

end AuditSettings
