/-
AuditSettings.Proofs.Settings.ReadAtOrigin — what a tree says of the
settings, apart from where everything stands.

A field asks a value what it is and not where it is, and a key is known or
not known by its name. So a tree at the origin is visited in the same way,
entry by entry (`Visit.ofTable_atOrigin`), and has the same settings and
ignores the same names (`ofTable_atOrigin`). Only a diagnostic and the
locations of the ignored keys tell the two apart.
-/
import AuditSettings.Proofs.Toml.TreeAtOrigin
import AuditSettings.Settings.Reading

namespace AuditSettings

open AuditSettings.Policy AuditSettings.Text AuditSettings.Toml

/-! ## Values -/

namespace Toml.Value

@[simp] theorem string?_atOrigin (v : Value) : v.atOrigin.string? = v.string? := by
  cases v with
  | scalar l s => cases s <;> rfl
  | array l items => rfl
  | table l entries => rfl

@[simp] theorem boolean?_atOrigin (v : Value) : v.atOrigin.boolean? = v.boolean? := by
  cases v with
  | scalar l s => cases s <;> rfl
  | array l items => rfl
  | table l entries => rfl

@[simp] theorem items?_atOrigin (v : Value) :
    v.atOrigin.items? = v.items?.map itemsAtOrigin := by
  cases v <;> rfl

@[simp] theorem table?_atOrigin (v : Value) :
    v.atOrigin.table? = v.table?.map Table.atOrigin := by
  cases v <;> rfl

end Toml.Value

/-! ## What a field accepts -/

namespace Accept

theorem boolean_atOrigin (v : Value) :
    (boolean v.atOrigin).toOption = (boolean v).toOption := by
  rw [boolean, boolean, Value.boolean?_atOrigin]
  cases v.boolean? <;> rfl

theorem string_atOrigin (v : Value) : (string v.atOrigin).toOption = (string v).toOption := by
  rw [string, string, Value.string?_atOrigin]
  cases v.string? <;> rfl

theorem stringItems_atOrigin (vs : List Value) :
    (stringItems (Value.itemsAtOrigin vs)).toOption = (stringItems vs).toOption := by
  induction vs with
  | nil => rfl
  | cons v vs ih =>
    rw [Value.itemsAtOrigin, stringItems, stringItems, Value.string?_atOrigin]
    cases v.string? with
    | none => rfl
    | some s => simp only [toOption_map, ih]

theorem strings_atOrigin (v : Value) : (strings v.atOrigin).toOption = (strings v).toOption := by
  rw [strings, strings, Value.items?_atOrigin]
  cases v.items? with
  | none => rfl
  | some vs => exact stringItems_atOrigin vs

variable (α : Type) [Keyword α]

theorem keyword_atOrigin (v : Value) :
    (keyword α v.atOrigin).toOption = (keyword α v).toOption := by
  rw [keyword, keyword, Value.string?_atOrigin]
  cases v.string?.bind (Keyword.ofWord? (α := α)) <;> rfl

theorem keywordItems_atOrigin (vs : List Value) :
    (keywordItems α (Value.itemsAtOrigin vs)).toOption = (keywordItems α vs).toOption := by
  induction vs with
  | nil => rfl
  | cons v vs ih =>
    have hv : (keyword α v.atOrigin).toOption = (keyword α v).toOption.map id := by
      simpa using keyword_atOrigin α v
    rw [Value.itemsAtOrigin, keywordItems, keywordItems]
    rcases cases_of_toOption_eq hv with ⟨e, e', h, h'⟩ | ⟨a, h, h'⟩
    · rw [h, h']
      rfl
    · rw [h, h']
      simp only [toOption_map, ih, id]

theorem keywords_atOrigin (v : Value) :
    (keywords α v.atOrigin).toOption = (keywords α v).toOption := by
  rw [keywords, keywords, Value.items?_atOrigin]
  cases v.items? with
  | none => rfl
  | some vs => exact keywordItems_atOrigin α vs

end Accept

/-- A field makes the same of a value wherever that stands. -/
theorem Field.read_atOrigin (f : Field) (v : Value) :
    (f.read v.atOrigin).toOption = (f.read v).toOption := by
  cases f with
  | ignore | arch | os => simp only [read, toOption_map, Accept.strings_atOrigin]
  | informationalWarnings | deny => simp only [read, toOption_map, Accept.keywords_atOrigin]
  | severityThreshold | format => simp only [read, toOption_map, Accept.keyword_atOrigin]
  | databasePath | databaseUrl => simp only [read, toOption_map, Accept.string_atOrigin]
  | quiet | showTree | yankedEnabled | updateIndex | fetch | stale =>
    simp only [read, toOption_map, Accept.boolean_atOrigin]

/-! ## Visits -/

/-- The same key, of a text at the origin. -/
def IgnoredKey.atOrigin (k : IgnoredKey) : IgnoredKey := ⟨k.key, .origin⟩

namespace Visit

/-- The same visit, to a text at the origin. -/
def atOrigin : Visit → Visit
  | field f key v => field f key v.atOrigin
  | unknown k => unknown k.atOrigin
  | misfit key v => misfit key v.atOrigin

theorem ofField_atOrigin (inSection : String) (k : KeyPart) (v : Value) :
    ofField inSection k.atOrigin v.atOrigin = (ofField inSection k v).atOrigin := by
  rw [ofField, ofField, show k.atOrigin.name = k.name from rfl]
  cases Field.find? inSection k.name <;> rfl

theorem ofEntry_atOrigin (k : KeyPart) (v : Value) :
    ofEntry k.atOrigin v.atOrigin = (ofEntry k v).map atOrigin := by
  rw [ofEntry, ofEntry, show k.atOrigin.name = k.name from rfl]
  split
  · rw [Value.table?_atOrigin]
    cases v.table? with
    | none => rfl
    | some t =>
      simp [Table.atOrigin, Value.entriesAtOrigin_eq, Function.comp_def, ofField_atOrigin]
  · rfl

/-- A tree at the origin has the same visits in the same order. -/
theorem ofTable_atOrigin (t : Table) : ofTable t.atOrigin = (ofTable t).map atOrigin := by
  simp [ofTable, Table.atOrigin, Value.entriesAtOrigin_eq, List.flatMap_map, List.map_flatMap,
    ofEntry_atOrigin]

end Visit

/-! ## Readings -/

namespace Reading

/-- The same reading, of a text at the origin. -/
def atOrigin (r : Reading) : Reading := ⟨r.settings, r.ignored.map IgnoredKey.atOrigin⟩

theorem visit_atOrigin (r : Reading) (x : Visit) :
    (r.atOrigin.visit x.atOrigin).toOption = (r.visit x).toOption.map atOrigin := by
  cases x with
  | field f key v =>
    have hread : (f.read v.atOrigin).toOption = (f.read v).toOption.map id := by
      simpa using f.read_atOrigin v
    rw [Visit.atOrigin, visit, visit]
    rcases cases_of_toOption_eq hread with ⟨e, e', h, h'⟩ | ⟨a, h, h'⟩
    · rw [h, h']
      rfl
    · rw [h, h']
      rfl
  | unknown k =>
    rw [Visit.atOrigin, visit, visit]
    exact congrArg some (by simp [atOrigin])
  | misfit key v => rfl

theorem foldlM_visit_atOrigin (xs : List Visit) (r : Reading) :
    ((xs.map Visit.atOrigin).foldlM visit r.atOrigin).toOption =
      (xs.foldlM visit r).toOption.map atOrigin := by
  induction xs generalizing r with
  | nil => rfl
  | cons x xs ih =>
    rw [List.map_cons, List.foldlM_cons, List.foldlM_cons, toOption_bind, toOption_bind,
      visit_atOrigin]
    cases (r.visit x).toOption with
    | none => rfl
    | some mid => exact ih mid

/-- A tree at the origin has the same settings and ignores the same names. -/
theorem ofTable_atOrigin (t : Table) :
    (ofTable t.atOrigin).toOption = (ofTable t).toOption.map atOrigin := by
  rw [ofTable, ofTable, Visit.ofTable_atOrigin]
  exact foldlM_visit_atOrigin (Visit.ofTable t) standard

theorem ofTable_atOrigin_eq_ok_iff {t : Table} {s : Reading} :
    ofTable t.atOrigin = .ok s ↔ ∃ r, ofTable t = .ok r ∧ r.atOrigin = s := by
  rcases cases_of_toOption_eq (ofTable_atOrigin t) with ⟨e, e', h, h'⟩ | ⟨r, h, h'⟩
  · simp [h, h']
  · simp [h, h']

@[simp] theorem map_key_atOrigin (r : Reading) :
    r.atOrigin.ignored.map (·.key) = r.ignored.map (·.key) := by
  simp [atOrigin, IgnoredKey.atOrigin]

end Reading
end AuditSettings
