/-
AuditSettings.Proofs.Settings.Descriptions — a description tells the value.

What a diagnostic shows of a value begins with a quote or with the name of the
type, and no two of these begin with the same character, so the type can be
read off the first one (`typeName_eq_of_describe`). Behind it a string, a truth
value or a whole number is written so that no other is written like it. What a
failure says it found therefore tells the string that was refused
(`descriptions_tell`). Of an array or a table only the type is shown.
-/
import AuditSettings.Proofs.Settings.FirstOffence
import AuditSettings.Proofs.Text.Quoting
import AuditSettings.Proofs.Toml.Numerals

namespace AuditSettings

open AuditSettings.Text AuditSettings.Toml

namespace Toml.Value

variable {v w : Value} {s : String} {b : Bool} {n : Int}

/-- The whole number that a value is, if it is one. -/
def integer? : Value → Option Int
  | scalar _ (.integer n) => some n
  | _ => none

/-- Whether two values agree in what a diagnostic shows of a value. -/
structure ShownAlike (v w : Value) : Prop where
  typeName : v.typeName = w.typeName
  string : v.string? = w.string?
  boolean : v.boolean? = w.boolean?
  integer : v.integer? = w.integer?

/-! ## The type -/

/-- The name of the type whose descriptions begin with a character. -/
def typeOfInitial : Char → String
  | '"' => "string"
  | 'b' => "boolean"
  | 'i' => "integer"
  | 'f' => "float"
  | 'd' => "datetime"
  | 'a' => "array"
  | _ => "table"

/-- The type of a value is told by the first character of its description. -/
theorem typeName_eq_of_describe (v : Value) :
    (v.describe.toList.head?).map typeOfInitial = some v.typeName := by
  have hplain : ∀ name ∈ ["datetime", "array", "table"],
      (name.toList.head?).map typeOfInitial = some name := by decide
  cases v with
  | scalar l t =>
    cases t with
    | string s =>
      rw [describe, quoted, String.toList_ofList]
      rfl
    | boolean b =>
      change (("boolean " ++ toString b).toList.head?).map typeOfInitial = some "boolean"
      rw [String.toList_append]
      rfl
    | integer n =>
      change (("integer " ++ toString n).toList.head?).map typeOfInitial = some "integer"
      rw [String.toList_append]
      rfl
    | float x =>
      change (("float " ++ x.text).toList.head?).map typeOfInitial = some "float"
      rw [String.toList_append]
      rfl
    | datetime => exact hplain "datetime" (by decide)
  | array l items => exact hplain "array" (by decide)
  | table l entries => exact hplain "table" (by decide)

/-- Values with one description are of one type. -/
theorem typeName_eq (h : v.describe = w.describe) : v.typeName = w.typeName := by
  have htype : some v.typeName = some w.typeName := by
    rw [← typeName_eq_of_describe v, h, typeName_eq_of_describe w]
  exact Option.some.inj htype

/-! ## What stands behind it -/

theorem typeName_eq_string_iff : v.typeName = "string" ↔ ∃ l s, v = scalar l (.string s) := by
  rcases v with ⟨l, _ | _ | _ | _ | _⟩ | _ | _ <;> simp [typeName]

theorem typeName_eq_boolean_iff : v.typeName = "boolean" ↔ ∃ l b, v = scalar l (.boolean b) := by
  rcases v with ⟨l, _ | _ | _ | _ | _⟩ | _ | _ <;> simp [typeName]

theorem typeName_eq_integer_iff : v.typeName = "integer" ↔ ∃ l n, v = scalar l (.integer n) := by
  rcases v with ⟨l, _ | _ | _ | _ | _⟩ | _ | _ <;> simp [typeName]

/-- Only a string is described between quotes, and only as itself. -/
theorem describe_eq_quoted_iff : v.describe = quoted s ↔ v.string? = some s := by
  constructor
  · -- quoting tells strings apart only, so the type comes first
    intro h
    have htype : v.typeName = "string" := typeName_eq (w := scalar ⟨1, 1⟩ (.string s)) h
    obtain ⟨l, s', rfl⟩ := typeName_eq_string_iff.1 htype
    exact congrArg some (quoted_injective h)
  · rcases v with ⟨l, _ | _ | _ | _ | _⟩ | _ | _ <;> rintro ⟨⟩
    rfl

/-- Only a truth value is described as one, and no other one is described so. -/
theorem describe_eq_boolean_iff : v.describe = s!"boolean {b}" ↔ v.boolean? = some b := by
  constructor
  · intro h
    have htype : v.typeName = "boolean" := typeName_eq (w := scalar ⟨1, 1⟩ (.boolean b)) h
    obtain ⟨l, c, rfl⟩ := typeName_eq_boolean_iff.1 htype
    have hshown : ∀ b c : Bool, s!"boolean {c}" = s!"boolean {b}" → c = b := by decide
    exact congrArg some (hshown b c h)
  · rcases v with ⟨l, _ | _ | _ | _ | _⟩ | _ | _ <;> rintro ⟨⟩
    rfl

/-- Only a whole number is described as one, and no other one is described
so. -/
theorem describe_eq_integer_iff : v.describe = s!"integer {n}" ↔ v.integer? = some n := by
  constructor
  · intro h
    have htype : v.typeName = "integer" := typeName_eq (w := scalar ⟨1, 1⟩ (.integer n)) h
    obtain ⟨l, m, rfl⟩ := typeName_eq_integer_iff.1 htype
    have hdigits : (toString m).toList = (toString n).toList := by
      simpa [describe, ← String.toList_inj] using h
    exact congrArg some (by rw [← denoted_toString m, hdigits, denoted_toString])
  · rcases v with ⟨l, _ | _ | _ | _ | _⟩ | _ | _ <;> rintro ⟨⟩
    rfl

/-- Values with one description agree in all that is shown. -/
theorem shownAlike_of_describe (h : v.describe = w.describe) : v.ShownAlike w where
  typeName := typeName_eq h
  string := Option.ext fun s => by
    rw [← describe_eq_quoted_iff, h, describe_eq_quoted_iff]
  boolean := Option.ext fun b => by
    rw [← describe_eq_boolean_iff, h, describe_eq_boolean_iff]
  integer := Option.ext fun n => by
    rw [← describe_eq_integer_iff, h, describe_eq_integer_iff]

end Toml.Value

/-! ## Failures -/

/-- A text is not read for what a spot of its tree holds. -/
theorem exists_spot_of_readDocument {text : List Char} {path : Option Path}
    {key expected found : String} {l : Location}
    (h : readDocument text = .error (.invalidValue path key expected found l)) :
    ∃ t e, ∃ p : Spot, parse text = .ok t ∧ p.In t ∧ p.Cleared ∧ p.Offends e ∧ p.key = key ∧
      p.value.location = l ∧ p.value.describe = found := by
  rw [readDocument, Reading.ofText] at h
  cases hparse : parse text with
  | error e =>
    rw [hparse] at h
    cases h
  | ok t =>
    rw [hparse] at h
    cases hread : Reading.ofTable t with
    | ok r =>
      simp only [hread] at h
      cases h
    | error e =>
      simp only [hread] at h
      obtain ⟨p, hin, hcleared, hoffends⟩ := Reading.ofTable_eq_error_iff_spot.1 hread
      obtain ⟨hkey, hfound⟩ := Spot.eq_of_offends hoffends
      cases h
      rw [hkey, hfound]
      exact ⟨t, e, p, rfl, hin, hcleared, hoffends, rfl, rfl, rfl⟩

/-- Two values that are described alike are of one type, and as strings, truth
values or whole numbers they are the same. Where a text is refused for a value,
what the failure says it found is a string in quotes exactly when the value is
that string. -/
theorem descriptions_tell :
    (∀ v w : Value, v.describe = w.describe → v.ShownAlike w) ∧
    ∀ text path key expected found l,
      readDocument text = .error (.invalidValue path key expected found l) →
      ∃ t e, ∃ p : Spot, parse text = .ok t ∧ p.In t ∧ p.Cleared ∧ p.Offends e ∧ p.key = key ∧
        p.value.location = l ∧ ∀ s, found = quoted s ↔ p.value.string? = some s := by
  refine ⟨fun v w => Value.shownAlike_of_describe, fun text path key expected found l h => ?_⟩
  obtain ⟨t, e, p, hparse, hin, hcleared, hoffends, hkey, hl, hfound⟩ :=
    exists_spot_of_readDocument h
  refine ⟨t, e, p, hparse, hin, hcleared, hoffends, hkey, hl, fun s => ?_⟩
  rw [← hfound, Value.describe_eq_quoted_iff]

/-- Two arrays of different items look alike and are of one type. A string of
a joiner, a quote and a backslash is told by what a failure shows of it. -/
theorem descriptions_tell_joiner :
    (Value.array ⟨1, 5⟩ []).describe = (Value.array ⟨2, 5⟩ [.scalar ⟨2, 6⟩ .datetime]).describe ∧
    (Value.array ⟨1, 5⟩ []).ShownAlike (.array ⟨2, 5⟩ [.scalar ⟨2, 6⟩ .datetime]) ∧
    readDocument "[output]\nformat = '\u200d\"\\'".toList = .error (.invalidValue none
      "output.format" "one of \"terminal\", \"json\"" "\"\\u\x7b200d\x7d\\\"\\\\\"" ⟨2, 10⟩) ∧
    ∃ t, ∃ p : Spot, parse "[output]\nformat = '\u200d\"\\'".toList = .ok t ∧ p.In t ∧
      p.value.string? = some "\u200d\"\\" := by
  have hrefused : readDocument "[output]\nformat = '\u200d\"\\'".toList = .error (.invalidValue none
      "output.format" "one of \"terminal\", \"json\"" "\"\\u\x7b200d\x7d\\\"\\\\\"" ⟨2, 10⟩) := by
    simp only [String.reduceToList]
    decide +kernel
  obtain ⟨halike, hfound⟩ := descriptions_tell
  obtain ⟨t, -, p, hparse, hin, -, -, -, -, hstring⟩ := hfound _ _ _ _ _ _ hrefused
  exact ⟨rfl, halike _ _ rfl, hrefused, t, p, hparse, hin, (hstring _).1 (by decide +kernel)⟩

end AuditSettings
