/-
AuditSettings.Settings.Field — the fifteen fields of a settings document.

A field has a section, a name, and a kind of value that it accepts. What
it accepts becomes an `Assignment`, and an assignment replaces the value
of its own setting and no other: a set that a document gives takes the
place of the default set and is not added to it. What a field does not
accept is a `Mismatch`, which names the value itself, or the first item of
an array that is out of place.
-/
import AuditSettings.Settings.Basic
import AuditSettings.Toml.Tree

namespace AuditSettings

open AuditSettings.Policy AuditSettings.Text AuditSettings.Toml

/-- A setting with the value it is given. -/
inductive Assignment where
  | ignore (ids : List AdvisoryId)
  | informationalWarnings (categories : List Category)
  | severityThreshold (severity : Severity)
  | deny (options : List Denial)
  | format (format : ReportFormat)
  | quiet (value : Bool)
  | showTree (value : Bool)
  | yankedEnabled (value : Bool)
  | updateIndex (value : Bool)
  | databasePath (path : Path)
  | databaseUrl (url : String)
  | fetch (value : Bool)
  | stale (value : Bool)
  | arch (names : List String)
  | os (names : List String)

/-- The settings with one of them replaced. -/
def Settings.assign (s : Settings) : Assignment → Settings
  | .ignore ids => { s with advisories.ignore := .ofList ids }
  | .informationalWarnings cs => { s with advisories.informationalWarnings := .ofList cs }
  | .severityThreshold t => { s with advisories.severityThreshold := t }
  | .deny ds => { s with output.deny := .ofList ds }
  | .format f => { s with output.format := f }
  | .quiet b => { s with output.quiet := b }
  | .showTree b => { s with output.showTree := b }
  | .yankedEnabled b => { s with yanked.enabled := b }
  | .updateIndex b => { s with yanked.updateIndex := b }
  | .databasePath p => { s with database.path := some p }
  | .databaseUrl u => { s with database.url := u }
  | .fetch b => { s with database.fetch := b }
  | .stale b => { s with database.stale := b }
  | .arch names => { s with target.arch := .ofList names }
  | .os names => { s with target.os := .ofList names }

/-! ## What a field accepts -/

/-- A kind of value that is asked for. -/
inductive Expectation where
  | table
  | boolean
  | string
  | strings
  /-- One of these words. -/
  | keyword (words : List String)
  /-- An array of these words. -/
  | keywords (words : List String)
deriving DecidableEq

/-- The words of a vocabulary as a diagnostic lists them. -/
def oneOf (words : List String) : String :=
  "one of " ++ ", ".intercalate (words.map quoted)

/-- The wording of an expectation. -/
def Expectation.text : Expectation → String
  | table => "a table"
  | boolean => "a boolean"
  | string => "a string"
  | strings => "an array of strings"
  | keyword words => oneOf words
  | keywords words => "an array of " ++ oneOf words

/-- A value that is not of the kind asked for. -/
structure Mismatch where
  expected : Expectation
  found : Value

namespace Accept

/-- A truth value. -/
def boolean (v : Value) : Except Mismatch Bool :=
  match v.boolean? with
  | some b => .ok b
  | none => .error ⟨.boolean, v⟩

/-- A string. -/
def string (v : Value) : Except Mismatch String :=
  match v.string? with
  | some s => .ok s
  | none => .error ⟨.string, v⟩

/-- The strings of an array, up to an item that is none. -/
def stringItems : List Value → Except Mismatch (List String)
  | [] => .ok []
  | v :: vs =>
    match v.string? with
    | some s => (stringItems vs).map (s :: ·)
    | none => .error ⟨.strings, v⟩

/-- An array of strings. -/
def strings (v : Value) : Except Mismatch (List String) :=
  match v.items? with
  | some vs => stringItems vs
  | none => .error ⟨.strings, v⟩

variable (α : Type) [Keyword α]

/-- A word of a vocabulary. -/
def keyword (v : Value) : Except Mismatch α :=
  match v.string?.bind Keyword.ofWord? with
  | some a => .ok a
  | none => .error ⟨.keyword (Keyword.words α), v⟩

/-- The words of an array, up to an item that is none. -/
def keywordItems : List Value → Except Mismatch (List α)
  | [] => .ok []
  | v :: vs =>
    match keyword α v with
    | .ok a => (keywordItems vs).map (a :: ·)
    | .error e => .error e

/-- An array of words of a vocabulary. -/
def keywords (v : Value) : Except Mismatch (List α) :=
  match v.items? with
  | some vs => keywordItems α vs
  | none => .error ⟨.keywords (Keyword.words α), v⟩

end Accept

/-! ## Fields -/

/-- The fields that a settings document may hold. -/
inductive Field where
  | ignore
  | informationalWarnings
  | severityThreshold
  | deny
  | format
  | quiet
  | showTree
  | yankedEnabled
  | updateIndex
  | databasePath
  | databaseUrl
  | fetch
  | stale
  | arch
  | os
deriving DecidableEq, Repr

namespace Field

/-- All fields, section by section. -/
def all : List Field :=
  [ignore, informationalWarnings, severityThreshold, deny, format, quiet, showTree,
    yankedEnabled, updateIndex, databasePath, databaseUrl, fetch, stale, arch, os]

/-- The section that a field stands in. -/
def sectionName : Field → String
  | ignore | informationalWarnings | severityThreshold => "advisories"
  | deny | format | quiet | showTree => "output"
  | yankedEnabled | updateIndex => "yanked"
  | databasePath | databaseUrl | fetch | stale => "database"
  | arch | os => "target"

/-- The name of a field in its section. -/
def name : Field → String
  | ignore => "ignore"
  | informationalWarnings => "informational_warnings"
  | severityThreshold => "severity_threshold"
  | deny => "deny"
  | format => "format"
  | quiet => "quiet"
  | showTree => "show_tree"
  | yankedEnabled => "enabled"
  | updateIndex => "update_index"
  | databasePath => "path"
  | databaseUrl => "url"
  | fetch => "fetch"
  | stale => "stale"
  | arch => "arch"
  | os => "os"

/-- The field of a name in a section. -/
def find? (inSection name : String) : Option Field :=
  all.find? fun f => f.sectionName == inSection && f.name == name

/-- What a field makes of a value. -/
def read (f : Field) (v : Value) : Except Mismatch Assignment :=
  match f with
  | ignore => (Accept.strings v).map .ignore
  | informationalWarnings => (Accept.keywords Category v).map .informationalWarnings
  | severityThreshold => (Accept.keyword Severity v).map .severityThreshold
  | deny => (Accept.keywords Denial v).map .deny
  | format => (Accept.keyword ReportFormat v).map .format
  | quiet => (Accept.boolean v).map .quiet
  | showTree => (Accept.boolean v).map .showTree
  | yankedEnabled => (Accept.boolean v).map .yankedEnabled
  | updateIndex => (Accept.boolean v).map .updateIndex
  | databasePath => (Accept.string v).map .databasePath
  | databaseUrl => (Accept.string v).map .databaseUrl
  | fetch => (Accept.boolean v).map .fetch
  | stale => (Accept.boolean v).map .stale
  | arch => (Accept.strings v).map .arch
  | os => (Accept.strings v).map .os

end Field

/-- The names of the sections. -/
def sectionNames : List String := ["advisories", "output", "yanked", "database", "target"]

end AuditSettings
