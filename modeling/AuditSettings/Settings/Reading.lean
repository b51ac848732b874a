/-
AuditSettings.Settings.Reading — the settings that a document gives.

A document is read in its own order: its sections as they come, and in
each section the fields as they come. Every entry met on the way is a
`Visit`. A known field is applied; a key that is not known, be it a
section or a field, is ignored and remembered; the first value that its
field does not accept ends the reading.
-/
import AuditSettings.Settings.Field
import AuditSettings.Toml.Parse

namespace AuditSettings

open AuditSettings.Policy AuditSettings.Text AuditSettings.Toml

/-- A key that the settings do not know, with its section in front, and
where it is written. -/
structure IgnoredKey where
  key : String
  location : Location
deriving DecidableEq, Repr

/-- A value under a key that does not accept it. -/
structure InvalidValue where
  key : String
  expected : Expectation
  found : Value

/-- An entry that reading a document comes to. -/
inductive Visit where
  /-- A known field with its full key. -/
  | field (f : Field) (key : String) (v : Value)
  /-- A key that is not known. -/
  | unknown (k : IgnoredKey)
  /-- A section that is no table. -/
  | misfit (key : String) (v : Value)

namespace Visit

/-- The visit to an entry of a section. -/
def ofField (inSection : String) (k : KeyPart) (v : Value) : Visit :=
  let key := inSection ++ "." ++ k.name
  match Field.find? inSection k.name with
  | some f => .field f key v
  | none => .unknown ⟨key, k.location⟩

/-- The visits to an entry of the root: to its own entries if it is a
section. -/
def ofEntry (k : KeyPart) (v : Value) : List Visit :=
  if sectionNames.contains k.name then
    match v.table? with
    | some t => t.entries.map fun (f, w) => ofField k.name f w
    | none => [.misfit k.name v]
  else [.unknown ⟨k.name, k.location⟩]

/-- The visits to all entries of a document, in its order. -/
def ofTable (t : Table) : List Visit := t.entries.flatMap fun (k, v) => ofEntry k v

end Visit

/-- What a document gives: the settings, and the keys that were ignored,
in the order in which they were met. -/
structure Reading where
  settings : Settings
  ignored : List IgnoredKey
deriving DecidableEq

namespace Reading

/-- The reading of an empty document. -/
def standard : Reading := ⟨.standard, []⟩

/-- The reading after one more visit. -/
def visit (r : Reading) : Visit → Except InvalidValue Reading
  | .field f key v =>
    match f.read v with
    | .ok a => .ok { r with settings := r.settings.assign a }
    | .error e => .error ⟨key, e.expected, e.found⟩
  | .unknown k => .ok { r with ignored := r.ignored ++ [k] }
  | .misfit key v => .error ⟨key, .table, v⟩

/-- The reading of a tree. -/
def ofTable (t : Table) : Except InvalidValue Reading :=
  (Visit.ofTable t).foldlM visit standard

end Reading

/-- Why a text gives no settings. -/
inductive DocumentError where
  | syntaxError (e : SyntaxError)
  | invalidValue (e : InvalidValue)

/-- The reading of a text. -/
def Reading.ofText (text : List Char) : Except DocumentError Reading :=
  match parse text with
  | .error e => .error (.syntaxError e)
  | .ok t =>
    match Reading.ofTable t with
    | .ok r => .ok r
    | .error e => .error (.invalidValue e)

end AuditSettings
