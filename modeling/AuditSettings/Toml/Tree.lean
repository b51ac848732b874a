/-
AuditSettings.Toml.Tree — a document as its readers see it.

A tree is what a document means: tables of entries in the order of the
text, arrays, and scalars, each with its location. `insert` adds an entry
to a table and puts tables of one key together; it refuses two entries of
one key when either is something else than a table.
-/
import AuditSettings.Toml.Document
import AuditSettings.Text.Quoted
import AuditSettings.Number.Shortest

namespace AuditSettings.Toml

open AuditSettings.Text AuditSettings.Number

/-- A value of a document and its location. The entries of a table stand
in the order of the text, each with the key part that names it. -/
inductive Value where
  | scalar (location : Location) (value : Scalar)
  | array (location : Location) (items : List Value)
  | table (location : Location) (entries : List (KeyPart × Value))

/-- The entries of a table, in the order of the text. -/
structure Table where
  entries : List (KeyPart × Value)

namespace Value

/-- Where a value is written. -/
def location : Value → Location
  | scalar l _ => l
  | array l _ => l
  | table l _ => l

/-- The name of a value's type. -/
def typeName : Value → String
  | scalar _ (.string _) => "string"
  | scalar _ (.boolean _) => "boolean"
  | scalar _ (.integer _) => "integer"
  | scalar _ (.float _) => "float"
  | scalar _ .datetime => "datetime"
  | array _ _ => "array"
  | table _ _ => "table"

/-- The string that a value is, if it is one. -/
def string? : Value → Option String
  | scalar _ (.string s) => some s
  | _ => none

/-- The truth value that a value is, if it is one. -/
def boolean? : Value → Option Bool
  | scalar _ (.boolean b) => some b
  | _ => none

/-- The items of a value, if it is an array. -/
def items? : Value → Option (List Value)
  | array _ items => some items
  | _ => none

/-- The table that a value is, if it is one. -/
def table? : Value → Option Table
  | table _ entries => some ⟨entries⟩
  | _ => none

/-- A value as a diagnostic shows it: a string between quotes, a truth
value or a number with its type, anything else by its type alone. -/
def describe : Value → String
  | scalar _ (.string s) => quoted s
  | scalar _ (.boolean b) => s!"boolean {b}"
  | scalar _ (.integer n) => s!"integer {n}"
  | scalar _ (.float x) => s!"float {x.text}"
  | v => v.typeName

end Value

namespace Table

/-- The table without entries. -/
def empty : Table := ⟨[]⟩

/-- The first entry of a key. -/
def get? (t : Table) (key : String) : Option (KeyPart × Value) :=
  t.entries.find? fun e => e.1.name == key

end Table

/-! ## Putting entries together -/

/-- The entries with the value of the first entry of `key` replaced. -/
def replaceFirst (key : String) (v : Value) : List (KeyPart × Value) → List (KeyPart × Value)
  | [] => []
  | (k, old) :: rest =>
    if k.name = key then (k, v) :: rest else (k, old) :: replaceFirst key v rest

mutual

/-- The entries with one more. A table meets a table of its key by handing
over its own entries one by one, and then the older key part and location
stay. -/
def insertEntry (entries : List (KeyPart × Value)) (k : KeyPart) (v : Value) :
    Except SyntaxError (List (KeyPart × Value)) :=
  match v with
  | .table l incoming =>
    match entries.find? fun e => e.1.name == k.name with
    | none => .ok (entries ++ [(k, .table l incoming)])
    | some (_, .table l' existing) =>
      (insertEntries existing incoming).map fun merged =>
        replaceFirst k.name (.table l' merged) entries
    | some _ => .error ⟨.duplicateKey k.name, k.location⟩
  | .array l items =>
    if entries.any fun e => e.1.name == k.name then .error ⟨.duplicateKey k.name, k.location⟩
    else .ok (entries ++ [(k, .array l items)])
  | .scalar l s =>
    if entries.any fun e => e.1.name == k.name then .error ⟨.duplicateKey k.name, k.location⟩
    else .ok (entries ++ [(k, .scalar l s)])

/-- The entries with more of them added from the left. -/
def insertEntries (entries : List (KeyPart × Value)) :
    List (KeyPart × Value) → Except SyntaxError (List (KeyPart × Value))
  | [] => .ok entries
  | (k, v) :: rest =>
    match insertEntry entries k v with
    | .ok entries => insertEntries entries rest
    | .error e => .error e

end

/-- A table with one more entry. -/
def Table.insert (t : Table) (k : KeyPart) (v : Value) : Except SyntaxError Table :=
  (insertEntry t.entries k v).map Table.mk

end AuditSettings.Toml
