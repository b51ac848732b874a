/-
AuditSettings.Toml.Document — a document as it is written.

A document is a list of items, which are pairs of a key and a value and
headers; it falls into the pairs before the first header and a section for
every header. Nothing is looked up and nothing is merged yet: what stands
twice in the text stands twice here. Every key part and every value
carries the location of its first character, every header that of its
first bracket.
-/
import AuditSettings.Toml.Scalar

namespace AuditSettings.Toml

open AuditSettings.Text

/-- One name in a key and where it is written. -/
structure KeyPart where
  name : String
  location : Location
deriving DecidableEq, Repr

/-- A key: one name, or several joined by dots. -/
structure Key where
  head : KeyPart
  tail : List KeyPart
deriving DecidableEq, Repr

namespace Key

/-- A key of one name. -/
def single (p : KeyPart) : Key := ⟨p, []⟩

/-- Two keys joined by a dot. -/
def append (k l : Key) : Key := ⟨k.head, k.tail ++ l.head :: l.tail⟩

/-- The parts of a key in order. -/
def parts (k : Key) : List KeyPart := k.head :: k.tail

end Key

/-- A value as it is written. -/
inductive Expr where
  | scalar (location : Location) (value : Scalar)
  | array (location : Location) (items : List Expr)
  | inlineTable (location : Location) (pairs : List (Key × Expr))

/-- What a header names. -/
inductive Heading where
  /-- `[key]`: this table. -/
  | table (location : Location) (key : Key)
  /-- `[[key]]`: a new table at the end of this array. -/
  | element (location : Location) (key : Key)

/-- One item of a document. -/
inductive Item where
  /-- `key = value`. -/
  | pair (key : Key) (value : Expr)
  | heading (h : Heading)

/-- A header and the pairs that follow it. -/
structure Section where
  heading : Heading
  pairs : List (Key × Expr)

/-- A document: the pairs before the first header, then a section for
every header. -/
structure Document where
  opening : List (Key × Expr)
  sections : List Section

namespace Document

/-- The document with one more item in front. -/
def cons : Item → Document → Document
  | .pair k e, d => { d with opening := (k, e) :: d.opening }
  | .heading h, d => ⟨[], ⟨h, d.opening⟩ :: d.sections⟩

/-- The document that consists of the given items. -/
def ofItems (items : List Item) : Document := items.foldr cons ⟨[], []⟩

end Document
end AuditSettings.Toml
