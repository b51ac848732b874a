/-
AuditSettings.Toml.Parse — the tree of a text.

A text becomes tokens, the tokens a document, the document a table under
construction, and that, if nothing in it is at fault, a tree. Entries are
added to the tree one by one, so tables that were opened under one key in
several places come together. A value is located at its own first
character or at the first character of anything inside it, whichever comes
first: a table that a header passed through begins at that header.
-/
import AuditSettings.Toml.Grammar
import AuditSettings.Toml.Node
import AuditSettings.Toml.Tree

namespace AuditSettings.Toml

open AuditSettings.Text

mutual

/-- The first location at which anything of a node is written. -/
def Node.extent : Node → Location
  | .scalar _ l _ => l
  | .array _ l _ items => Node.extentOfItems l items
  | .table _ l _ entries => Node.extentOfEntries l entries

/-- The first location of some nodes and of what begins at `l`. -/
def Node.extentOfItems (l : Location) : List Node → Location
  | [] => l
  | n :: items => Node.extentOfItems (l.earlier n.extent) items

/-- The first location of some entries and of what begins at `l`. -/
def Node.extentOfEntries (l : Location) : List (KeyPart × Node) → Location
  | [] => l
  | (k, n) :: entries =>
    Node.extentOfEntries ((l.earlier k.location).earlier n.extent) entries

end

mutual

/-- The value of a node. -/
def Node.value : Node → Except SyntaxError Value
  | .scalar _ l v => .ok (.scalar l v)
  | .array faults l ofTables items =>
    (Node.values items).map (.array (Node.extent (.array faults l ofTables items)))
  | .table faults l kind entries =>
    (Node.addEntries [] entries).map (.table (Node.extent (.table faults l kind entries)))

/-- The values of some nodes. -/
def Node.values : List Node → Except SyntaxError (List Value)
  | [] => .ok []
  | n :: items =>
    match n.value with
    | .ok v => (Node.values items).map (v :: ·)
    | .error e => .error e

/-- The entries of a tree with those of a table under construction added
one by one. -/
def Node.addEntries (done : List (KeyPart × Value)) :
    List (KeyPart × Node) → Except SyntaxError (List (KeyPart × Value))
  | [] => .ok done
  | (k, n) :: entries =>
    match n.value with
    | .error e => .error e
    | .ok v =>
      match insertEntry done k v with
      | .ok done => Node.addEntries done entries
      | .error e => .error e

end

/-- The tree of a table under construction. -/
def Contents.table (t : Contents) : Except SyntaxError Table :=
  (Node.addEntries [] t.entries).map Table.mk

/-- The tree of a document. -/
def Document.table (d : Document) : Except SyntaxError Table :=
  match d.contents.firstFault with
  | some c => .error c.error
  | none => d.contents.table

/-- The tree of a text, or its first fault. -/
def parse (text : List Char) : Except SyntaxError Table :=
  match Document.ofText text with
  | .ok d => d.table
  | .error e => .error e

end AuditSettings.Toml
