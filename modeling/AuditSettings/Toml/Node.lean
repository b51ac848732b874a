/-
AuditSettings.Toml.Node — the tables that a document's items build.

Items are taken in order. A pair with a dotted key makes the tables that
its dots imply; a header makes the tables on its way, or finds them, and
hands the pairs that follow to the one it names. Every table keeps all
that was ever put into it, in order; of several entries of one key the
newest is the one that is found.

What does not fit is recorded as a clash of two keys on the table or array
it was met at, and building goes on. `firstFault` then looks through the
tables in order; inside an array it looks at the items, but not into them.
-/
import AuditSettings.Toml.Document

namespace AuditSettings.Toml

open AuditSettings.Text

/-- How a table came to be. -/
inductive TableKind where
  /-- Named by a header, or the whole document. -/
  | regular
  /-- Written in braces. -/
  | inlined
  /-- Implied by the dots of a pair's key. -/
  | dotted
  /-- Implied by the dots of a header's key. -/
  | passed
deriving DecidableEq, Repr

/-- Whether a table was only implied, by dots. -/
def TableKind.isImplied : TableKind → Bool
  | .dotted | .passed => true
  | .regular | .inlined => false

/-- How a key does not fit what an earlier key of its name has made. -/
inductive ClashKind where
  /-- The key gives it again. -/
  | conflictingKeys
  /-- The key leads a header through it, and it is no table to extend. -/
  | tableExpected
  /-- The key leads a header through it or adds to it, and it is no array
  of tables. -/
  | arrayOfTablesExpected
deriving DecidableEq, Repr

/-- Two keys of one name of which the newer does not fit. -/
structure Clash where
  kind : ClashKind
  key : KeyPart
  old : KeyPart
deriving DecidableEq, Repr

/-- Why a document with such a clash is refused. -/
def ClashKind.cause : ClashKind → Cause
  | conflictingKeys => .conflictingKeys
  | tableExpected => .tableExpected
  | arrayOfTablesExpected => .arrayOfTablesExpected

/-- A clash as the fault of its document. A key given again is put at the
later of the two keys, anything else at the start of the text. -/
def Clash.error (c : Clash) : SyntaxError where
  cause := c.kind.cause
  location :=
    match c.kind with
    | .conflictingKeys => c.key.location.later c.old.location
    | .tableExpected | .arrayOfTablesExpected => .origin

/-- A value under construction. The location is that of its own first
character, bracket or key part. -/
inductive Node where
  | scalar (faults : List Clash) (location : Location) (value : Scalar)
  /-- An array; `ofTables` tells one made by array headers. -/
  | array (faults : List Clash) (location : Location) (ofTables : Bool) (items : List Node)
  | table (faults : List Clash) (location : Location) (kind : TableKind)
      (entries : List (KeyPart × Node))

/-- What a table under construction holds. -/
structure Contents where
  faults : List Clash
  entries : List (KeyPart × Node)

/-- A node with one more fault. -/
def Node.addFault (c : Clash) : Node → Node
  | .scalar faults l v => .scalar (faults ++ [c]) l v
  | .array faults l ofTables items => .array (faults ++ [c]) l ofTables items
  | .table faults l kind entries => .table (faults ++ [c]) l kind entries

namespace Contents

/-- Nothing yet. -/
def empty : Contents := ⟨[], []⟩

/-- The contents as a table. -/
def node (t : Contents) (l : Location) (kind : TableKind) : Node :=
  .table t.faults l kind t.entries

/-- The newest entry of a key. -/
def find? (t : Contents) (key : String) : Option (KeyPart × Node) :=
  t.entries.findRev? fun e => e.1.name == key

/-- The contents with the value of the newest entry of a key replaced. -/
def setNewest (t : Contents) (key : String) (n : Node) : Contents :=
  let fresh := t.entries.reverse.takeWhile fun e => e.1.name != key
  match t.entries.reverse.dropWhile fun e => e.1.name != key with
  | [] => t
  | (k, _) :: older => { t with entries := older.reverse ++ (k, n) :: fresh.reverse }

/-- The contents with an entry at the end. -/
def push (t : Contents) (k : KeyPart) (n : Node) : Contents :=
  { t with entries := t.entries ++ [(k, n)] }

/-- The contents with one more fault. -/
def addFault (t : Contents) (c : Clash) : Contents :=
  { t with faults := t.faults ++ [c] }

/-- The contents with an entry at the end, and a fault if its key was
there before. -/
def pushNew (t : Contents) (k : KeyPart) (n : Node) : Contents :=
  match t.find? k.name with
  | some (old, _) => (t.addFault ⟨.conflictingKeys, k, old⟩).push k n
  | none => t.push k n

/-- The contents with a value under a key of one or more parts. Dots lead
into a table that dots have implied before; otherwise they imply a new
one. -/
def put (n : Node) : KeyPart → List KeyPart → Contents → Contents
  | k, [], t => t.pushNew k n
  | k, k' :: ks, t =>
    match t.find? k.name with
    | some (old, .table faults l kind entries) =>
      if kind.isImplied then t.setNewest k.name ((put n k' ks ⟨faults, entries⟩).node l kind)
      else
        (t.addFault ⟨.conflictingKeys, k, old⟩).push k ((put n k' ks empty).node k.location .dotted)
    | some (old, _) =>
      (t.addFault ⟨.conflictingKeys, k, old⟩).push k ((put n k' ks empty).node k.location .dotted)
    | none => t.push k ((put n k' ks empty).node k.location .dotted)

end Contents

/-! ## Written values -/

mutual

/-- The node of a written value. -/
def Expr.node : Expr → Node
  | .scalar l v => .scalar [] l v
  | .array l items => .array [] l false (Expr.nodes items)
  | .inlineTable l pairs => (Expr.contents pairs .empty).node l .inlined

/-- The nodes of the items of a written array. -/
def Expr.nodes : List Expr → List Node
  | [] => []
  | e :: es => e.node :: Expr.nodes es

/-- The contents with the pairs of a written inline table. -/
def Expr.contents : List (Key × Expr) → Contents → Contents
  | [], t => t
  | (k, e) :: pairs, t => Expr.contents pairs (t.put e.node k.head k.tail)

end

/-! ## Headers -/

namespace Contents

/-- The array with `fill` applied to the contents of its last item, if
that is a table, and otherwise with a new table at its end. -/
def fillLast (l : Location) (fill : Contents → Contents) (items : List Node) : List Node :=
  match items.getLast? with
  | some (.table faults l' kind entries) =>
    items.dropLast ++ [(fill ⟨faults, entries⟩).node l' kind]
  | _ => items ++ [(fill empty).node l .passed]

/-- Follows a header's key to its last part, and there applies `arrive`.
Tables on the way that are missing are made; the last item of an array
stands for the array. -/
def follow (arrive : KeyPart → Contents → Contents) : KeyPart → List KeyPart → Contents → Contents
  | k, [], t => arrive k t
  | k, k' :: ks, t =>
    let inside := follow arrive k' ks
    match t.find? k.name with
    | none => t.push k ((inside empty).node k.location .passed)
    | some (old, .table faults l kind entries) =>
      let faults := if kind = .inlined then faults ++ [⟨.tableExpected, k, old⟩] else faults
      t.setNewest k.name ((inside ⟨faults, entries⟩).node l kind)
    | some (old, .array faults l ofTables items) =>
      let faults := if ofTables then faults else faults ++ [⟨.arrayOfTablesExpected, k, old⟩]
      t.setNewest k.name (.array faults l ofTables (fillLast k.location inside items))
    | some (old, .scalar _ _ _) =>
      (t.addFault ⟨.tableExpected, k, old⟩).push k ((inside empty).node k.location .passed)

/-- What a table header at `l` does with the last part of its key: `fill`
goes to a new table, or to one that so far was only passed through. Any
other table there is given twice; anything else leaves the pairs to the
table around it. -/
def openTable (l : Location) (fill : Contents → Contents) (k : KeyPart) (t : Contents) : Contents :=
  match t.find? k.name with
  | none => t.push k ((fill empty).node l .regular)
  | some (old, .table faults l' kind entries) =>
    let faults := if kind = .passed then faults else faults ++ [⟨.conflictingKeys, k, old⟩]
    t.setNewest k.name ((fill ⟨faults, entries⟩).node l' kind)
  | some (old, _) => fill (t.addFault ⟨.conflictingKeys, k, old⟩)

/-- What an array header at `l` does with the last part of its key: `fill`
goes to a new table at the end of the array. What is no array leaves the
pairs to the table around it. -/
def openArray (l : Location) (fill : Contents → Contents) (k : KeyPart) (t : Contents) : Contents :=
  let item := (fill empty).node l .regular
  match t.find? k.name with
  | none => t.push k (.array [] l true [item])
  | some (old, .array faults l' ofTables items) =>
    let faults := if ofTables then faults else faults ++ [⟨.arrayOfTablesExpected, k, old⟩]
    t.setNewest k.name (.array faults l' ofTables (items ++ [item]))
  | some (old, n) => fill (t.setNewest k.name (n.addFault ⟨.arrayOfTablesExpected, k, old⟩))

end Contents

/-! ## Whole documents -/

/-- The contents of the document with one section more. -/
def Contents.addSection (t : Contents) (s : Section) : Contents :=
  let fill := Expr.contents s.pairs
  match s.heading with
  | .table l k => Contents.follow (Contents.openTable l fill) k.head k.tail t
  | .element l k => Contents.follow (Contents.openArray l fill) k.head k.tail t

/-- The contents of a whole document. -/
def Document.contents (d : Document) : Contents :=
  d.sections.foldl Contents.addSection (Expr.contents d.opening .empty)

/-! ## Faults -/

namespace Node

/-- The faults of the node itself. -/
def faults : Node → List Clash
  | scalar faults _ _ => faults
  | array faults _ _ _ => faults
  | table faults _ _ _ => faults

mutual

/-- The first fault of a node. An array's items are asked for their own
faults, not for what is in them. -/
def firstFault : Node → Option Clash
  | .scalar faults _ _ => faults.head?
  | .array faults _ _ items => (faults ++ items.flatMap Node.faults).head?
  | .table faults _ _ entries => faults.head? <|> firstFaultIn entries

/-- The first fault of some entries. -/
def firstFaultIn : List (KeyPart × Node) → Option Clash
  | [] => none
  | (_, n) :: entries => n.firstFault <|> firstFaultIn entries

end

end Node

/-- The first fault of a whole document. -/
def Contents.firstFault (t : Contents) : Option Clash :=
  t.faults.head? <|> Node.firstFaultIn t.entries

end AuditSettings.Toml
