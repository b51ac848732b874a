/-
AuditSettings.Proofs.Toml.Survey — what stands where in a document.

An address leads from the root of a tree to a node by names and indices,
and a site is a node's address with what the node is. A tree has its
sites. A document has its own, read off what is written and in its order,
without building anything: a value stands at the address of its table
followed by the names of its key, and the address of the table under a
header is found by following the header's names, going into the element
opened last wherever elements have been opened before.

The sites of a document are kept apart. What is written as a value, or as
the value of a pair inside one, is `written`; tables and arrays that are
there because a header or a dotted key leads to them are the `skeleton`,
in which one table may be met many times.
-/
import AuditSettings.Toml.Parse
import Mathlib.Data.List.Dedup

namespace AuditSettings.Toml

open AuditSettings.Text

/-! ## Addresses -/

/-- A step from a table or an array to something in it. -/
inductive Step where
  | key (name : String)
  | index (i : Nat)
deriving DecidableEq, Repr

/-- The way from the root to a node. -/
abbrev Address := List Step

/-- What a node is. -/
inductive Shape where
  | scalar (value : Scalar)
  | array
  | table
deriving DecidableEq, Repr

/-- A node and where it is. -/
abbrev Site := Address × Shape

/-- What stands at some addresses as it is seen from further up. -/
def under {α : Type} (a : Address) (xs : List (Address × α)) : List (Address × α) :=
  xs.map fun x => (a ++ x.1, x.2)

/-! ## Sites of a tree -/

mutual

/-- A value and everything in it. -/
def Value.sites : Value → List Site
  | .scalar _ v => [([], .scalar v)]
  | .array _ items => ([], .array) :: Value.itemSites 0 items
  | .table _ entries => ([], .table) :: Value.entrySites entries

/-- Items, counted from `i`, and everything in them. -/
def Value.itemSites (i : Nat) : List Value → List Site
  | [] => []
  | v :: vs => under [.index i] v.sites ++ Value.itemSites (i + 1) vs

/-- Entries and everything in them. -/
def Value.entrySites : List (KeyPart × Value) → List Site
  | [] => []
  | (k, v) :: entries => under [.key k.name] v.sites ++ Value.entrySites entries

end

/-- Everything in a tree. -/
def Table.sites (t : Table) : List Site := Value.entrySites t.entries

/-! ## Sites of a written value -/

namespace Key

/-- The steps of a key. -/
def address (k : Key) : Address := k.parts.map fun p => .key p.name

/-- The tables that the dots of a key imply. -/
def implied (k : Key) : List Site := impliedFrom k.head k.tail
where
  /-- The tables that lead to the last of some parts. -/
  impliedFrom (p : KeyPart) : List KeyPart → List Site
    | [] => []
    | q :: ps => ([.key p.name], .table) :: under [.key p.name] (impliedFrom q ps)

end Key

mutual

/-- A written value and all that is written in it. -/
def Expr.written : Expr → List Site
  | .scalar _ v => [([], .scalar v)]
  | .array _ items => ([], .array) :: Expr.itemsWritten 0 items
  | .inlineTable _ pairs => ([], .table) :: Expr.pairsWritten pairs

/-- Written items, counted from `i`. -/
def Expr.itemsWritten (i : Nat) : List Expr → List Site
  | [] => []
  | e :: es => under [.index i] e.written ++ Expr.itemsWritten (i + 1) es

/-- The values of some pairs. -/
def Expr.pairsWritten : List (Key × Expr) → List Site
  | [] => []
  | (k, e) :: pairs => under k.address e.written ++ Expr.pairsWritten pairs

end

mutual

/-- The tables that dotted keys imply in a written value. -/
def Expr.implied : Expr → List Site
  | .scalar _ _ => []
  | .array _ items => Expr.itemsImplied 0 items
  | .inlineTable _ pairs => Expr.pairsImplied pairs

/-- The tables that dotted keys imply in written items, counted from
`i`. -/
def Expr.itemsImplied (i : Nat) : List Expr → List Site
  | [] => []
  | e :: es => under [.index i] e.implied ++ Expr.itemsImplied (i + 1) es

/-- The tables that dotted keys imply in some pairs. -/
def Expr.pairsImplied : List (Key × Expr) → List Site
  | [] => []
  | (k, e) :: pairs => k.implied ++ under k.address e.implied ++ Expr.pairsImplied pairs

end

/-! ## Sites of a document -/

/-- What stands where in a document of which some sections were read. -/
structure Survey where
  /-- The addresses of the arrays that were given an element by a header,
  once for every element. -/
  opened : List Address
  /-- What is written as a value. -/
  written : List Site
  /-- What headers and dotted keys lead to. -/
  skeleton : List Site

namespace Survey

/-- The number of elements that headers have given to an array. -/
def count (s : Survey) (a : Address) : Nat := s.opened.count a

/-- The table that a header means by an address on its way: the element
opened last, if there are any. -/
def enter (s : Survey) (a : Address) : Address :=
  if s.count a = 0 then a else a ++ [Step.index (s.count a - 1)]

/-- Where the last part of a header's key leads, starting in the table at
`a`, and the tables on the way. -/
def route (s : Survey) (a : Address) (k : KeyPart) : List KeyPart → Address × List Site
  | [] => (a ++ [Step.key k.name], [])
  | k' :: ks =>
    let b := s.enter (a ++ [Step.key k.name])
    ((s.route b k' ks).1, (b, .table) :: (s.route b k' ks).2)

/-- The survey with tables that a header leads to. -/
def pass (s : Survey) (way : List Site) : Survey := { s with skeleton := s.skeleton ++ way }

/-- The survey with one more element of the array at `a`. -/
def addElement (s : Survey) (a : Address) : Survey :=
  { s with
    opened := s.opened ++ [a]
    skeleton := s.skeleton ++ [(a, .array), (a ++ [Step.index (s.count a)], .table)] }

/-- The survey with pairs of the table at `a`. -/
def addPairs (s : Survey) (a : Address) (pairs : List (Key × Expr)) : Survey :=
  { s with
    written := s.written ++ under a (Expr.pairsWritten pairs)
    skeleton := s.skeleton ++ under a (Expr.pairsImplied pairs) }

/-- The survey with one section more. -/
def addSection (s : Survey) (sec : Section) : Survey :=
  match sec.heading with
  | .table _ k =>
    let (a, way) := s.route [] k.head k.tail
    (s.pass (way ++ [(a, .table)])).addPairs a sec.pairs
  | .element _ k =>
    let (a, way) := s.route [] k.head k.tail
    ((s.pass way).addElement a).addPairs (a ++ [Step.index (s.count a)]) sec.pairs

/-- All that stands in the document, each table of the skeleton once. -/
def sites (s : Survey) : List Site := s.written ++ s.skeleton.dedup

end Survey

/-- What stands where in a document. -/
def Document.survey (d : Document) : Survey :=
  d.sections.foldl Survey.addSection (Survey.addPairs ⟨[], [], []⟩ [] d.opening)

end AuditSettings.Toml
