/-
AuditSettings.Toml.Token.Basic — the words that a document is made of.

A token is a stretch of the text with a kind. It keeps its characters as
they are written and the location of the first of them, so everything that
is read off a token can be traced back to the text.
-/
import AuditSettings.Text.Location

namespace AuditSettings.Toml

open AuditSettings.Text

/-- The kinds of token. -/
inductive Kind where
  | blank | newline | comment
  | datetime | boolean | hexInteger | octalInteger | binaryInteger | integer | float
  | bare | glob
  | dot | comma | equals | bracketOpen | bracketClose | braceOpen | braceClose
  /-- A string in double quotes. -/
  | basic
  /-- A string in three double quotes. -/
  | multiBasic
  /-- A string in single quotes. -/
  | literal
  /-- A string in three single quotes. -/
  | multiLiteral
  /-- Characters that begin no token. -/
  | stray
deriving DecidableEq, Repr

/-- A stretch of the text, its kind, and the location of its first
character. -/
structure Token where
  kind : Kind
  text : List Char
  start : Location
deriving DecidableEq, Repr

end AuditSettings.Toml
