/-
AuditSettings.Toml.Error — what can be wrong with a document, and where.

A document is refused for its first fault alone. The fault is a cause and
a location; the wording of every cause is fixed here and nowhere else.
-/
import AuditSettings.Text.Location

namespace AuditSettings.Toml

open AuditSettings.Text

/-- Why a document is refused. -/
inductive Cause where
  /-- Characters that begin no token. -/
  | unexpectedToken
  /-- A control character in a comment. -/
  | commentCharacter
  /-- A control character in a string that takes escapes, or in one that
  spans lines. -/
  | stringCharacter
  /-- A control character in a one-line string without escapes. -/
  | literalCharacter
  /-- A backslash that begins no escape. -/
  | escape
  /-- A needless zero before a whole number. -/
  | paddedInteger
  /-- A needless zero before a number with a fraction or a power. -/
  | paddedNumber
  /-- An underscore that does not stand between two digits. -/
  | underscore
  /-- Two items on one line. -/
  | newLineExpected
  /-- No key where one must stand. -/
  | identifierExpected
  /-- Two dots in a row inside a key. -/
  | unexpectedDot
  /-- The text ends after a dot inside a key. -/
  | endAfterDot
  /-- The text ends inside a header, a key, or an array. -/
  | unexpectedEnd
  /-- No `=` after a key. -/
  | equalsExpected
  /-- No `]` after the key of a table header. -/
  | headerEndExpected
  /-- No `]` after the key of an array header. -/
  | arrayHeaderEndExpected
  /-- The first `]` of an array header is not followed by the second. -/
  | secondBracketExpected
  /-- No value where one must stand. -/
  | valueExpected
  /-- A comma with no value before it. -/
  | unexpectedComma
  /-- Two values with no comma between them. -/
  | commaExpected
  /-- A comma before the end of an inline table. -/
  | trailingComma
  /-- A line break directly inside an inline table. -/
  | newlineInInlineTable
  /-- The text ends inside an inline table. -/
  | inlineTableEndExpected
  /-- One key of one table is given twice. -/
  | conflictingKeys
  /-- A header leads through something that is no table it may extend. -/
  | tableExpected
  /-- An array header names something that is no array of tables. -/
  | arrayOfTablesExpected
  /-- Two entries of one key meet that are not both tables. -/
  | duplicateKey (key : String)
deriving DecidableEq, Repr

/-- The wording of a cause. -/
def Cause.message : Cause → String
  | unexpectedToken => "unexpected token"
  | commentCharacter => "invalid character in comment"
  | stringCharacter => "invalid character in string"
  | literalCharacter => "invalid control character in string literal"
  | escape => "invalid escape sequence"
  | paddedInteger => "zero-padded integers are not allowed"
  | paddedNumber => "zero-padded numbers are not allowed"
  | underscore => "invalid underscores"
  | newLineExpected => "expected new line"
  | identifierExpected => "expected identifier"
  | unexpectedDot => "unexpected \".\""
  | endAfterDot => "unexpected end of input"
  | unexpectedEnd => "unexpected EOF"
  | equalsExpected => "expected \"=\""
  | headerEndExpected => "expected \"]\""
  | arrayHeaderEndExpected => "expected \"]]\""
  | secondBracketExpected => "expected \"]]"
  | valueExpected => "expected value"
  | unexpectedComma => "unexpected \",\""
  | commaExpected => "expected \",\""
  | trailingComma => "expected value, trailing comma is not allowed"
  | newlineInInlineTable => "newline is not allowed in an inline table"
  | inlineTableEndExpected => "expected \"\x7d\""
  | conflictingKeys => "conflicting keys"
  | tableExpected => "expected table"
  | arrayOfTablesExpected => "expected array of tables"
  | duplicateKey key => s!"duplicate key `{key}`"

/-- The first fault of a document. -/
structure SyntaxError where
  cause : Cause
  location : Location
deriving DecidableEq, Repr

/-- A fault on one line: where, then what. -/
def SyntaxError.text (e : SyntaxError) : String :=
  s!"{e.location.text}: {e.cause.message}"

end AuditSettings.Toml
