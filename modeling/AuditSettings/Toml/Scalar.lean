/-
AuditSettings.Toml.Scalar — the values that a single token writes.

A token that writes a value is first checked as a whole, then read. A
string may hold no control character but the tab, and the line breaks if
it spans lines; its escapes are replaced, and a backslash before a line
break drops the white space that follows. A number may not be padded with
zeros, and an underscore must stand between two digits. A whole number
that does not fit in 64 bits, signed if negative, reads as zero.
-/
import AuditSettings.Toml.Error
import AuditSettings.Toml.Token.Scan
import AuditSettings.Number.Binary64
import AuditSettings.Text.Blank

namespace AuditSettings.Toml

open AuditSettings.Text AuditSettings.Number

/-- A value without parts. -/
inductive Scalar where
  | string (text : String)
  | boolean (value : Bool)
  | integer (value : Int)
  | float (value : Binary64)
  | datetime
deriving DecidableEq, Repr

/-! ## Control characters -/

/-- Whether a character has the general category Cc. -/
def isControl (c : Char) : Bool :=
  c.toNat < 0x20 || (0x7f ≤ c.toNat && c.toNat ≤ 0x9f)

/-- Whether a character is refused in a string in double quotes. -/
def refusedInBasic (c : Char) : Bool :=
  (c.toNat < 0x20 && c ≠ '\t') || c.toNat = 0x7f

/-- Whether a character is refused in a string in three double quotes. -/
def refusedInMultiBasic (c : Char) : Bool :=
  refusedInBasic c && c ≠ '\n' && c ≠ '\r'

/-- Whether a character is refused in a comment and in a string in single
quotes. -/
def refusedInLiteral (c : Char) : Bool :=
  isControl c && c ≠ '\t'

/-- Whether a character is refused in a string in three single quotes. -/
def refusedInMultiLiteral (c : Char) : Bool :=
  refusedInLiteral c && c ≠ '\n' && c ≠ '\r'

/-- Refuses a token with a character that may not stand in it. The fault
is put as many bytes after the start of the token as there are characters
before the refused one. -/
def Token.refuse (t : Token) (refused : Char → Bool) (cause : Cause) : Except SyntaxError Unit :=
  match t.text.findIdx? refused with
  | some n => .error ⟨cause, t.start.atOffset t.text n⟩
  | none => .ok ()

/-! ## Escapes -/

/-- The character whose number a given count of hexadecimal digits
writes. Surrogates and numbers past the last code point write none. -/
def codePoint? (count : Nat) (cs : List Char) : Option Char :=
  let digits := cs.take count
  if digits.length = count && digits.all isHexDigit then
    let n := ofDigits 16 digits
    if h : n.isValidChar then some (Char.ofNatAux n h) else none
  else none

/-- What an escape stands for and how many characters it takes after its
backslash, given the characters after the backslash. -/
def escape? : List Char → Option (List Char × Nat)
  | 'b' :: _ => some (['\x08'], 1)
  | 't' :: _ => some (['\t'], 1)
  | 'n' :: _ => some (['\n'], 1)
  | 'f' :: _ => some (['\x0c'], 1)
  | 'r' :: _ => some (['\r'], 1)
  | '"' :: _ => some (['"'], 1)
  | '\\' :: _ => some (['\\'], 1)
  | 'u' :: cs => (codePoint? 4 cs).map fun c => ([c], 5)
  | 'U' :: cs => (codePoint? 8 cs).map fun c => ([c], 9)
  | cs =>
    let blanks := cs.takeWhile isBlank
    if blanks.contains '\n' then some ([], blanks.length) else none

/-- A text with its escapes replaced, when it starts at `l` and its first
`inside` characters belong to an escape already replaced. A backslash that
begins no escape is a fault at its own location. -/
def unescape : (l : Location) → (inside : Nat) → List Char → Except SyntaxError (List Char)
  | _, _, [] => .ok []
  | l, inside + 1, c :: cs => unescape (l.advance c) inside cs
  | l, 0, c :: cs =>
    if c = '\\' then
      match escape? cs with
      | some (out, n) => (unescape (l.advance c) n cs).map (out ++ ·)
      | none => .error ⟨.escape, l⟩
    else (unescape (l.advance c) 0 cs).map (c :: ·)

/-! ## Strings -/

/-- The characters of a token between its quotes, `width` of them on
either side. -/
def Token.inner (t : Token) (width : Nat) : List Char :=
  (t.text.drop width).take (t.text.length - 2 * width)

/-- The line break, if any, with which a string that spans lines begins:
it is not part of the string. -/
def leadingBreak : List Char → List Char
  | '\n' :: _ => ['\n']
  | '\r' :: '\n' :: _ => ['\r', '\n']
  | _ => []

/-- The string that a token of one of the four kinds writes. -/
def Token.string (t : Token) : Except SyntaxError String :=
  match t.kind with
  | .basic => do
    t.refuse refusedInBasic .stringCharacter
    let cs ← unescape (t.start.after (t.text.take 1)) 0 (t.inner 1)
    return String.ofList cs
  | .multiBasic => do
    t.refuse refusedInMultiBasic .stringCharacter
    let body := t.inner 3
    let skipped := leadingBreak body
    let cs ← unescape (t.start.after (t.text.take 3 ++ skipped)) 0 (body.drop skipped.length)
    return String.ofList cs
  | .literal => do
    t.refuse refusedInLiteral .literalCharacter
    return String.ofList (t.inner 1)
  | .multiLiteral => do
    t.refuse refusedInMultiLiteral .stringCharacter
    let body := t.inner 3
    return String.ofList (body.drop (leadingBreak body).length)
  | _ => .error ⟨.valueExpected, t.start⟩

/-! ## Numbers -/

/-- Whether a numeral, its sign apart, begins with a zero and goes on. -/
def isPadded (cs : List Char) : Bool :=
  match (splitSign cs).2 with
  | '0' :: _ :: _ => true
  | _ => false

/-- Whether every underscore stands between two digits, when the character
before the text is one or is not. -/
def underscoresFit (digit : Char → Bool) : (afterDigit : Bool) → List Char → Bool
  | _, [] => true
  | afterDigit, c :: cs =>
    if c = '_' then afterDigit && (cs.head?.any digit) && underscoresFit digit false cs
    else underscoresFit digit (digit c) cs

/-- A numeral without its underscores. -/
def dropUnderscores (cs : List Char) : List Char := cs.filter (· ≠ '_')

/-- The part of a numeral that may not be padded: what stands before the
point or, without a point, before a small `e`. -/
def wholePart (cs : List Char) : List Char :=
  cs.takeWhile (· ≠ if cs.contains '.' then '.' else 'e')

/-- A whole number if it fits in 64 bits, and zero if not. Only a number
with a minus sign needs room for the sign. -/
def fitted (negative : Bool) (n : Nat) : Int :=
  if negative then if n ≤ Nat.pow 2 63 then -(n : Int) else 0
  else if n < Nat.pow 2 64 then n else 0

/-- Refuses a numeral with an underscore that does not stand between two
digits. -/
def Token.checkUnderscores (t : Token) (digit : Char → Bool) : Except SyntaxError Unit :=
  if underscoresFit digit false t.text then .ok () else .error ⟨.underscore, t.start⟩

/-- The whole number that a token with the mark of a base writes. -/
def Token.radixInteger (t : Token) (base : Nat) (digit : Char → Bool) : Except SyntaxError Scalar := do
  t.checkUnderscores digit
  return .integer (fitted false (ofDigits base (dropUnderscores (t.text.drop 2))))

/-- The value that a token writes. -/
def Token.scalar (t : Token) : Except SyntaxError Scalar :=
  match t.kind with
  | .boolean => .ok (.boolean (t.text.head? == some 't'))
  | .datetime => .ok .datetime
  | .integer =>
    if isPadded t.text then .error ⟨.paddedInteger, t.start⟩
    else do
      t.checkUnderscores Char.isDigit
      let (negative, digits) := splitSign t.text
      return .integer (fitted negative (ofDigits 10 (dropUnderscores digits)))
  | .hexInteger => t.radixInteger 16 isHexDigit
  | .octalInteger => t.radixInteger 8 isOctalDigit
  | .binaryInteger => t.radixInteger 2 isBinaryDigit
  | .float =>
    if isPadded (wholePart t.text) then .error ⟨.paddedNumber, t.start⟩
    else do
      t.checkUnderscores Char.isDigit
      return .float ((Binary64.read? (dropUnderscores t.text)).getD .nan)
  | .basic | .multiBasic | .literal | .multiLiteral => return .string (← t.string)
  | _ => .error ⟨.valueExpected, t.start⟩

end AuditSettings.Toml
