/-
AuditSettings.Number.Numeral — decimal numerals as people write them.

A numeral is an optional sign, then digits with an optional point among or
around them, then an optional power of ten; `inf`, `infinity` and `nan`
are numerals too, in any letter case. Reading one loses nothing: the
digits are kept as one natural number beside the power of ten that scales
it, and no rounding happens here.
-/

namespace AuditSettings.Number

/-- What a numeral says. -/
inductive Numeral where
  | nan
  | infinity (negative : Bool)
  /-- The number `digits * 10 ^ exponent`, negated if so marked. -/
  | decimal (negative : Bool) (digits : Nat) (exponent : Int)
deriving DecidableEq, Repr

/-- The value of a digit in any base up to sixteen. -/
def digitValue (c : Char) : Nat :=
  if c.isDigit then c.toNat - '0'.toNat
  else if 'a' ≤ c && c ≤ 'f' then c.toNat - 'a'.toNat + 10
  else if 'A' ≤ c && c ≤ 'F' then c.toNat - 'A'.toNat + 10
  else 0

/-- The number that a row of digits writes in a base. -/
def ofDigits (base : Nat) (cs : List Char) : Nat :=
  cs.foldl (fun n c => n * base + digitValue c) 0

/-- Whether a numeral begins with a minus sign, and the numeral without
its sign. -/
def splitSign : List Char → Bool × List Char
  | '-' :: cs => (true, cs)
  | '+' :: cs => (false, cs)
  | cs => (false, cs)

namespace Numeral

/-- The digits after a point, if the text begins with one, and the text
that follows. -/
def fraction : List Char → List Char × List Char
  | '.' :: cs => (cs.takeWhile Char.isDigit, cs.dropWhile Char.isDigit)
  | cs => ([], cs)

/-- The power of ten that a text spells: nothing at all is the power zero,
and otherwise a letter `e` is followed by a sign, if any, and digits. -/
def exponent? : List Char → Option Int
  | [] => some 0
  | c :: cs =>
    if c = 'e' || c = 'E' then
      let (negative, digits) := splitSign cs
      if digits.isEmpty || !digits.all Char.isDigit then none
      else some (if negative then -(ofDigits 10 digits : Int) else ofDigits 10 digits)
    else none

/-- The numeral that an unsigned text of digits writes. -/
def decimal? (negative : Bool) (cs : List Char) : Option Numeral :=
  let whole := cs.takeWhile Char.isDigit
  let (part, rest) := fraction (cs.dropWhile Char.isDigit)
  if whole.isEmpty && part.isEmpty then none
  else (exponent? rest).map fun e =>
    .decimal negative (ofDigits 10 (whole ++ part)) (e - part.length)

/-- The numeral that a text writes, if it writes one. -/
def read? (cs : List Char) : Option Numeral :=
  let (negative, body) := splitSign cs
  let word := body.map Char.toLower
  if word = ['n', 'a', 'n'] then some .nan
  else if word = ['i', 'n', 'f'] || word = ['i', 'n', 'f', 'i', 'n', 'i', 't', 'y'] then
    some (.infinity negative)
  else decimal? negative body

end Numeral
end AuditSettings.Number
