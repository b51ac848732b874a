/-
AuditSettings.Toml.Token.Span — how far each reading of a text reaches.

A kind of token is one way to read the front of a text. For every kind
there is a function that gives the number of characters it takes, zero
when it does not apply; each takes as many as it can. For strings the
function looks for the quote that closes them, and may find none.
-/

namespace AuditSettings.Toml


/-- Spaces and tabs. -/
def blankLength (cs : List Char) : Nat :=
  (cs.takeWhile fun c => c = ' ' || c = '\t').length

/-- Line breaks: line feeds, each perhaps after a carriage return. -/
def newlineLength : List Char → Nat
  | '\n' :: cs => newlineLength cs + 1
  | '\r' :: '\n' :: cs => newlineLength cs + 2
  | _ => 0

/-- A hash sign and the rest of its line. -/
def commentLength : List Char → Nat
  | '#' :: cs => (cs.takeWhile fun c => c ≠ '\n' && c ≠ '\r').length + 1
  | _ => 0

/-- The number that two digits write. -/
def twoDigits? (a b : Char) : Option Nat :=
  if a.isDigit && b.isDigit then some ((a.toNat - 48) * 10 + (b.toNat - 48)) else none

/-- The number of days in a month. -/
def daysIn (year month : Nat) : Nat :=
  if month = 2 then
    if year % 4 = 0 && (year % 100 ≠ 0 || year % 400 = 0) then 29 else 28
  else if month = 4 || month = 6 || month = 9 || month = 11 then 30
  else 31

/-- A day of the calendar, `YYYY-MM-DD`, from the year 1000 on. -/
def dateLength : List Char → Nat
  | y₁ :: y₂ :: y₃ :: y₄ :: '-' :: m₁ :: m₂ :: '-' :: d₁ :: d₂ :: _ =>
    match twoDigits? y₁ y₂, twoDigits? y₃ y₄, twoDigits? m₁ m₂, twoDigits? d₁ d₂ with
    | some century, some year, some month, some day =>
      if 10 ≤ century && 1 ≤ month && month ≤ 12 && 1 ≤ day &&
          day ≤ daysIn (century * 100 + year) month then 10
      else 0
    | _, _, _, _ => 0
  | _ => 0

/-- A fraction of a second: a point or a comma, then digits. -/
def secondsFractionLength : List Char → Nat
  | c :: cs =>
    let digits := (cs.takeWhile Char.isDigit).length
    if (c = '.' || c = ',') && 0 < digits then digits + 1 else 0
  | [] => 0

/-- A time of day, `HH:MM:SS`, perhaps with a fraction. -/
def timeLength : List Char → Nat
  | h₁ :: h₂ :: ':' :: m₁ :: m₂ :: ':' :: s₁ :: s₂ :: cs =>
    match twoDigits? h₁ h₂, twoDigits? m₁ m₂, twoDigits? s₁ s₂ with
    | some hour, some minute, some second =>
      if hour < 24 && minute < 60 && second < 60 then 8 + secondsFractionLength cs else 0
    | _, _, _ => 0
  | _ => 0

/-- A distance from universal time: `Z`, or a sign and `HH:MM`. -/
def offsetLength : List Char → Nat
  | 'Z' :: _ => 1
  | 'z' :: _ => 1
  | sign :: h₁ :: h₂ :: ':' :: m₁ :: m₂ :: _ =>
    match twoDigits? h₁ h₂, twoDigits? m₁ m₂ with
    | some hour, some minute =>
      if (sign = '+' || sign = '-') && hour < 20 && minute < 60 then 6 else 0
    | _, _ => 0
  | _ => 0

/-- A day, a time, or a day and a time with or without an offset. -/
def datetimeLength (cs : List Char) : Nat :=
  if dateLength cs = 0 then timeLength cs
  else
    match cs.drop 10 with
    | c :: rest =>
      let time := timeLength rest
      if (c = 'T' || c = 't' || c = ' ') && 0 < time then
        11 + time + offsetLength (rest.drop time)
      else 10
    | [] => 10

/-- One of a list of words. -/
def wordLength (words : List (List Char)) (cs : List Char) : Nat :=
  match words.find? fun w => w.isPrefixOf cs with
  | some w => w.length
  | none => 0

/-- The words `true` and `false`. -/
def booleanLength (cs : List Char) : Nat :=
  wordLength [['t', 'r', 'u', 'e'], ['f', 'a', 'l', 's', 'e']] cs

/-- A zero, a letter that names a base, and digits of that base or
underscores. -/
def radixLength (letter : Char) (digit : Char → Bool) : List Char → Nat
  | '0' :: c :: cs =>
    let digits := (cs.takeWhile fun d => digit d || d = '_').length
    if c = letter && 0 < digits then digits + 2 else 0
  | _ => 0

/-- Whether a character is a hexadecimal digit. -/
def isHexDigit (c : Char) : Bool :=
  c.isDigit || ('a' ≤ c && c ≤ 'f') || ('A' ≤ c && c ≤ 'F')

/-- Whether a character is an octal digit. -/
def isOctalDigit (c : Char) : Bool := '0' ≤ c && c ≤ '7'

/-- Whether a character is a binary digit. -/
def isBinaryDigit (c : Char) : Bool := c = '0' || c = '1'

/-- A sign. -/
def signLength : List Char → Nat
  | c :: _ => if c = '+' || c = '-' then 1 else 0
  | [] => 0

/-- Digits and underscores. -/
def digitsLength (cs : List Char) : Nat :=
  (cs.takeWhile fun c => c.isDigit || c = '_').length

/-- A sign, if any, and digits. -/
def integerLength (cs : List Char) : Nat :=
  let sign := signLength cs
  let digits := digitsLength (cs.drop sign)
  if digits = 0 then 0 else sign + digits

/-- A point and digits. -/
def pointLength : List Char → Nat
  | '.' :: cs =>
    let digits := digitsLength cs
    if digits = 0 then 0 else digits + 1
  | _ => 0

/-- A letter `e`, a sign, if any, and digits. -/
def powerLength : List Char → Nat
  | c :: cs =>
    let exponent := integerLength cs
    if (c = 'e' || c = 'E') && 0 < exponent then exponent + 1 else 0
  | [] => 0

/-- A number that may have a fraction and a power of ten, or one of the
words `nan` and `inf`, with a sign, if any. -/
def floatLength (cs : List Char) : Nat :=
  let sign := signLength cs
  let word := wordLength [['n', 'a', 'n'], ['i', 'n', 'f']] (cs.drop sign)
  let whole := integerLength cs
  if 0 < word then sign + word
  else if whole = 0 then 0
  else
    let part := pointLength (cs.drop whole)
    whole + part + powerLength (cs.drop (whole + part))

/-- Whether a character may stand in a bare key. -/
def isBare (c : Char) : Bool := c.isAlphanum || c = '_' || c = '-'

/-- Letters, digits, underscores and hyphens. -/
def bareLength (cs : List Char) : Nat := (cs.takeWhile isBare).length

/-- A bare key that may hold the wild cards `*` and `?`. -/
def globLength (cs : List Char) : Nat :=
  (cs.takeWhile fun c => isBare c || c = '*' || c = '?').length

/-- One given character. -/
def charLength (mark : Char) : List Char → Nat
  | c :: _ => if c = mark then 1 else 0
  | [] => 0

/-! ## Strings -/

/-- The number of characters up to the first quote that no backslash
escapes, that quote included. -/
def basicClose? : (escaped : Bool) → List Char → Option Nat
  | _, [] => none
  | escaped, c :: cs =>
    if c = '"' && !escaped then some 1
    else (basicClose? (c = '\\' && !escaped) cs).map (· + 1)

/-- The number of characters up to the first single quote, that quote
included. -/
def literalClose? : List Char → Option Nat
  | [] => none
  | c :: cs => if c = '\'' then some 1 else (literalClose? cs).map (· + 1)

/-- The number of characters up to the end of the first row of three
quotes, together with the quotes that follow it directly, of which there
may be two. Where backslashes count, the character after one, or after a
row of them, is no quote. -/
def tripleClose? (quote : Char) (escapes : Bool) :
    (row : Nat) → (escaped : Bool) → List Char → Option Nat
  | _, _, [] => none
  | row, escaped, c :: cs =>
    if escapes && c = '\\' then (tripleClose? quote escapes row true cs).map (· + 1)
    else if c = quote && !escaped then
      if row = 2 then
        let further := (cs.takeWhile (· = quote)).length
        if further ≤ 2 then some (further + 1) else none
      else (tripleClose? quote escapes (row + 1) false cs).map (· + 1)
    else (tripleClose? quote escapes 0 false cs).map (· + 1)

end AuditSettings.Toml
