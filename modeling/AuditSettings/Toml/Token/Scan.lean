/-
AuditSettings.Toml.Token.Scan — cutting a text into tokens.

At every point of a text the longest reading wins, and of equally long
readings the one that stands first in `readings`. So `1979-05-27` is a
date though it is also a bare key, and `1e5x` is a bare key though it
begins with a number. A quote reaches to the quote that closes it; one
that is never closed, like a character that begins nothing, is a token of
kind `stray`.

Main statement: the tokens' texts, put together, are the text again.
-/
import AuditSettings.Toml.Token.Basic
import AuditSettings.Toml.Token.Span

namespace AuditSettings.Toml

open AuditSettings.Text

/-! ## The reading that wins -/

/-- The readings that compete for the front of a text, with their lengths;
an earlier one is preferred to a later one of the same length. -/
def readings (cs : List Char) : List (Kind × Nat) :=
  [(.blank, blankLength cs), (.newline, newlineLength cs), (.comment, commentLength cs),
    (.datetime, datetimeLength cs), (.boolean, booleanLength cs),
    (.hexInteger, radixLength 'x' isHexDigit cs), (.octalInteger, radixLength 'o' isOctalDigit cs),
    (.binaryInteger, radixLength 'b' isBinaryDigit cs), (.integer, integerLength cs),
    (.float, floatLength cs), (.bare, bareLength cs), (.glob, globLength cs),
    (.dot, charLength '.' cs), (.comma, charLength ',' cs), (.equals, charLength '=' cs),
    (.bracketOpen, charLength '[' cs), (.bracketClose, charLength ']' cs),
    (.braceOpen, charLength '\x7b' cs), (.braceClose, charLength '\x7d' cs)]

/-- The first of the longest readings; a stray character when none
applies. -/
def longest (rs : List (Kind × Nat)) : Kind × Nat :=
  rs.foldl (fun best r => if best.2 < r.2 then r else best) (.stray, 0)

/-- The kind and the length of the token at the front of a text. A length
of zero is never given. -/
def lexeme : List Char → Kind × Nat
  | '"' :: '"' :: '"' :: cs =>
    match tripleClose? '"' true 0 false cs with
    | some n => (.multiBasic, n + 3)
    | none => (.stray, 3)
  | '\'' :: '\'' :: '\'' :: cs =>
    match tripleClose? '\'' false 0 false cs with
    | some n => (.multiLiteral, n + 3)
    | none => (.stray, 3)
  | '"' :: cs =>
    match basicClose? false cs with
    | some n => (.basic, n + 1)
    | none => (.stray, 1)
  | '\'' :: cs =>
    match literalClose? cs with
    | some n => (.literal, n + 1)
    | none => (.stray, 1)
  | cs =>
    match longest (readings cs) with
    | (_, 0) => (.stray, 1)
    | (kind, n + 1) => (kind, n + 1)

/-- A token is never empty. -/
theorem lexeme_pos (cs : List Char) : 0 < (lexeme cs).2 := by
  unfold lexeme
  split
  · split <;> simp
  · split <;> simp
  · split <;> simp
  · split <;> simp
  · split <;> simp

namespace Token

/-- The tokens of a text that starts at `l`, when its first `inside`
characters belong to a token already given. -/
def scanFrom : Location → (inside : Nat) → List Char → List Token
  | _, _, [] => []
  | l, inside + 1, c :: cs => scanFrom (l.advance c) inside cs
  | l, 0, c :: cs =>
    let (kind, n) := lexeme (c :: cs)
    ⟨kind, (c :: cs).take n, l⟩ :: scanFrom (l.advance c) (n - 1) cs

/-- The tokens of a text. -/
def scan (cs : List Char) : List Token := scanFrom .origin 0 cs

theorem flatMap_text_scanFrom (l : Location) (inside : Nat) (cs : List Char) :
    (scanFrom l inside cs).flatMap Token.text = cs.drop inside := by
  induction cs generalizing l inside with
  | nil => cases inside <;> simp [scanFrom]
  | cons c cs ih =>
    cases inside with
    | succ inside => simp [scanFrom, ih]
    | zero =>
      obtain ⟨n, hn⟩ : ∃ n, (lexeme (c :: cs)).2 = n + 1 :=
        ⟨(lexeme (c :: cs)).2 - 1, by have := lexeme_pos (c :: cs); omega⟩
      simp [scanFrom, ih, hn]

/-- The tokens' texts, put together, are the text. -/
theorem flatMap_text_scan (cs : List Char) : (scan cs).flatMap Token.text = cs := by
  simp [scan, flatMap_text_scanFrom]

end Token
end AuditSettings.Toml
