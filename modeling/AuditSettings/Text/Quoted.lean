/-
AuditSettings.Text.Quoted — a text between quotes, with every character
accounted for.

Diagnostics show a text by writing it between double quotes. The quote and
the backslash are written after a backslash, five controls have short
names, and any other hidden character is written by its number, as in
\u{200d}. Everything else stands for itself, so the quoted form says
exactly which text it is about.
-/
import AuditSettings.Text.Hidden

namespace AuditSettings.Text

/-- The digits of a number in lower-case hexadecimal. -/
def hexDigits (n : Nat) : List Char := Nat.toDigits 16 n

/-- How a character is written between double quotes. -/
def quotedChar (c : Char) : List Char :=
  if c = '"' then ['\\', '"']
  else if c = '\\' then ['\\', '\\']
  else if c = '\n' then ['\\', 'n']
  else if c = '\r' then ['\\', 'r']
  else if c = '\t' then ['\\', 't']
  else if c.toNat = 0 then ['\\', '0']
  else if isHidden c then '\\' :: 'u' :: '\x7b' :: hexDigits c.toNat ++ ['\x7d']
  else [c]

/-- A text written between double quotes. -/
def quoted (s : String) : String :=
  String.ofList ('"' :: s.toList.flatMap quotedChar ++ ['"'])

end AuditSettings.Text
