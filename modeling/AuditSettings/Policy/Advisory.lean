/-
AuditSettings.Policy.Advisory — the names of published advisories.

Any text may name an advisory. The usual form is `RUSTSEC-`, a year of
four digits, a hyphen, and a sequence number.
-/
import AuditSettings.Text.Split

namespace AuditSettings.Policy

open AuditSettings.Text

/-- The name of an advisory. -/
abbrev AdvisoryId := String

/-- Whether a name has the usual form. -/
def AdvisoryId.isRustsec (id : AdvisoryId) : Bool :=
  match pieces '-' id.toList with
  | [family, year, sequence] =>
    family == ['R', 'U', 'S', 'T', 'S', 'E', 'C'] && year.length == 4 && year.all Char.isDigit &&
      !sequence.isEmpty && sequence.all Char.isDigit
  | _ => false

end AuditSettings.Policy
