/-
AuditSettings.Path — paths as they are written.

A path is a text in which slashes part the names. Joining looks at no disk
and simplifies nothing: `a/../b` stays what it is.
-/

namespace AuditSettings

/-- A path, absolute if it begins with a slash. -/
abbrev Path := String

namespace Path

/-- Whether a path starts at the root. -/
def isAbsolute (p : Path) : Bool := p.toList.head? == some '/'

/-- The path `p` taken from the directory `base`. An absolute path stays
as it is, and nothing is put in front of a path without a base. -/
def join (base p : Path) : Path :=
  if isAbsolute p || base.isEmpty then p
  else if base.toList.getLast? == some '/' then base ++ p
  else base ++ "/" ++ p

end Path
end AuditSettings
