/-
AuditSettings.Discovery.Error — why no settings were loaded.

A missing file is told apart from every other failure, because a search
goes on after it. A fault in a document names the file, once that is
known, and the place in it.
-/
import AuditSettings.Settings.Reading

namespace AuditSettings

open AuditSettings.Text

/-- A failure to load settings. -/
inductive LoadError where
  /-- There is no file at any of these paths. -/
  | notFound (searched : List Path)
  /-- The text is not a document. -/
  | malformed (path : Option Path) (location : Location) (message : String)
  /-- A key holds a value that it does not accept. -/
  | invalidValue (path : Option Path) (key expected found : String) (location : Location)
  /-- The file is there and cannot be read. -/
  | unreadable (path : Path) (reason : String)
deriving DecidableEq, Repr

namespace LoadError

/-- How a diagnostic names the text at fault. -/
def originText (path : Option Path) : String := path.getD "<input>"

/-- How a diagnostic lists the paths of a search. -/
def searchedText (paths : List Path) : String :=
  if paths.isEmpty then "nothing" else ", ".intercalate paths

/-- The wording of a failure. -/
def message : LoadError → String
  | notFound searched => "no audit configuration found (searched " ++ searchedText searched ++ ")"
  | malformed path l message => originText path ++ ":" ++ l.text ++ ": " ++ message
  | invalidValue path key expected found l =>
    originText path ++ ":" ++ l.text ++ ": invalid value " ++ found ++ " for `" ++ key ++
      "`, expected " ++ expected
  | unreadable path reason => "failed to read " ++ path ++ ": " ++ reason

/-- Whether a failure is that nothing was there. -/
def isNotFound : LoadError → Bool
  | notFound _ => true
  | _ => false

/-- The key whose value was not accepted. -/
def key? : LoadError → Option String
  | invalidValue _ key _ _ _ => some key
  | _ => none

/-- A fault in a document with the file that holds it. -/
def inFile (p : Path) : LoadError → LoadError
  | malformed _ l message => malformed (some p) l message
  | invalidValue _ key expected found l => invalidValue (some p) key expected found l
  | e => e

/-- A fault in a text that is in no file. -/
def ofDocument : DocumentError → LoadError
  | .syntaxError e => malformed none e.location e.cause.message
  | .invalidValue e => invalidValue none e.key e.expected.text e.found.describe e.found.location

end LoadError

/-- The settings and the ignored keys of a text. -/
def readDocument (text : List Char) : Except LoadError Reading :=
  (Reading.ofText text).mapError .ofDocument

/-- The settings of a text. -/
def readSettings (text : List Char) : Except LoadError Settings :=
  (readDocument text).map (·.settings)

end AuditSettings
