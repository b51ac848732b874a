/-
AuditSettings.Discovery.Search — finding the settings that are in effect.

There are two places for a settings file: the project's, and the user's if
a home directory is known. The first of them where a file is found decides
alone; nothing is merged, and a file that is there but faulty is an error
and not passed over. Where no file is found the standard settings hold.
-/
import AuditSettings.Discovery.Disk
import AuditSettings.Discovery.Error
import AuditSettings.Text.Split
import AuditSettings.Text.Utf8

namespace AuditSettings

open AuditSettings.Text

/-- The name of a settings file. -/
def settingsFileName : String := "audit.toml"

/-- The two places for a settings file. -/
structure SearchPaths where
  project : Path
  /-- Not there when no home directory is known. -/
  user : Option Path
deriving DecidableEq, Repr

/-- Where settings come from. -/
inductive Source where
  /-- A file that the caller named. -/
  | explicit
  | project
  | user
  /-- No file: the standard settings. -/
  | defaults
deriving DecidableEq, Repr

/-- The word for a source. -/
def Source.word : Source → String
  | explicit => "file"
  | project => "project"
  | user => "user"
  | defaults => "defaults"

namespace SearchPaths

/-- The places for a project directory and a home directory. -/
def ofDirectories (project : Path) (home : Option Path) : SearchPaths where
  project := Path.join (Path.join project ".cargo") settingsFileName
  user := home.map (Path.join · settingsFileName)

/-- The places in the order in which they are searched. -/
def candidates (s : SearchPaths) : List (Source × Path) :=
  (.project, s.project) :: (s.user.map fun p => (Source.user, p)).toList

end SearchPaths

/-- The variables of the environment that tell the home directory. -/
structure Environment where
  /-- The directory that holds the user's settings file. -/
  cargoHome : Option String
  /-- The user's own directory. -/
  home : Option String

/-- The directory that holds the user's settings file: the one that is
named, if it is not empty, and otherwise `.cargo` in the user's own. -/
def Environment.settingsHome? (e : Environment) : Option Path :=
  match e.cargoHome.filter (!·.isEmpty) with
  | some p => some p
  | none => (e.home.filter (!·.isEmpty)).map (Path.join · ".cargo")

/-- Settings, where they come from, and the keys that were ignored. -/
structure Loaded where
  settings : Settings
  source : Source
  /-- The file, if there is one. -/
  path : Option Path
  ignored : List IgnoredKey
deriving DecidableEq

namespace Loaded

/-- The standard settings. -/
def standard : Loaded := ⟨.standard, .defaults, none, []⟩

/-- A reading with the file that it is from. -/
def ofReading (source : Source) (p : Path) (r : Reading) : Loaded :=
  ⟨r.settings, source, some p, r.ignored⟩

end Loaded

/-- The location just past a text: its line is told by the line breaks in the
text, and its column by what follows the last of them. -/
def endOf (text : List Char) : Location where
  line := text.count '\n' + 1
  column := unitCount ((pieces '\n' text).getLast?.getD []) + 1

/-- What a file of these bytes gives. Bytes that are no text are a fault
just past the longest front of them that is. -/
def readBytes (p : Path) (bytes : List UInt8) : Except LoadError Reading :=
  match Utf8.decode bytes with
  | (cs, []) => (readDocument cs).mapError (·.inFile p)
  | (cs, _ :: _) => .error (.malformed (some p) (endOf cs) "invalid UTF-8")

/-- What a disk gives at a path. -/
def readFile (disk : Disk) (p : Path) : Except LoadError Reading :=
  match (disk p).read with
  | .ok bytes => readBytes p bytes
  | .error .missing => .error (.notFound [p])
  | .error (.other reason) => .error (.unreadable p reason)

/-- The settings of a single file. -/
def load (disk : Disk) (p : Path) : Except LoadError Settings :=
  (readFile disk p).map (·.settings)

/-- The settings of a file that the caller named. -/
def loadExplicit (disk : Disk) (p : Path) : Except LoadError Loaded :=
  (readFile disk p).map (.ofReading .explicit p)

/-- The settings at the first of some places where a file is found, after
the `searched` places where none was. -/
def discoverIn (disk : Disk) (searched : List Path) : List (Source × Path) → Except LoadError Loaded
  | [] => .error (.notFound searched)
  | (source, p) :: rest =>
    match readFile disk p with
    | .ok r => .ok (.ofReading source p r)
    | .error e => if e.isNotFound then discoverIn disk (searched ++ [p]) rest else .error e

/-- The settings at the first place where a file is found. -/
def discover (disk : Disk) (paths : SearchPaths) : Except LoadError Loaded :=
  discoverIn disk [] paths.candidates

/-- The settings in effect: those found, or the standard ones. -/
def loadOrDefault (disk : Disk) (paths : SearchPaths) : Except LoadError Loaded :=
  match discover disk paths with
  | .error (.notFound _) => .ok .standard
  | result => result

end AuditSettings
