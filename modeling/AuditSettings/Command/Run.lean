/-
AuditSettings.Command.Run — what a command does.

A command looks at its host: the disk, the current directory, and the
environment. What it does is a value: the text it prints, the events it
notices, and the failure it ends with, if it fails. A named file must be
there; places that are searched may be empty.
-/
import AuditSettings.Command.Arguments
import AuditSettings.Log.Filter
import AuditSettings.Report.Json
import AuditSettings.Report.Terminal

namespace AuditSettings

open AuditSettings.Policy

/-- What a command sees of the machine it runs on. -/
structure Host where
  disk : Disk
  /-- The current directory, or why it cannot be told. -/
  currentDir : Except String Path
  /-- The absolute path, free of detours, of an existing path, or why
  there is none. -/
  canonical : Path → Except String Path
  environment : Environment

/-- What a command did. -/
structure Outcome where
  output : String
  events : List Event
  failure : Option String

namespace Outcome

/-- The exit code: zero unless the command failed. -/
def code (o : Outcome) : Nat := if o.failure.isSome then 1 else 0

/-- The lines that a command tells on the side: the events that a filter
lets through, then the failure. -/
def sideLines (o : Outcome) (f : Filter) : List String :=
  (o.events.filter f.admits).map Event.line ++ (o.failure.map fun s => "error: " ++ s).toList

end Outcome

/-- A failure together with its cause, where it has one. -/
def LoadError.chain : LoadError → String
  | .unreadable p reason => LoadError.message (.unreadable p reason) ++ ": " ++ reason
  | e => e.message

/-- The places that are searched for a project directory. -/
def Host.searchPaths (h : Host) (project : Option Path) : Except String SearchPaths :=
  let paths (dir : Path) := SearchPaths.ofDirectories dir h.environment.settingsHome?
  match project with
  | some dir =>
    match h.canonical dir with
    | .ok dir => .ok (paths dir)
    | .error reason => .error ("invalid project directory " ++ dir ++ ": " ++ reason)
  | none =>
    match h.currentDir with
    | .ok dir => .ok (paths dir)
    | .error reason => .error ("failed to read the current directory: " ++ reason)

namespace Selection

/-- The settings that are selected. -/
def load (h : Host) : Selection → Except String Loaded
  | .file p => (loadExplicit h.disk p).mapError (·.chain)
  | .search project =>
    match h.searchPaths project with
    | .ok paths => (loadOrDefault h.disk paths).mapError (·.chain)
    | .error reason => .error reason

/-- What loading the selected settings notices. -/
def events (h : Host) : Selection → List Event
  | .file p => fileEvents h.disk p
  | .search project =>
    match h.searchPaths project with
    | .ok paths => .searching paths :: loadOrDefaultEvents h.disk paths
    | .error _ => []

end Selection

/-- The text of the settings in a format. -/
def Loaded.text (l : Loaded) : ReportFormat → String
  | .terminal => Report.summary l
  | .json => l.settings.jsonText ++ "\n"

/-- The verdict on settings that are in order. -/
def Loaded.verdict (l : Loaded) : String :=
  match l.path with
  | some p => p ++ ": ok\n"
  | none => "no configuration found, defaults apply\n"

/-- What a command does on a host. -/
def Command.run (h : Host) : Command → Outcome
  | .print s format =>
    match s.load h with
    | .ok l => ⟨l.text (format.getD l.settings.output.format), s.events h, none⟩
    | .error reason => ⟨"", s.events h, some reason⟩
  | .check s =>
    match s.load h with
    | .ok l => ⟨l.verdict, s.events h ++ l.ignored.map .unknownKey, none⟩
    | .error reason => ⟨"", s.events h, some reason⟩
  | .locate project =>
    match h.searchPaths project with
    | .ok paths => ⟨Report.places h.disk paths, [.searching paths], none⟩
    | .error reason => ⟨"", [], some reason⟩

/-- The text for a request to name the version. -/
def versionText : String := "cargo-audit-config 0.1.0\n"

/-- The text for a request to explain the commands. -/
def helpText : String :=
  "Inspect and validate audit.toml\n\n" ++
  "Usage: cargo-audit-config <COMMAND>\n\n" ++
  "Commands:\n" ++
  "  show    Print the effective configuration\n" ++
  "  check   Validate the configuration, exiting non-zero on error\n" ++
  "  locate  Print the search locations and which one is in effect\n" ++
  "  help    Print this message or the help of the given subcommand(s)\n\n" ++
  "Options:\n" ++
  "  -h, --help     Print help\n" ++
  "  -V, --version  Print version\n"

/-- What a request does on a host. -/
def Request.run (h : Host) : Request → Outcome
  | .command c => c.run h
  | .version => ⟨versionText, [], none⟩
  | .help => ⟨helpText, [], none⟩

end AuditSettings
