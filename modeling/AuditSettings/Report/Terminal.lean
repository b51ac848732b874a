/-
AuditSettings.Report.Terminal — settings as a person reads them.

The summary has a heading for every section and a line for every setting.
What says nothing is left out: the database path when there is none, the
platforms when none are named, the ignored keys when there are none. The
list of places marks with a star the first place where a file is found.
-/
import AuditSettings.Discovery.Search

namespace AuditSettings

open AuditSettings.Policy

namespace Report

/-- Some words in a row, or a note that there are none. -/
def row (items : List String) : String :=
  if items.isEmpty then "(none)" else ", ".intercalate items

/-- Lines, each with its line break. -/
def unlines (lines : List String) : String :=
  String.join (lines.map (· ++ "\n"))

theorem toList_unlines (lines : List String) :
    (unlines lines).toList = lines.flatMap fun line => line.toList ++ ['\n'] := by
  simp [unlines, String.toList_join, List.flatMap_map]

theorem unlines_append (lines lines' : List String) :
    unlines (lines ++ lines') = unlines lines ++ unlines lines' := by
  simp [unlines]

/-- The line of one setting. -/
def bullet (name value : String) : String := "* " ++ name ++ ": " ++ value

/-- The words of the members of a set. -/
def wordsOf {α : Type} [Ord α] [Keyword α] (s : OrderedSet α) : List String :=
  s.members.map Keyword.word

/-- The heading that tells where the settings come from. -/
def sourceLine (l : Loaded) : String :=
  "# Source: " ++ l.source.word ++ l.path.elim "" fun p => " (" ++ p ++ ")"

/-- The lines of the section on advisories. -/
def advisoriesLines (a : Advisories) : List String :=
  ["", "# Advisories", bullet "Ignore" (row a.ignore.members),
    bullet "Informational warnings" (row (wordsOf a.informationalWarnings)),
    bullet "Severity threshold" (Keyword.word a.severityThreshold)]

/-- The lines of the section on output. -/
def outputLines (o : Output) : List String :=
  ["", "# Output", bullet "Deny" (row (wordsOf o.deny)), bullet "Format" (Keyword.word o.format),
    bullet "Quiet" (toString o.quiet), bullet "Show tree" (toString o.showTree)]

/-- The lines of the section on withdrawn versions. -/
def yankedLines (y : Yanked) : List String :=
  ["", "# Yanked", bullet "Enabled" (toString y.enabled),
    bullet "Update index" (toString y.updateIndex)]

/-- The lines of the section on the database. -/
def databaseLines (d : Database) : List String :=
  ["", "# Database"] ++ (d.path.map (bullet "Path")).toList ++
    [bullet "URL" d.url, bullet "Fetch" (toString d.fetch), bullet "Stale" (toString d.stale)]

/-- The lines of the section on platforms. -/
def targetLines (t : Target) : List String :=
  if t.arch.members.isEmpty && t.os.members.isEmpty then []
  else ["", "# Target", bullet "Arch" (row t.arch.members), bullet "OS" (row t.os.members)]

/-- The line of one ignored key. -/
def ignoredLine (k : IgnoredKey) : String := "* " ++ k.key ++ " (" ++ k.location.text ++ ")"

/-- The lines on ignored keys. -/
def ignoredLines (ks : List IgnoredKey) : List String :=
  if ks.isEmpty then [] else ["", "# Ignored keys"] ++ ks.map ignoredLine

/-- The summary of the settings in effect. -/
def summary (l : Loaded) : String :=
  unlines (sourceLine l :: advisoriesLines l.settings.advisories ++
    outputLines l.settings.output ++ yankedLines l.settings.yanked ++
    databaseLines l.settings.database ++ targetLines l.settings.target ++ ignoredLines l.ignored)

/-! ## The list of places -/

/-- A word with spaces after it, up to a width. -/
def padded (width : Nat) (s : String) : String :=
  s ++ String.ofList (List.replicate (width - s.length) ' ')

/-- One place: starred if it decides, and whether a file is there. -/
def placeLine (starred found : Bool) (source : Source) (p : Path) : String :=
  (if starred then "*" else " ") ++ " " ++ padded 7 source.word ++ " " ++ p ++ " (" ++
    (if found then "found" else "missing") ++ ")"

/-- The lines of some places, when an earlier place has decided or not. -/
def placeLines (disk : Disk) : (decided : Bool) → List (Source × Path) → List String
  | _, [] => []
  | decided, (source, p) :: rest =>
    let found := (disk p).isFile
    placeLine (found && !decided) found source p :: placeLines disk (decided || found) rest

/-- The places for a settings file, and which of them decides. -/
def places (disk : Disk) (paths : SearchPaths) : String :=
  let found := paths.candidates.any fun c => (disk c.2).isFile
  unlines (placeLines disk false paths.candidates ++
    (if paths.user.isNone then ["  user    (no home directory)"] else []) ++
    if found then [] else ["no configuration file found, defaults apply"])

end Report
end AuditSettings
