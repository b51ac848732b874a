/-
AuditSettings.Settings.Basic — what an audit can be told to do.

There are fifteen settings in five sections, and each has a default, so
any part of them may be left unsaid. The questions that an audit asks of
its settings stand beside them: is this advisory ignored, is this severity
reported, does this category warn, does it fail the audit.
-/
import AuditSettings.Path
import AuditSettings.Policy.Advisory
import AuditSettings.Policy.Category
import AuditSettings.Policy.Severity

namespace AuditSettings

open AuditSettings.Policy

/-- Where the advisory database is fetched from unless settings say
otherwise. -/
def defaultDatabaseUrl : String := "https://github.com/RustSec/advisory-db.git"

/-- Which advisories are looked at. -/
structure Advisories where
  /-- Advisories that are left out. -/
  ignore : OrderedSet AdvisoryId
  /-- Informational categories that are shown as warnings. -/
  informationalWarnings : OrderedSet Category
  /-- The least severity that is reported. -/
  severityThreshold : Severity
deriving DecidableEq

/-- What is printed and what makes the audit fail. -/
structure Output where
  /-- The warnings that make the audit fail. -/
  deny : OrderedSet Denial
  format : ReportFormat
  quiet : Bool
  /-- Whether the dependency tree of each finding is printed. -/
  showTree : Bool
deriving DecidableEq

/-- Whether withdrawn versions are looked for. -/
structure Yanked where
  enabled : Bool
  updateIndex : Bool
deriving DecidableEq

/-- Where the advisory database is. -/
structure Database where
  /-- A checkout on this machine; without one the audit chooses. -/
  path : Option Path
  url : String
  fetch : Bool
  stale : Bool
deriving DecidableEq

/-- The platforms that an audit is about; no names at all mean all of
them. -/
structure Target where
  arch : OrderedSet String
  os : OrderedSet String
deriving DecidableEq

/-- All settings of an audit. -/
structure Settings where
  advisories : Advisories
  output : Output
  yanked : Yanked
  database : Database
  target : Target
deriving DecidableEq

namespace Advisories

/-- The settings of a document that says nothing about advisories. -/
def standard : Advisories where
  ignore := .empty
  informationalWarnings := .ofList [.unmaintained, .unsound]
  severityThreshold := .none

/-- Whether an advisory is left out. -/
def isIgnored (a : Advisories) (id : AdvisoryId) : Bool := decide (id ∈ a.ignore)

/-- Whether a finding of this severity is reported. -/
def reports (a : Advisories) (s : Severity) : Bool := decide (a.severityThreshold ≤ s)

/-- Whether an advisory of this category is shown as a warning. -/
def warnsAbout (a : Advisories) (c : Category) : Bool := decide (c ∈ a.informationalWarnings)

end Advisories

namespace Output

/-- The settings of a document that says nothing about output. -/
def standard : Output where
  deny := .empty
  format := .terminal
  quiet := false
  showTree := true

/-- Whether an advisory of this category makes the audit fail. -/
def denies (o : Output) (c : Category) : Bool :=
  decide (.warnings ∈ o.deny) || c.denial?.any fun d => decide (d ∈ o.deny)

end Output

/-- The settings of a document that says nothing about withdrawn
versions. -/
def Yanked.standard : Yanked := ⟨true, true⟩

/-- The settings of a document that says nothing about the database. -/
def Database.standard : Database where
  path := none
  url := defaultDatabaseUrl
  fetch := true
  stale := false

/-- The settings of a document that says nothing about platforms. -/
def Target.standard : Target := ⟨.empty, .empty⟩

/-- The settings of a document that says nothing. -/
def Settings.standard : Settings where
  advisories := .standard
  output := .standard
  yanked := .standard
  database := .standard
  target := .standard

end AuditSettings
