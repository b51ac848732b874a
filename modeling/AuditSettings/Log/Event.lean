/-
AuditSettings.Log.Event — what is noticed on the way.

An event is something noticed while settings are read or searched for. It
has a level, a part of the program that it belongs to, and a wording.
Events never change what is read: they are worked out beside it, from the
same disk and the same paths, and in the order in which reading and
searching come to them.
-/
import AuditSettings.Discovery.Search

namespace AuditSettings

open AuditSettings.Text AuditSettings.Policy AuditSettings.Toml

/-- How severe an event is, most severe first. -/
inductive Level where
  | error
  | warn
  | info
  | debug
  | trace
deriving DecidableEq, Repr

namespace Level

/-- The place of a level in the order; zero stands for no event at all. -/
def rank : Level → Nat
  | error => 1
  | warn => 2
  | info => 3
  | debug => 4
  | trace => 5

/-- The word for a level. -/
def word : Level → String
  | error => "ERROR"
  | warn => "WARN"
  | info => "INFO"
  | debug => "DEBUG"
  | trace => "TRACE"

end Level

/-- Something noticed on the way. -/
inductive Event where
  /-- An advisory whose name has not the usual form. -/
  | unusualAdvisory (id : AdvisoryId)
  /-- A key that reading passed over. -/
  | passedOver (k : IgnoredKey)
  /-- A place where no file was found. -/
  | noFile (source : Source) (p : Path)
  /-- The place whose file is used. -/
  | inUse (source : Source) (p : Path)
  /-- No file was found at this number of places. -/
  | fallingBack (places : Nat)
  /-- The places that will be searched. -/
  | searching (paths : SearchPaths)
  /-- A key that a check found to be unknown. -/
  | unknownKey (k : IgnoredKey)
deriving DecidableEq

namespace Event

/-- How severe an event is. -/
def level : Event → Level
  | fallingBack _ => .info
  | unknownKey _ => .warn
  | _ => .debug

/-- The part of the program that an event belongs to. -/
def target : Event → String
  | unusualAdvisory _ | passedOver _ => "audit_config::reader"
  | noFile _ _ | inUse _ _ | fallingBack _ => "audit_config::locate"
  | searching _ | unknownKey _ => "cargo_audit_config"

/-- A path between quotes, where a single quote is escaped too. -/
def quotedPath (p : Path) : String :=
  String.ofList ('"' ::
    p.toList.flatMap (fun c => if c = '\'' then ['\\', '\''] else quotedChar c) ++ ['"'])

/-- The search paths in a row. -/
def searchPathsText (s : SearchPaths) : String :=
  let user :=
    match s.user with
    | some p => "Some(" ++ quotedPath p ++ ")"
    | none => "None"
  "SearchPaths \x7b project: " ++ quotedPath s.project ++ ", user: " ++ user ++ " \x7d"

/-- The wording of an event. -/
def message : Event → String
  | unusualAdvisory id =>
    "advisory id `" ++ id ++ "` does not look like RUSTSEC-<year>-<sequence>"
  | passedOver k => "ignoring unknown key `" ++ k.key ++ "` at " ++ k.location.text
  | noFile source p => "no " ++ source.word ++ " configuration at " ++ p
  | inUse source p => "using " ++ source.word ++ " configuration " ++ p
  | fallingBack n =>
    "no audit configuration in " ++ toString n ++ " location(s), using defaults"
  | searching paths => "search paths " ++ searchPathsText paths
  | unknownKey k => "unknown key `" ++ k.key ++ "` at " ++ k.location.text ++ " is ignored"

/-- An event on one line: level, part, wording. -/
def line (e : Event) : String := e.level.word ++ " " ++ e.target ++ ": " ++ e.message

end Event

/-! ## What is noticed -/

/-- What a visit to an entry notices. -/
def Visit.events : Visit → List Event
  | .field f _ v =>
    match f.read v with
    | .ok (.ignore ids) => (ids.filter (!AdvisoryId.isRustsec ·)).map .unusualAdvisory
    | _ => []
  | .unknown k => [.passedOver k]
  | .misfit _ _ => []

/-- What reading some entries notices, up to the first that is at fault. -/
def Visit.eventsOf (r : Reading) : List Visit → List Event
  | [] => []
  | v :: vs =>
    match r.visit v with
    | .ok r => v.events ++ eventsOf r vs
    | .error _ => []

/-- What reading a text notices. -/
def documentEvents (text : List Char) : List Event :=
  match parse text with
  | .ok t => Visit.eventsOf .standard (Visit.ofTable t)
  | .error _ => []

/-- What reading a path notices. -/
def fileEvents (disk : Disk) (p : Path) : List Event :=
  match (disk p).read with
  | .ok bytes =>
    match Utf8.decode bytes with
    | (cs, []) => documentEvents cs
    | _ => []
  | .error _ => []

/-- What a search through some places notices. -/
def discoverEvents (disk : Disk) : List (Source × Path) → List Event
  | [] => []
  | (source, p) :: rest =>
    fileEvents disk p ++
      match readFile disk p with
      | .ok _ => [.inUse source p]
      | .error e => if e.isNotFound then .noFile source p :: discoverEvents disk rest else []

/-- What finding the settings in effect notices. -/
def loadOrDefaultEvents (disk : Disk) (paths : SearchPaths) : List Event :=
  discoverEvents disk paths.candidates ++
    match discover disk paths with
    | .error (.notFound searched) => [.fallingBack searched.length]
    | _ => []

end AuditSettings
