/-
AuditSettings.Main — the command line.

All decisions are made elsewhere: this module looks at the machine on
behalf of a request, lets the request run on what was seen, and prints.
-/
import AuditSettings.Command.Run

namespace AuditSettings

/-- The number of an error, which some calls give with a minus sign. -/
def unsigned (code : UInt32) : UInt32 := if code < 0x80000000 then code else 0 - code

/-- The number and the details of an error of the machine. -/
def errorNumber? : IO.Error → Option (UInt32 × String)
  | .noFileOrDirectory _ code details | .inappropriateType _ code details
  | .permissionDenied _ code details | .invalidArgument _ code details
  | .resourceExhausted _ code details | .otherError code details => some (unsigned code, details)
  | _ => none

/-- What the numbers of errors mean. -/
def meanings : List (UInt32 × String) :=
  [(2, "No such file or directory"), (13, "Permission denied"), (20, "Not a directory"),
    (21, "Is a directory"), (36, "File name too long"), (40, "Too many levels of symbolic links")]

/-- The reason that an error of the machine gives. -/
def failureReason (e : IO.Error) : String :=
  match errorNumber? e with
  | some (code, details) =>
    let meaning := (meanings.lookup code).getD details
    s!"{meaning} (os error {code})"
  | none => toString e

/-- The result of an action, with the reason if it fails. -/
def attempt {α : Type} (action : IO α) : IO (Except String α) := do
  match ← action.toBaseIO with
  | .ok a => return .ok a
  | .error e => return .error (failureReason e)

/-- Whether a regular file stands at a path of this machine, readable or
not. -/
def isRegular (p : Path) : IO Bool := do
  match ← (do (← IO.FS.realPath p).metadata : IO IO.FS.Metadata).toBaseIO with
  | .ok m => return m.type == .file
  | .error _ => return false

/-- What stands at a path of this machine. -/
def observe (p : Path) : IO Standing := do
  if p.toList.contains '\x00' then return .nulInPath
  match ← (IO.FS.readBinFile p).toBaseIO with
  | .ok bytes => return .file bytes.toList
  | .error e =>
    match (errorNumber? e).map Prod.fst with
    | some 2 => return .nothing
    | some 20 => return .belowFile
    | some 21 => return .directory
    | some 36 => return .nameTooLong
    | _ => return .barred (← isRegular p) (failureReason e)

/-- The project directory that a command names. -/
def Command.project? : Command → Option Path
  | .print (.search project) _ | .check (.search project) | .locate project => project
  | _ => none

/-- The file that a command names. -/
def Command.file? : Command → Option Path
  | .print (.file p) _ | .check (.file p) => some p
  | _ => none

/-- This machine, as far as a command looks at it. -/
def Command.host (c : Command) : IO Host := do
  let currentDir ← attempt IO.currentDir
  let resolved ← c.project?.mapM fun p => attempt (IO.FS.realPath p)
  let bare : Host := {
    disk := fun _ => .nothing
    currentDir := currentDir.map toString
    canonical := fun p =>
      match resolved with
      | some found => found.map toString
      | none => .ok p
    environment := ⟨← IO.getEnv "CARGO_HOME", ← IO.getEnv "HOME"⟩ }
  let paths :=
    match c.file?, bare.searchPaths c.project? with
    | some p, _ => [p]
    | none, .ok paths => paths.candidates.map Prod.snd
    | none, .error _ => []
  let seen ← paths.mapM fun p => return (p, ← observe p)
  return { bare with disk := fun p => (seen.lookup p).getD .nothing }

/-- This machine, as far as a request looks at it. -/
def Request.host : Request → IO Host
  | .command c => c.host
  | _ => (Command.locate none).host

end AuditSettings

open AuditSettings in
/-- Runs the request that the arguments make; arguments that make none end
the program with code two. -/
def main (args : List String) : IO UInt32 := do
  match Request.ofArguments? args with
  | none =>
    IO.eprint helpText
    return 2
  | some request =>
    let outcome := request.run (← request.host)
    let filter := ((← IO.getEnv "RUST_LOG").map Filter.ofText).getD .standard
    (outcome.sideLines filter).forM IO.eprintln
    IO.print outcome.output
    return outcome.code.toUInt32
