/-
AuditSettings.Discovery.Disk — what may stand at a path.

For the purposes of a search a disk is a function that tells what stands
at every path. Two things are asked of it: whether there is a regular file
at a path, and what reading the path gives.
-/
import AuditSettings.Path

namespace AuditSettings

/-- What stands at a path. -/
inductive Standing where
  | nothing
  | file (bytes : List UInt8)
  | directory
  /-- The path leads through a regular file. -/
  | belowFile
  /-- A name on the path is longer than the disk allows. -/
  | nameTooLong
  /-- The path holds the character NUL. -/
  | nulInPath
  /-- Something that cannot be opened, and whether it is a regular
  file. -/
  | barred (isFile : Bool) (reason : String)
deriving DecidableEq, Repr

/-- Why a path gives no bytes. -/
inductive ReadFailure where
  | missing
  | other (reason : String)
deriving DecidableEq, Repr

namespace Standing

/-- Whether a regular file stands there. -/
def isFile : Standing → Bool
  | file _ => true
  | barred isFile _ => isFile
  | _ => false

/-- The bytes that are read there. -/
def read : Standing → Except ReadFailure (List UInt8)
  | nothing => .error .missing
  | file bytes => .ok bytes
  | directory => .error (.other "Is a directory (os error 21)")
  | belowFile => .error (.other "Not a directory (os error 20)")
  | nameTooLong => .error (.other "File name too long (os error 36)")
  | nulInPath => .error (.other "file name contained an unexpected NUL byte")
  | barred _ reason => .error (.other reason)

end Standing

/-- A disk: what stands at every path. -/
abbrev Disk := Path → Standing

end AuditSettings
