/-
AuditSettings.Discovery.FileTree — a disk as a value.

A file tree is a regular file or a directory of named trees. Following a
path through it goes name by name: a directory must stand wherever a name
is taken from, two dots go up, an empty name or a single dot stays. What
stands at a path is settled by where that walk ends or by what stops it.
-/
import AuditSettings.Discovery.Disk
import AuditSettings.Text.Split

namespace AuditSettings

open AuditSettings.Text

/-- A regular file, or a directory and what is in it. -/
inductive FileTree where
  | file (bytes : List UInt8)
  | directory (entries : List (String × FileTree))

namespace FileTree

/-- The directory without entries. -/
def empty : FileTree := .directory []

/-- What is in a tree; nothing is in a file. -/
def entries : FileTree → List (String × FileTree)
  | .file _ => []
  | .directory entries => entries

/-- The tree that these names, from the outermost in, lead to. -/
def find? : FileTree → List String → Option FileTree
  | t, [] => some t
  | t, name :: names => (t.entries.lookup name).bind (find? · names)

/-- The tree with another tree at these names. Directories on the way are
made where they are missing. -/
def put : FileTree → List String → FileTree → FileTree
  | _, [], new => new
  | t, name :: names, new =>
    let inside := put ((t.entries.lookup name).getD empty) names new
    .directory (t.entries.filter (fun e => e.1 != name) ++ [(name, inside)])

/-- The tree without what these names lead to. -/
def remove : FileTree → List String → FileTree
  | t, [] => t
  | t, [name] => .directory (t.entries.filter fun e => e.1 != name)
  | t, name :: names =>
    match t.entries.lookup name with
    | some inside =>
      .directory (t.entries.filter (fun e => e.1 != name) ++ [(name, remove inside names)])
    | none => t

/-- The most bytes that a name may have. -/
def nameLimit : Nat := 255

/-- The most bytes that a path may have. -/
def pathLimit : Nat := 4095

/-- Follows names from the directory `here` on, or tells what stops the
walk. -/
def walk (t : FileTree) : (here : List String) → List String → Except Standing (List String)
  | here, [] => .ok here
  | here, name :: names =>
    match t.find? here with
    | some (.directory entries) =>
      if name = "" || name = "." then walk t here names
      else if name = ".." then walk t here.dropLast names
      else if nameLimit < name.utf8ByteSize then .error .nameTooLong
      else if (entries.lookup name).isSome then walk t (here ++ [name]) names
      else .error .nothing
    | some (.file _) => .error .belowFile
    | none => .error .nothing

end FileTree

namespace Path

/-- The names in a path, empty ones included. -/
def names (p : Path) : List String := (pieces '/' p.toList).map String.ofList

/-- The path that these names, from the root on, make. -/
def ofNames (names : List String) : Path := "/" ++ "/".intercalate names

end Path

/-- A file tree and the directory in which relative paths begin. -/
structure WorkingTree where
  tree : FileTree
  here : List String
  /-- Whether that directory has been removed since. -/
  removed : Bool

namespace WorkingTree

/-- Follows names from a directory that has been removed: it holds nothing
any more, but the directory around it is still found. -/
def walkRemoved (w : WorkingTree) : List String → Except Standing (List String)
  | [] => .error .directory
  | name :: names =>
    if name = "" || name = "." then walkRemoved w names
    else if name = ".." then w.tree.walk w.here.dropLast names
    else .error .nothing

/-- The names from the root that a path leads to, or what stops it. -/
def resolve (w : WorkingTree) (p : Path) : Except Standing (List String) :=
  if p.toList.contains '\x00' then .error .nulInPath
  else if p.isEmpty then .error .nothing
  else if FileTree.pathLimit < p.utf8ByteSize then .error .nameTooLong
  else if Path.isAbsolute p then w.tree.walk [] (Path.names p)
  else if w.removed then w.walkRemoved (Path.names p)
  else w.tree.walk w.here (Path.names p)

/-- What stands at a path. -/
def standing (w : WorkingTree) (p : Path) : Standing :=
  match w.resolve p with
  | .error stop => stop
  | .ok names =>
    match w.tree.find? names with
    | some (.file bytes) => .file bytes
    | some (.directory _) => .directory
    | none => .nothing

/-- The directory in which relative paths begin, as an absolute path. -/
def currentDir? (w : WorkingTree) : Option Path :=
  if w.removed then none else some (Path.ofNames w.here)

/-- The working tree without what these names lead to. -/
def remove (w : WorkingTree) (names : List String) : WorkingTree where
  tree := w.tree.remove names
  here := w.here
  removed := w.removed || names.isPrefixOf w.here

end WorkingTree
end AuditSettings
