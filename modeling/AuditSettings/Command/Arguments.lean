/-
AuditSettings.Command.Arguments — what a command line asks for.

There are three commands: print the settings in effect, check them, and
locate the file they come from. Options follow the command. An option
takes a value, as the next argument or joined to its own; it may be given
once, and its value may not be empty. A named file and a project directory
exclude each other. Whatever breaks these rules is no request.
-/
import AuditSettings.Path
import AuditSettings.Policy.Category
import AuditSettings.Text.Split

namespace AuditSettings

open AuditSettings.Policy AuditSettings.Text

/-- Which settings a command is about. -/
inductive Selection where
  /-- Those of one file. -/
  | file (p : Path)
  /-- Those in effect for a project directory, or for the current one. -/
  | search (project : Option Path)
deriving DecidableEq, Repr

/-- A command. -/
inductive Command where
  /-- Print the settings, in the format they ask for or in this one. -/
  | print (s : Selection) (format : Option ReportFormat)
  /-- Tell whether the settings are in order. -/
  | check (s : Selection)
  /-- List the places where settings are searched. -/
  | locate (project : Option Path)
deriving DecidableEq, Repr

/-- What a command line asks for. -/
inductive Request where
  | command (c : Command)
  | version
  | help
deriving DecidableEq, Repr

/-- The options. -/
inductive Flag where
  | file
  | project
  | format
deriving DecidableEq, Repr

namespace Flag

/-- The name after two hyphens. -/
def longName : Flag → List Char
  | file => "file".toList
  | project => "project-dir".toList
  | format => "format".toList

/-- The letter after one hyphen, if there is one. -/
def letter? : Flag → Option Char
  | file => none
  | project => some 'p'
  | format => some 'f'

end Flag

/-- What one argument after the command says. -/
inductive Argument where
  /-- An option and its value. -/
  | complete (f : Flag) (value : String)
  /-- An option whose value is the next argument. -/
  | awaiting (f : Flag)
  | help
  | unknown

/-- What an argument says where some options are allowed. -/
def Argument.read (allowed : List Flag) (arg : List Char) : Argument :=
  match arg with
  | '-' :: '-' :: rest =>
    let (name, value) :=
      match splitOnce '=' rest with
      | some (name, value) => (name, some (String.ofList value))
      | none => (rest, none)
    if name = "help".toList && value.isNone then .help
    else
      match allowed.find? (·.longName == name), value with
      | some f, some value => .complete f value
      | some f, none => .awaiting f
      | none, _ => .unknown
  | '-' :: c :: rest =>
    if c = 'h' then .help
    else
      match allowed.find? (·.letter? == some c), rest with
      | some f, [] => .awaiting f
      | some f, '=' :: value => .complete f (String.ofList value)
      | some f, value => .complete f (String.ofList value)
      | none, _ => .unknown
  | _ => .unknown

/-- The values that options were given. -/
structure Options where
  file : Option Path
  project : Option Path
  format : Option ReportFormat

namespace Options

/-- No option was given. -/
def none : Options := ⟨.none, .none, .none⟩

/-- A value for what may be given once and must not be empty. -/
def once (old : Option String) (value : String) : Option String :=
  if old.isSome || value.isEmpty then .none else some value

/-- The options with one more given. -/
def give (o : Options) (f : Flag) (value : String) : Option Options :=
  match f with
  | .file => (once o.file value).map fun v => { o with file := some v }
  | .project => (once o.project value).map fun v => { o with project := some v }
  | .format =>
    if o.format.isSome then .none
    else (Keyword.ofWord? value).map fun v => { o with format := some v }

/-- The settings that the options select. -/
def selection? (o : Options) : Option Selection :=
  match o.file, o.project with
  | some _, some _ => .none
  | some p, .none => some (.file p)
  | .none, project => some (.search project)

/-- Whether an argument can only be an option, and not the value of
one. -/
def isOption (arg : String) : Bool :=
  match arg.toList with
  | '-' :: _ :: _ => true
  | _ => false

/-- Reads the arguments after a command; `finish` makes a request of the
options. Help is given as soon as it is asked for, and an argument of two
hyphens may only be the last. -/
def read (allowed : List Flag) (finish : Options → Option Command) :
    Options → List String → Option Request
  | o, [] => (finish o).map .command
  | o, arg :: rest =>
    if arg = "--" then if rest.isEmpty then (finish o).map .command else .none
    else
      match Argument.read allowed arg.toList, rest with
      | .help, _ => some .help
      | .complete f value, rest => (o.give f value).bind (read allowed finish · rest)
      | .awaiting f, value :: rest =>
        if isOption value then .none else (o.give f value).bind (read allowed finish · rest)
      | .awaiting _, [] => .none
      | .unknown, _ => .none

end Options

/-- The names of the commands. -/
def commandNames : List String := ["show", "check", "locate", "help"]

/-- What a command line asks for, if it follows the rules. -/
def Request.ofArguments? : List String → Option Request
  | [] => none
  | "show" :: args =>
    Options.read [.file, .project, .format] (fun o => o.selection?.map (.print · o.format)) .none args
  | "check" :: args => Options.read [.file, .project] (fun o => o.selection?.map .check) .none args
  | "locate" :: args => Options.read [.project] (fun o => some (.locate o.project)) .none args
  | ["help"] => some .help
  | ["help", name] => if commandNames.contains name then some .help else none
  | "--version" :: _ => some .version
  | "--help" :: _ => some .help
  | arg :: _ =>
    match arg.toList with
    | '-' :: 'V' :: _ => some .version
    | '-' :: 'h' :: _ => some .help
    | _ => none

end AuditSettings
