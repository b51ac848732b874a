/-
AuditSettings.Report.Json — settings as a JSON object.

An object is written over several lines, two spaces deeper for every
level; an array or object without parts stays on one line. In a string
the quote, the backslash and the controls below U+0020 are escaped, and
every other character stands for itself.
-/
import AuditSettings.Settings.Basic

namespace AuditSettings

open AuditSettings.Policy

/-- A JSON value; the members of an object keep their order. -/
inductive Json where
  | null
  | boolean (value : Bool)
  | string (text : String)
  | array (items : List Json)
  | object (members : List (String × Json))

namespace Json

/-- How a character is written in a string. -/
def stringChar (c : Char) : List Char :=
  if c = '"' then ['\\', '"']
  else if c = '\\' then ['\\', '\\']
  else if c = '\x08' then ['\\', 'b']
  else if c = '\x0c' then ['\\', 'f']
  else if c = '\n' then ['\\', 'n']
  else if c = '\r' then ['\\', 'r']
  else if c = '\t' then ['\\', 't']
  else if c.toNat < 0x20 then
    '\\' :: 'u' :: '0' :: '0' :: Nat.digitChar (c.toNat / 16) :: [Nat.digitChar (c.toNat % 16)]
  else [c]

/-- A string between quotes. -/
def stringText (s : String) : List Char :=
  '"' :: s.toList.flatMap stringChar ++ ['"']

/-- A line break and the indentation of the next line. -/
def newline (depth : Nat) : List Char := '\n' :: List.replicate (2 * depth) ' '

mutual

/-- The text of a value whose first line stands at a depth. -/
def text (depth : Nat) : Json → List Char
  | null => ['n', 'u', 'l', 'l']
  | boolean true => ['t', 'r', 'u', 'e']
  | boolean false => ['f', 'a', 'l', 's', 'e']
  | string s => stringText s
  | array [] => ['[', ']']
  | array (v :: vs) =>
    '[' :: newline (depth + 1) ++ text (depth + 1) v ++ itemsText (depth + 1) vs ++
      newline depth ++ [']']
  | object [] => ['\x7b', '\x7d']
  | object ((k, v) :: members) =>
    '\x7b' :: newline (depth + 1) ++ stringText k ++ ':' :: ' ' :: text (depth + 1) v ++
      membersText (depth + 1) members ++ newline depth ++ ['\x7d']

/-- The items of an array after its first. -/
def itemsText (depth : Nat) : List Json → List Char
  | [] => []
  | v :: vs => ',' :: newline depth ++ text depth v ++ itemsText depth vs

/-- The members of an object after its first. -/
def membersText (depth : Nat) : List (String × Json) → List Char
  | [] => []
  | (k, v) :: members =>
    ',' :: newline depth ++ stringText k ++ ':' :: ' ' :: text depth v ++ membersText depth members

end

/-- Some strings as an array. -/
def strings (items : List String) : Json := .array (items.map .string)

/-- A set of words as an array. -/
def wordSet {α : Type} [Ord α] [Keyword α] (s : OrderedSet α) : Json :=
  strings (s.members.map Keyword.word)

end Json

/-- The settings as a JSON object. -/
def Settings.json (s : Settings) : Json :=
  .object [
    ("advisories", .object [
      ("ignore", Json.strings s.advisories.ignore.members),
      ("informational_warnings", Json.wordSet s.advisories.informationalWarnings),
      ("severity_threshold", .string (Keyword.word s.advisories.severityThreshold))]),
    ("output", .object [
      ("deny", Json.wordSet s.output.deny),
      ("format", .string (Keyword.word s.output.format)),
      ("quiet", .boolean s.output.quiet),
      ("show_tree", .boolean s.output.showTree)]),
    ("yanked", .object [
      ("enabled", .boolean s.yanked.enabled),
      ("update_index", .boolean s.yanked.updateIndex)]),
    ("database", .object [
      ("path", s.database.path.elim .null .string),
      ("url", .string s.database.url),
      ("fetch", .boolean s.database.fetch),
      ("stale", .boolean s.database.stale)]),
    ("target", .object [
      ("arch", Json.strings s.target.arch.members),
      ("os", Json.strings s.target.os.members)])]

/-- The settings as JSON text. -/
def Settings.jsonText (s : Settings) : String := String.ofList (s.json.text 0)

end AuditSettings
