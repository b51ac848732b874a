/-
AuditSettings.Log.Filter — which events are told.

A filter is a list of directives, each a part of the program and the least
severe level that is told of it. A directive is for every part whose name
begins as it says; where several are for one part, the longest name
decides, and where none is, nothing is told.
-/
import AuditSettings.Log.Event
import AuditSettings.Text.Split

namespace AuditSettings

open AuditSettings.Text

/-- How severe the events of a part must be to be told. -/
structure Directive where
  /-- The front of the part's name; empty for every part. -/
  part : String
  /-- The rank of the least severe level that is told. -/
  rank : Nat

/-- Which events are told. -/
abbrev Filter := List Directive

namespace Filter

/-- The filter of warnings and errors. -/
def standard : Filter := [⟨"", Level.warn.rank⟩]

/-- The rank that the name of a level or its number stands for. -/
def rank? (s : String) : Option Nat :=
  let word := String.ofList (s.toList.map Char.toLower)
  [("off", 0), ("error", 1), ("warn", 2), ("info", 3), ("debug", 4), ("trace", 5),
    ("0", 0), ("1", 1), ("2", 2), ("3", 3), ("4", 4), ("5", 5)].lookup word

/-- The directive that a text writes: a level for every part, a part with
its level, or a part alone, of which everything is told. -/
def directive? (s : List Char) : Option Directive :=
  match (pieces '=' s).map String.ofList with
  | [word] => some ((rank? word).elim ⟨word, Level.trace.rank⟩ (⟨"", ·⟩))
  | [part, level] => (rank? level).map (⟨part, ·⟩)
  | _ => none

/-- The filter that a text writes: directives between commas. Without any,
errors alone are told; a text that writes no filter counts as none. -/
def ofText (s : String) : Filter :=
  let texts := ((pieces ',' s.toList).map trim).filter (!·.isEmpty)
  match texts.mapM directive? with
  | some [] => [⟨"", Level.error.rank⟩]
  | some directives => directives
  | none => standard

/-- Whether an event is told: the directive with the longest name that
fits its part decides. -/
def admits (f : Filter) (e : Event) : Bool :=
  let fitting := f.filter fun d => d.part.toList.isPrefixOf e.target.toList
  let best := fitting.foldl (fun best d =>
    match best with
    | some b => if b.part.length ≤ d.part.length then some d else best
    | none => some d) (none : Option Directive)
  best.any fun d => e.level.rank ≤ d.rank

end Filter
end AuditSettings
