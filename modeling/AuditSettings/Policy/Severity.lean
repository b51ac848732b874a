/-
AuditSettings.Policy.Severity — how bad a vulnerability is.

There are five bands, from `none` to `critical`. A score falls into the
band whose lower bound it reaches: `low` begins above zero, `medium` at
four, `high` at seven, `critical` at nine; what is no number counts as
`none`. A label of a text report is a score, a word, or a score with the
word after it in parentheses, and then the word alone decides.
-/
import AuditSettings.Policy.Keyword
import AuditSettings.Number.Binary64
import AuditSettings.Text.Blank
import AuditSettings.Text.Split

namespace AuditSettings.Policy

open AuditSettings.Text AuditSettings.Number

/-- The bands of severity, in ascending order. -/
inductive Severity where
  | none
  | low
  | medium
  | high
  | critical
deriving DecidableEq, Repr

namespace Severity

/-- The place of a band in the order. -/
def rank : Severity → Nat
  | none => 0
  | low => 1
  | medium => 2
  | high => 3
  | critical => 4

theorem rank_injective {a b : Severity} (h : a.rank = b.rank) : a = b := by
  cases a <;> cases b <;> simp_all [rank]

instance : Ord Severity := ⟨compareOn rank⟩

instance : Std.TransOrd Severity := inferInstanceAs (Std.TransCmp (compareOn rank))

instance : Std.LawfulEqOrd Severity where
  eq_of_compare h := rank_injective (Std.LawfulEqOrd.eq_of_compare (α := Nat) h)

instance : LE Severity := ⟨fun a b => a.rank ≤ b.rank⟩

instance (a b : Severity) : Decidable (a ≤ b) := inferInstanceAs (Decidable (a.rank ≤ b.rank))

instance : Keyword Severity where
  word
    | none => "none"
    | low => "low"
    | medium => "medium"
    | high => "high"
    | critical => "critical"
  words := ["none", "low", "medium", "high", "critical"]
  ofWord?
    | "none" => some none
    | "low" => some low
    | "medium" => some medium
    | "high" => some high
    | "critical" => some critical
    | _ => Option.none
  ofWord?_eq_some_iff := by
    intro s a
    constructor
    · intro h
      split at h <;> cases h <;> rfl
    · rintro rfl
      cases a <;> rfl
  mem_words_iff := by
    intro s
    simp only [List.mem_cons, List.not_mem_nil, or_false]
    constructor
    · rintro (rfl | rfl | rfl | rfl | rfl) <;> exact ⟨_, rfl⟩
    · rintro ⟨a, h⟩
      split at h <;> simp_all

/-- The band of a score. -/
def ofScore (x : Binary64) : Severity :=
  if x = .nan || x.isNonpositive then none
  else if x.isBelow 4 then low
  else if x.isBelow 7 then medium
  else if x.isBelow 9 then high
  else critical

/-- What stands in the first parentheses of a label, if they are closed. -/
def parenthesised (label : List Char) : Option (List Char) := do
  let (_, rest) ← splitOnce '(' label
  let (inner, _) ← splitOnce ')' rest
  return inner

/-- The band that a label names. -/
def ofLabel? (label : List Char) : Option Severity :=
  let label := trim label
  match parenthesised label with
  | some inner => Keyword.ofWord? (String.ofList (trim inner))
  | .none =>
    match Keyword.ofWord? (String.ofList label) with
    | some s => some s
    | .none => (Binary64.read? label).map ofScore

end Severity
end AuditSettings.Policy
