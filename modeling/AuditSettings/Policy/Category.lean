/-
AuditSettings.Policy.Category — advisories that are no vulnerabilities,
and which of them make an audit fail.

An informational advisory has a category. Three of the four categories can
be denied, each by an option of its own, and all of them together by the
option `warnings`; a mere notice can be denied only that way.
-/
import AuditSettings.Policy.Keyword
import AuditSettings.Text.Blank

namespace AuditSettings.Policy

open AuditSettings.Text

/-- The kinds of informational advisory. -/
inductive Category where
  /-- A security notice. -/
  | notice
  /-- The package is no longer maintained. -/
  | unmaintained
  /-- The package has an unsound interface. -/
  | unsound
  /-- The version was withdrawn from its registry. -/
  | yanked
deriving DecidableEq, Repr

/-- What an audit can be told to fail on. -/
inductive Denial where
  /-- Every warning. -/
  | warnings
  | unmaintained
  | unsound
  | yanked
deriving DecidableEq, Repr

/-- How an audit prints its report. -/
inductive ReportFormat where
  | terminal
  | json
deriving DecidableEq, Repr

namespace Category

/-- The place of a category in the order. -/
def rank : Category → Nat
  | notice => 0
  | unmaintained => 1
  | unsound => 2
  | yanked => 3

theorem rank_injective {a b : Category} (h : a.rank = b.rank) : a = b := by
  cases a <;> cases b <;> simp_all [rank]

instance : Ord Category := ⟨compareOn rank⟩

instance : Std.TransOrd Category := inferInstanceAs (Std.TransCmp (compareOn rank))

instance : Std.LawfulEqOrd Category where
  eq_of_compare h := rank_injective (Std.LawfulEqOrd.eq_of_compare (α := Nat) h)

instance : Keyword Category where
  word
    | notice => "notice"
    | unmaintained => "unmaintained"
    | unsound => "unsound"
    | yanked => "yanked"
  words := ["notice", "unmaintained", "unsound", "yanked"]
  ofWord?
    | "notice" => some notice
    | "unmaintained" => some unmaintained
    | "unsound" => some unsound
    | "yanked" => some yanked
    | _ => none
  ofWord?_eq_some_iff := by
    intro s a
    constructor
    · intro h
      split at h <;> cases h <;> rfl
    · rintro rfl
      cases a <;> rfl
  mem_words_iff := by
    intro s
    simp only [List.mem_cons, List.not_mem_nil, or_false]
    constructor
    · rintro (rfl | rfl | rfl | rfl) <;> exact ⟨_, rfl⟩
    · rintro ⟨a, h⟩
      split at h <;> simp_all

/-- The category that the warning column of a text report names. -/
def ofWarning? (label : List Char) : Option Category :=
  Keyword.ofWord? (String.ofList (trim label))

/-- The option that denies exactly this category, if there is one. -/
def denial? : Category → Option Denial
  | notice => none
  | unmaintained => some .unmaintained
  | unsound => some .unsound
  | yanked => some .yanked

end Category

namespace Denial

/-- The place of an option in the order. -/
def rank : Denial → Nat
  | warnings => 0
  | unmaintained => 1
  | unsound => 2
  | yanked => 3

theorem rank_injective {a b : Denial} (h : a.rank = b.rank) : a = b := by
  cases a <;> cases b <;> simp_all [rank]

instance : Ord Denial := ⟨compareOn rank⟩

instance : Std.TransOrd Denial := inferInstanceAs (Std.TransCmp (compareOn rank))

instance : Std.LawfulEqOrd Denial where
  eq_of_compare h := rank_injective (Std.LawfulEqOrd.eq_of_compare (α := Nat) h)

instance : Keyword Denial where
  word
    | warnings => "warnings"
    | unmaintained => "unmaintained"
    | unsound => "unsound"
    | yanked => "yanked"
  words := ["warnings", "unmaintained", "unsound", "yanked"]
  ofWord?
    | "warnings" => some warnings
    | "unmaintained" => some unmaintained
    | "unsound" => some unsound
    | "yanked" => some yanked
    | _ => none
  ofWord?_eq_some_iff := by
    intro s a
    constructor
    · intro h
      split at h <;> cases h <;> rfl
    · rintro rfl
      cases a <;> rfl
  mem_words_iff := by
    intro s
    simp only [List.mem_cons, List.not_mem_nil, or_false]
    constructor
    · rintro (rfl | rfl | rfl | rfl) <;> exact ⟨_, rfl⟩
    · rintro ⟨a, h⟩
      split at h <;> simp_all

end Denial

instance : Keyword ReportFormat where
  word
    | .terminal => "terminal"
    | .json => "json"
  words := ["terminal", "json"]
  ofWord?
    | "terminal" => some .terminal
    | "json" => some .json
    | _ => none
  ofWord?_eq_some_iff := by
    intro s a
    constructor
    · intro h
      split at h <;> cases h <;> rfl
    · rintro rfl
      cases a <;> rfl
  mem_words_iff := by
    intro s
    simp only [List.mem_cons, List.not_mem_nil, or_false]
    constructor
    · rintro (rfl | rfl) <;> exact ⟨_, rfl⟩
    · rintro ⟨a, h⟩
      split at h <;> simp_all

end AuditSettings.Policy
