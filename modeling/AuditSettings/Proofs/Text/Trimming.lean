/-
AuditSettings.Proofs.Text.Trimming — what is left of a text without the
white space around it.

A text is white space, then what `trim` leaves of it, then white space again
(`exists_trim`), and what is left neither begins nor ends with any
(`isTrimmed_trim`). More white space at the ends makes no difference
(`trim_pad`).
-/
import AuditSettings.Text.Blank
import Mathlib.Data.List.DropRight
import Mathlib.Data.List.TakeWhile

namespace AuditSettings.Text

variable {w w₁ w₂ cs : List Char}

/-- Whether a text is white space only. -/
def AllBlank (w : List Char) : Prop := ∀ c ∈ w, isBlank c = true

instance : Decidable (AllBlank w) := decidable_of_iff (w.all isBlank = true) List.all_eq_true

/-- Whether a text neither begins nor ends with white space. -/
structure IsTrimmed (cs : List Char) : Prop where
  head : ∀ h : cs ≠ [], ¬ isBlank (cs.head h)
  last : ∀ h : cs ≠ [], ¬ isBlank (cs.getLast h)

theorem AllBlank.reverse (h : AllBlank w) : AllBlank w.reverse := by
  intro c hc
  exact h c (List.mem_reverse.1 hc)

theorem AllBlank.not_mem {c : Char} (h : AllBlank w) (hc : isBlank c = false) : c ∉ w := by
  intro hmem
  rw [h c hmem] at hc
  cases hc

theorem trimEnd_eq (cs : List Char) : trimEnd cs = cs.rdropWhile isBlank := rfl

/-! ## More white space -/

theorem trimEnd_append (h : AllBlank w) (cs : List Char) : trimEnd (cs ++ w) = trimEnd cs := by
  rw [trimEnd, List.reverse_append, List.dropWhile_append_of_pos h.reverse, trimEnd]

theorem trim_append_left (h : AllBlank w) (cs : List Char) : trim (w ++ cs) = trim cs := by
  rw [trim, List.dropWhile_append_of_pos h, trim]

theorem trim_append_right (h : AllBlank w) (cs : List Char) : trim (cs ++ w) = trim cs := by
  rw [trim, List.dropWhile_append]
  split
  · next hempty =>
    have hw : w.dropWhile isBlank = [] := List.dropWhile_eq_nil_iff.2 h
    rw [hw, trim, List.isEmpty_iff.1 hempty]
  · rw [trimEnd_append h, trim]

/-- White space around a text makes no difference. -/
theorem trim_pad (h₁ : AllBlank w₁) (h₂ : AllBlank w₂) (cs : List Char) :
    trim (w₁ ++ cs ++ w₂) = trim cs := by
  rw [trim_append_right h₂, trim_append_left h₁]

/-! ## The part that is left -/

/-- Where there is no white space at the ends, all of the text is left. -/
theorem trim_eq_self (h : IsTrimmed cs) : trim cs = cs := by
  have hfront : cs.dropWhile isBlank = cs := by
    refine List.dropWhile_eq_self_iff.2 fun hpos => ?_
    rw [← List.head_eq_getElem]
    exact h.head (List.ne_nil_of_length_pos hpos)
  rw [trim, hfront, trimEnd_eq, List.rdropWhile_eq_self_iff]
  exact h.last

/-- Only white space is taken off. -/
theorem exists_trim (cs : List Char) :
    ∃ w₁ w₂, AllBlank w₁ ∧ AllBlank w₂ ∧ cs = w₁ ++ trim cs ++ w₂ := by
  refine ⟨cs.takeWhile isBlank, (cs.dropWhile isBlank).rtakeWhile isBlank, ?_, ?_, ?_⟩
  · intro c hc
    exact List.mem_takeWhile_imp hc
  · intro c hc
    exact List.mem_rtakeWhile_imp hc
  · rw [trim, trimEnd_eq, List.append_assoc, List.rdropWhile_append_rtakeWhile,
      List.takeWhile_append_dropWhile]

/-- All white space at the ends is taken off. -/
theorem isTrimmed_trim (cs : List Char) : IsTrimmed (trim cs) := by
  refine ⟨fun h => ?_, fun h => List.rdropWhile_last_not _ _ h⟩
  have hpre : trim cs <+: cs.dropWhile isBlank := List.rdropWhile_prefix _ _
  rw [hpre.head h, Bool.not_eq_true]
  exact List.head_dropWhile_not isBlank _

end AuditSettings.Text
