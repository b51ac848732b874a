/-
AuditSettings.Proofs.Text.Offsets — the location of a byte of a text.

A character begins at the offset that the bytes of the characters in front of
it count to (`IsBoundary`), and all of its bytes have its location. A step
through a text moves on in lines and columns as it does in bytes, and so the
locations of characters stand in the order of their offsets
(`Location.atOffset_lt_iff`): the end of the text comes last, and no two
characters share a location.
-/
import AuditSettings.Text.Location

namespace AuditSettings.Text

variable {cs front : List Char} {m n : Nat}

/-! ## Stretches of text -/

theorem lt_after {cs : List Char} (h : cs ≠ []) : ∀ l : Location, l < l.after cs := by
  induction cs with
  | nil => exact absurd rfl h
  | cons c cs ih =>
    intro l
    cases cs with
    | nil => exact Location.lt_advance l c
    | cons d ds => exact Location.lt_trans (Location.lt_advance l c) (ih (by simp) _)

theorem byteCount_append (cs ds : List Char) :
    byteCount (cs ++ ds) = byteCount cs + byteCount ds := by
  induction cs with
  | nil => simp [byteCount]
  | cons c cs ih => rw [List.cons_append, byteCount, byteCount, ih, Nat.add_assoc]

/-! ## Boundaries -/

/-- Whether a character of a text begins at an offset, or the text ends
there. -/
def IsBoundary (cs : List Char) (n : Nat) : Prop := ∃ front, front <+: cs ∧ byteCount front = n

/-- Of two fronts of one text the one with fewer bytes goes on to the
other. -/
theorem exists_append_of_byteCount_lt {u v : List Char} (hu : u <+: cs) (hv : v <+: cs)
    (h : byteCount u < byteCount v) : ∃ w, w ≠ [] ∧ v = u ++ w := by
  rcases List.prefix_or_prefix_of_prefix hu hv with ⟨w, hw⟩ | ⟨w, hw⟩
  · refine ⟨w, ?_, hw.symm⟩
    rintro rfl
    rw [← hw, List.append_nil] at h
    exact Nat.lt_irrefl _ h
  · rw [← hw, byteCount_append] at h
    omega

namespace Location

/-- The byte after some characters stands where they end, whatever
follows. -/
theorem atOffset_byteCount (l : Location) (cs ds : List Char) :
    l.atOffset (cs ++ ds) (byteCount cs) = l.after cs := by
  have hsum := atOffset_append l cs ds 0
  rw [Nat.add_zero] at hsum
  rw [hsum]
  cases ds with
  | nil => rfl
  | cons d ds => exact if_pos d.utf8Size_pos

theorem atOffset_of_front (l : Location) (h : front <+: cs) :
    l.atOffset cs (byteCount front) = l.after front := by
  obtain ⟨rest, rfl⟩ := h
  exact atOffset_byteCount l front rest

/-- All bytes of a character have its location. -/
theorem atOffset_inside (l : Location) (front : List Char) (c : Char) (rest : List Char) {k : Nat}
    (hk : k < c.utf8Size) :
    l.atOffset (front ++ c :: rest) (byteCount front + k) = l.after front := by
  rw [atOffset_append, atOffset, if_pos hk]

theorem atOffset_lt_atOffset (l : Location) (hm : IsBoundary cs m) (hn : IsBoundary cs n)
    (h : m < n) : l.atOffset cs m < l.atOffset cs n := by
  obtain ⟨u, hu, rfl⟩ := hm
  obtain ⟨v, hv, rfl⟩ := hn
  obtain ⟨w, hw, rfl⟩ := exists_append_of_byteCount_lt hu hv h
  rw [atOffset_of_front l hu, atOffset_of_front l hv, after_append]
  exact lt_after hw _

/-- Characters are in the order of their offsets. -/
theorem atOffset_lt_iff (l : Location) (hm : IsBoundary cs m) (hn : IsBoundary cs n) :
    l.atOffset cs m < l.atOffset cs n ↔ m < n := by
  constructor
  · intro h
    rcases Nat.lt_trichotomy m n with hlt | rfl | hgt
    · exact hlt
    · exact absurd h (not_lt_self _)
    · exact absurd h (not_lt_of_lt (atOffset_lt_atOffset l hn hm hgt))
  · exact atOffset_lt_atOffset l hm hn

/-- No two characters share a location. -/
theorem atOffset_inj (l : Location) (hm : IsBoundary cs m) (hn : IsBoundary cs n) :
    l.atOffset cs m = l.atOffset cs n ↔ m = n := by
  constructor
  · intro h
    have hlt : ¬ m < n := by
      rw [← atOffset_lt_iff l hm hn, h]
      exact not_lt_self _
    have hgt : ¬ n < m := by
      rw [← atOffset_lt_iff l hn hm, h]
      exact not_lt_self _
    omega
  · rintro rfl
    rfl

/-- Of two characters the later one is that of the greater offset. -/
theorem later_atOffset (l : Location) (hm : IsBoundary cs m) (hn : IsBoundary cs n) :
    (l.atOffset cs m).later (l.atOffset cs n) = l.atOffset cs (max m n) := by
  unfold later
  split
  · next h =>
    rw [atOffset_lt_iff l hm hn] at h
    rw [Nat.max_eq_right (Nat.le_of_lt h)]
  · next h =>
    rw [atOffset_lt_iff l hm hn, Nat.not_lt] at h
    rw [Nat.max_eq_left h]

end Location
end AuditSettings.Text
