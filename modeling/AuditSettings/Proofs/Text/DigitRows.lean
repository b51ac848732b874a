/-
AuditSettings.Proofs.Text.DigitRows — rows of decimal digits.

A digit is one of the ten of ASCII and takes one byte. Any other character
begins with a byte that is the code of no digit, and so a row of digits is told
by its bytes, of which it has as many as characters.
-/
import AuditSettings.Proofs.Text.Decoding
import Mathlib.Tactic.SplitIfs

namespace AuditSettings.Text

/-- Whether a text is digits only, and these of ASCII. -/
def AllDigits (cs : List Char) : Prop := ∀ c ∈ cs, c.isDigit = true

instance (cs : List Char) : Decidable (AllDigits cs) :=
  decidable_of_iff (cs.all Char.isDigit = true) List.all_eq_true

theorem isDigit_iff {c : Char} : c.isDigit = true ↔ 0x30 ≤ c.toNat ∧ c.toNat ≤ 0x39 := by
  simp only [Char.isDigit, Bool.and_eq_true, decide_eq_true_eq, ge_iff_le, UInt32.le_iff_toNat_le]
  rfl

/-! ## Bytes -/

/-- Whether a byte is the code of a digit. -/
def isDigitByte (b : UInt8) : Bool := 0x30 ≤ b && b ≤ 0x39

theorem isDigitByte_iff {b : UInt8} : isDigitByte b = true ↔ 0x30 ≤ b.toNat ∧ b.toNat ≤ 0x39 := by
  simp only [isDigitByte, Bool.and_eq_true, decide_eq_true_eq, UInt8.le_iff_toNat_le]
  rfl

/-- A character of which all bytes are digits is a digit: one that needs more
than a byte begins with a byte that is above them. -/
theorem forall_isDigitByte_iff (c : Char) :
    (∀ b ∈ String.utf8EncodeChar c, isDigitByte b = true) ↔ c.isDigit = true := by
  rw [isDigit_iff]
  simp only [String.utf8EncodeChar, show c.val.toNat = c.toNat from rfl]
  split
  · next hone =>
    rw [List.forall_mem_singleton, isDigitByte_iff, Utf8.toNat_byte (by omega)]
  · next hmore =>
    constructor
    · intro h
      split_ifs at h
      all_goals
        have hfirst := isDigitByte_iff.1 (h _ List.mem_cons_self)
        rw [Utf8.toNat_byte (by omega)] at hfirst
        omega
    · omega

theorem allDigits_encode_iff (cs : List Char) :
    (∀ b ∈ Utf8.encode cs, isDigitByte b = true) ↔ AllDigits cs := by
  simp only [Utf8.encode, List.mem_flatMap, forall_exists_index, and_imp, AllDigits]
  constructor
  · intro h c hc
    exact (forall_isDigitByte_iff c).1 fun b hb => h b c hc hb
  · intro h b c hc hb
    exact (forall_isDigitByte_iff c).2 (h c hc) b hb

/-- A row of digits has as many bytes as characters. -/
theorem length_encode_of_digits {cs : List Char} (h : AllDigits cs) :
    (Utf8.encode cs).length = cs.length := by
  induction cs with
  | nil => rfl
  | cons c cs ih =>
    obtain ⟨hc, hcs⟩ := List.forall_mem_cons.1 h
    have hone : c.utf8Size = 1 := by
      rw [Char.utf8Size_eq_one_iff, UInt32.le_iff_toNat_le]
      exact Nat.le_trans (isDigit_iff.1 hc).2 (by decide)
    rw [Utf8.encode, List.flatMap_cons, List.length_append, String.length_utf8EncodeChar, hone,
      List.length_cons, Nat.add_comm]
    exact congrArg (· + 1) (ih hcs)

end AuditSettings.Text
