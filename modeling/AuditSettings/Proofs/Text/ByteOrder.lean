/-
AuditSettings.Proofs.Text.ByteOrder — texts in the order of their bytes.

Texts are compared character by character. UTF-8 is made so that comparing
their bytes comes to the same: a character with more bytes begins with a
greater one, and of two characters with as many the bytes carry the number
from its highest bits down. So the bytes of two characters differ before
either of them ends, whatever follows (`char_lt_char`), and the first
characters in which two texts differ decide (`encode_lt_encode`).
-/
import AuditSettings.Proofs.Text.Encoding
import Mathlib.Tactic.SplitIfs

namespace AuditSettings.Text.Utf8

/-- Rows of bytes are compared at the first, and then after it. -/
theorem byte_cons_lt_iff {m n : Nat} (hm : m < 256) (hn : n < 256) {xs ys : List UInt8} :
    UInt8.ofNat m :: xs < UInt8.ofNat n :: ys ↔ m < n ∨ m = n ∧ xs < ys := by
  rw [List.cons_lt_cons_iff, UInt8.lt_iff_toNat_lt, ← UInt8.toNat_inj, toNat_byte hm, toNat_byte hn]

/-- The bytes of a lesser character come first, whatever follows. -/
theorem char_lt_char {c d : Char} (h : c < d) (xs ys : List UInt8) :
    String.utf8EncodeChar c ++ xs < String.utf8EncodeChar d ++ ys := by
  have hlt : c.toNat < d.toNat := h
  have hd : d.toNat < 0x110000 := by
    rcases d.valid with hd | ⟨-, hd⟩
    · exact Nat.lt_trans hd (by decide)
    · exact hd
  simp only [String.utf8EncodeChar, show c.val.toNat = c.toNat from rfl,
    show d.val.toNat = d.toNat from rfl]
  -- a lesser number has a lesser digit base 64, below digits that are the same
  have digit (m n : Nat) : m < n → m / 64 < n / 64 ∨ m / 64 = n / 64 ∧ m % 64 < n % 64 := by omega
  have h₀ := digit c.toNat d.toNat
  have h₁ := digit (c.toNat / 64) (d.toNat / 64)
  have h₂ := digit (c.toNat / 4096) (d.toNat / 4096)
  simp only [Nat.div_div_eq_div_mul, Nat.reduceMul] at h₁ h₂
  have hfirst : c.toNat / 262144 % 8 = c.toNat / 262144 := by omega
  have hfirst' : d.toNat / 262144 % 8 = d.toNat / 262144 := by omega
  -- one goal for any two numbers of bytes; the first byte decides unless they are the same
  split_ifs <;> simp (disch := omega) only [List.cons_append, List.nil_append, byte_cons_lt_iff,
    hfirst, hfirst'] <;> omega

/-- Texts are in the order of their bytes. -/
theorem encode_lt_encode : ∀ {cs ds : List Char}, cs < ds → encode cs < encode ds
  | _, [], h => absurd h (List.not_lt_nil _)
  | [], d :: ds, _ => by
      obtain ⟨b, bs, hbytes⟩ := List.exists_cons_of_length_pos (l := String.utf8EncodeChar d) (by
        rw [String.length_utf8EncodeChar]
        exact d.utf8Size_pos)
      rw [encode, encode, List.flatMap_cons, hbytes]
      exact List.nil_lt_cons _ _
  | c :: cs, d :: ds, h => by
      rcases List.cons_lt_cons_iff.1 h with hlt | ⟨rfl, hrest⟩
      · exact char_lt_char hlt (encode cs) (encode ds)
      · rw [encode, encode, List.flatMap_cons, List.flatMap_cons]
        exact List.append_left_lt (encode_lt_encode hrest)

/-- Strings that are compared are in the order of their bytes. -/
theorem encode_lt_of_compare {a b : String} (h : compare a b = .lt) :
    encode a.toList < encode b.toList := by
  have hlt : a < b := compareOfLessAndEq_eq_lt.1 h
  exact encode_lt_encode hlt

end AuditSettings.Text.Utf8
