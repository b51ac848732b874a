/-
AuditSettings.Proofs.Text.Encoding — the bytes of a text are read as that
text.

A character takes one to four bytes, and each of the four shapes is read
back by the branch of `firstChar?` that looks for it. So a text in front of
any bytes is read off them whole, and what follows it is read as if it
stood alone (`decode_encode_append`).
-/
import AuditSettings.Text.Utf8

namespace AuditSettings.Text.Utf8

variable {b b₁ b₂ b₃ : UInt8} {m n p q : Nat}

/-! ## Single characters -/

theorem toNat_byte (h : n < 256) : (UInt8.ofNat n).toNat = n :=
  UInt8.toNat_ofNat_of_lt (by simpa [UInt8.size] using h)

/-- A byte that continues a character carries six bits. -/
theorem continuation_of_toNat (hb : b.toNat = n + 128) (hn : n < 64) :
    isContinuation b = true ∧ payload b = n := by
  constructor
  · simp only [isContinuation, Bool.and_eq_true, decide_eq_true_eq, UInt8.le_iff_toNat_le, hb]
    constructor
    · show 128 ≤ n + 128
      omega
    · show n + 128 ≤ 191
      omega
  · unfold payload
    omega

theorem firstChar?_one (rest : List UInt8) (hb : b.toNat = m) (hm : m < 128) :
    firstChar? (b :: rest) = some (Char.ofNat m, 0) := by
  simp [firstChar?, UInt8.lt_iff_toNat_lt, hb, hm]

theorem firstChar?_two (rest : List UInt8) (hb : b.toNat = m + 192) (hlow : 2 ≤ m) (hm : m < 32)
    (hb₁ : b₁.toNat = n + 128) (hn : n < 64) :
    firstChar? (b :: b₁ :: rest) = some (Char.ofNat (m * 64 + n), 1) := by
  have hm' : m ≤ 31 := by omega
  simp [firstChar?, UInt8.lt_iff_toNat_lt, UInt8.le_iff_toNat_le, hb, hlow, hm',
    continuation_of_toNat hb₁ hn]

theorem firstChar?_three (rest : List UInt8) (hb : b.toNat = m + 224) (hm : m < 16)
    (hb₁ : b₁.toNat = n + 128) (hn : n < 64) (hb₂ : b₂.toNat = p + 128) (hp : p < 64)
    (hlow : 0x800 ≤ m * 0x1000 + n * 0x40 + p)
    (hvalid : m * 0x1000 + n * 0x40 + p < 0xd800 ∨ 0xdfff < m * 0x1000 + n * 0x40 + p) :
    firstChar? (b :: b₁ :: b₂ :: rest) = some (Char.ofNat (m * 0x1000 + n * 0x40 + p), 2) := by
  have hm' : m ≤ 15 := by omega
  simp [firstChar?, UInt8.lt_iff_toNat_lt, UInt8.le_iff_toNat_le, hb, hm', hlow, hvalid,
    continuation_of_toNat hb₁ hn, continuation_of_toNat hb₂ hp]

theorem firstChar?_four (rest : List UInt8) (hb : b.toNat = m + 240) (hm : m ≤ 4)
    (hb₁ : b₁.toNat = n + 128) (hn : n < 64) (hb₂ : b₂.toNat = p + 128) (hp : p < 64)
    (hb₃ : b₃.toNat = q + 128) (hq : q < 64)
    (hlow : 0x10000 ≤ m * 0x40000 + n * 0x1000 + p * 0x40 + q)
    (hhigh : m * 0x40000 + n * 0x1000 + p * 0x40 + q ≤ 0x10ffff) :
    firstChar? (b :: b₁ :: b₂ :: b₃ :: rest) =
      some (Char.ofNat (m * 0x40000 + n * 0x1000 + p * 0x40 + q), 3) := by
  simp [firstChar?, UInt8.lt_iff_toNat_lt, UInt8.le_iff_toNat_le, hb, hm, hlow, hhigh,
    continuation_of_toNat hb₁ hn, continuation_of_toNat hb₂ hp, continuation_of_toNat hb₃ hq]

/-- The bytes of a character are read as that character. -/
theorem firstChar?_encode (c : Char) (rest : List UInt8) :
    firstChar? (String.utf8EncodeChar c ++ rest) =
      some (c, (String.utf8EncodeChar c).length - 1) := by
  have hvalid : c.toNat < 0xd800 ∨ 0xdfff < c.toNat ∧ c.toNat < 0x110000 := c.valid
  have hof {v : Nat} (hv : v = c.toNat) : Char.ofNat v = c := by rw [hv, Char.ofNat_toNat]
  simp only [String.utf8EncodeChar, show c.val.toNat = c.toNat from rfl]
  split
  · next h₁ =>
    rw [List.singleton_append, firstChar?_one rest (toNat_byte (by omega)) (by omega), hof rfl]
    rfl
  · split
    · next h₁ h₂ =>
      rw [List.cons_append, List.singleton_append, firstChar?_two rest (toNat_byte (by omega))
        (by omega) (by omega) (toNat_byte (by omega)) (by omega), hof (by omega)]
      rfl
    · split
      · next h₁ h₂ h₃ =>
        rw [List.cons_append, List.cons_append, List.singleton_append,
          firstChar?_three rest (toNat_byte (by omega)) (by omega) (toNat_byte (by omega))
            (by omega) (toNat_byte (by omega)) (by omega) (by omega) (by omega), hof (by omega)]
        rfl
      · next h₁ h₂ h₃ =>
        rw [List.cons_append, List.cons_append, List.cons_append, List.singleton_append,
          firstChar?_four rest (toNat_byte (by omega)) (by omega) (toNat_byte (by omega))
            (by omega) (toNat_byte (by omega)) (by omega) (toNat_byte (by omega)) (by omega)
            (by omega) (by omega), hof (by omega)]
        rfl

/-! ## Texts -/

/-- Bytes of the character read last are passed over. -/
theorem decodeFrom_append (bs rest : List UInt8) :
    decodeFrom bs.length (bs ++ rest) = decodeFrom 0 rest := by
  induction bs with
  | nil => rfl
  | cons b bs ih => exact ih

/-- A text in front of some bytes is read off them. -/
theorem decode_encode_append (cs : List Char) (rest : List UInt8) :
    decode (encode cs ++ rest) = (cs ++ (decode rest).1, (decode rest).2) := by
  induction cs with
  | nil => rfl
  | cons c cs ih =>
    obtain ⟨b, bs, hbytes⟩ := List.exists_cons_of_length_pos (l := String.utf8EncodeChar c) (by
      rw [String.length_utf8EncodeChar]
      exact c.utf8Size_pos)
    have hfirst := firstChar?_encode c (encode cs ++ rest)
    rw [hbytes, List.cons_append] at hfirst
    have hencode : encode (c :: cs) ++ rest = b :: (bs ++ (encode cs ++ rest)) := by
      simp [encode, hbytes]
    rw [decode, hencode, decodeFrom, hfirst]
    simp only [List.length_cons, Nat.add_sub_cancel, decodeFrom_append]
    rw [← decode, ih]
    rfl

/-- The bytes of a text are read as that text, and none is left. -/
theorem decode_encode (cs : List Char) : decode (encode cs) = (cs, []) := by
  have h := decode_encode_append cs []
  rwa [List.append_nil, show decode [] = ([], []) from rfl, List.append_nil] at h

end AuditSettings.Text.Utf8
