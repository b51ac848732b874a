/-
AuditSettings.Proofs.Text.Decoding — what is read off bytes is the longest
text in front of them.

Reading goes character by character and stops where no character begins. A
character that is read is written there: each of the four shapes that
`firstChar?` looks for is the encoding of the character it answers. So the
characters read and the bytes left over are the bytes again
(`encode_decode`), and since every text in front of the bytes is read off
them whole, the characters read are the longest such text
(`isLongestText_decode`). A sequence that is cut short, too long for its
character or a surrogate is left over with all that follows it.
-/
import AuditSettings.Proofs.Text.Encoding
import AuditSettings.Text.Location

namespace AuditSettings.Text.Utf8

variable {b : UInt8} {bytes : List UInt8} {cs ds : List Char} {c : Char} {m n p q : Nat}

/-! ## Single characters -/

/-- A number that is a code point and no surrogate is that of its character. -/
theorem toNat_ofNat (h : n.isValidChar) : (Char.ofNat n).toNat = n := by
  rw [Char.ofNat, dif_pos h]
  show (BitVec.ofNatLT n _).toNat = n
  exact BitVec.toNat_ofNatLT ..

theorem encodeChar_one (hm : m < 128) :
    String.utf8EncodeChar (Char.ofNat m) = [UInt8.ofNat m] := by
  have hm' : m ≤ 127 := by omega
  have hv : (Char.ofNat m).val.toNat = m := toNat_ofNat (.inl (by omega))
  simp only [String.utf8EncodeChar, hv, if_pos hm']

theorem encodeChar_two (hlow : 2 ≤ m) (hm : m < 32) (hn : n < 64) :
    String.utf8EncodeChar (Char.ofNat (m * 64 + n)) =
      [UInt8.ofNat (m + 192), UInt8.ofNat (n + 128)] := by
  have hv : (Char.ofNat (m * 64 + n)).val.toNat = m * 64 + n := toNat_ofNat (.inl (by omega))
  have h₁ : ¬ m * 64 + n ≤ 127 := by omega
  have h₂ : m * 64 + n ≤ 2047 := by omega
  have hm' : (m * 64 + n) / 64 % 32 = m := by omega
  have hn' : (m * 64 + n) % 64 = n := by omega
  simp only [String.utf8EncodeChar, hv, if_neg h₁, if_pos h₂, hm', hn']

theorem encodeChar_three (hm : m < 16) (hn : n < 64) (hp : p < 64)
    (hlow : 0x800 ≤ m * 0x1000 + n * 0x40 + p)
    (hvalid : m * 0x1000 + n * 0x40 + p < 0xd800 ∨ 0xdfff < m * 0x1000 + n * 0x40 + p) :
    String.utf8EncodeChar (Char.ofNat (m * 0x1000 + n * 0x40 + p)) =
      [UInt8.ofNat (m + 224), UInt8.ofNat (n + 128), UInt8.ofNat (p + 128)] := by
  have hv : (Char.ofNat (m * 0x1000 + n * 0x40 + p)).val.toNat = m * 0x1000 + n * 0x40 + p :=
    toNat_ofNat (hvalid.imp_right fun h => ⟨h, by omega⟩)
  have h₁ : ¬ m * 0x1000 + n * 0x40 + p ≤ 127 := by omega
  have h₂ : ¬ m * 0x1000 + n * 0x40 + p ≤ 2047 := by omega
  have h₃ : m * 0x1000 + n * 0x40 + p ≤ 65535 := by omega
  have hm' : (m * 0x1000 + n * 0x40 + p) / 4096 % 16 = m := by omega
  have hn' : (m * 0x1000 + n * 0x40 + p) / 64 % 64 = n := by omega
  have hp' : (m * 0x1000 + n * 0x40 + p) % 64 = p := by omega
  simp only [String.utf8EncodeChar, hv, if_neg h₁, if_neg h₂, if_pos h₃, hm', hn', hp']

theorem encodeChar_four (hn : n < 64) (hp : p < 64) (hq : q < 64)
    (hlow : 0x10000 ≤ m * 0x40000 + n * 0x1000 + p * 0x40 + q)
    (hhigh : m * 0x40000 + n * 0x1000 + p * 0x40 + q ≤ 0x10ffff) :
    String.utf8EncodeChar (Char.ofNat (m * 0x40000 + n * 0x1000 + p * 0x40 + q)) =
      [UInt8.ofNat (m + 240), UInt8.ofNat (n + 128), UInt8.ofNat (p + 128),
        UInt8.ofNat (q + 128)] := by
  have hv : (Char.ofNat (m * 0x40000 + n * 0x1000 + p * 0x40 + q)).val.toNat =
      m * 0x40000 + n * 0x1000 + p * 0x40 + q := toNat_ofNat (.inr ⟨by omega, by omega⟩)
  have h₁ : ¬ m * 0x40000 + n * 0x1000 + p * 0x40 + q ≤ 127 := by omega
  have h₂ : ¬ m * 0x40000 + n * 0x1000 + p * 0x40 + q ≤ 2047 := by omega
  have h₃ : ¬ m * 0x40000 + n * 0x1000 + p * 0x40 + q ≤ 65535 := by omega
  have hm' : (m * 0x40000 + n * 0x1000 + p * 0x40 + q) / 262144 % 8 = m := by omega
  have hn' : (m * 0x40000 + n * 0x1000 + p * 0x40 + q) / 4096 % 64 = n := by omega
  have hp' : (m * 0x40000 + n * 0x1000 + p * 0x40 + q) / 64 % 64 = p := by omega
  have hq' : (m * 0x40000 + n * 0x1000 + p * 0x40 + q) % 64 = q := by omega
  simp only [String.utf8EncodeChar, hv, if_neg h₁, if_neg h₂, if_neg h₃, hm', hn', hp', hq']

/-- A byte that continues a character is told by the bits that it carries. -/
theorem byte_of_isContinuation (h : isContinuation b = true) :
    payload b < 64 ∧ UInt8.ofNat (payload b + 128) = b := by
  simp only [isContinuation, Bool.and_eq_true, decide_eq_true_eq, UInt8.le_iff_toNat_le] at h
  obtain ⟨hlow, hhigh⟩ := h
  have hlow : 128 ≤ b.toNat := hlow
  have hhigh : b.toNat ≤ 191 := hhigh
  have hbits : payload b + 128 = b.toNat := Nat.sub_add_cancel hlow
  refine ⟨by omega, ?_⟩
  rw [hbits, UInt8.ofNat_toNat]

/-- A byte that leads a character is told by what it carries beside its mark. -/
theorem byte_of_le {low : Nat} (h : low ≤ b.toNat) :
    UInt8.ofNat (b.toNat - low + low) = b := by
  rw [Nat.sub_add_cancel h, UInt8.ofNat_toNat]

/-- A character that is read off the front of some bytes is written there. -/
theorem exists_of_firstChar? (h : firstChar? bytes = some (c, n)) :
    ∃ rest, bytes = String.utf8EncodeChar c ++ rest ∧
      (String.utf8EncodeChar c).length = n + 1 := by
  cases bytes with
  | nil => cases h
  | cons b bs =>
    have hlead {low high : UInt8} (hb : (low ≤ b && b ≤ high) = true) :
        low.toNat ≤ b.toNat ∧ b.toNat ≤ high.toNat := by
      simpa [UInt8.le_iff_toNat_le] using hb
    unfold firstChar? at h
    simp only at h
    split at h
    · next hb =>
      -- one byte
      have hb : b.toNat < 128 := UInt8.lt_iff_toNat_lt.1 hb
      cases h
      rw [encodeChar_one hb, UInt8.ofNat_toNat]
      exact ⟨bs, rfl, rfl⟩
    split at h
    · next hb =>
      have hb : 194 ≤ b.toNat ∧ b.toNat ≤ 223 := hlead hb
      split at h
      · next b₁ rest =>
        split at h
        · next h₁ =>
          obtain ⟨hn, hb₁⟩ := byte_of_isContinuation h₁
          obtain ⟨rfl, rfl⟩ := Prod.mk.inj (Option.some.inj h)
          have hchar := encodeChar_two (m := b.toNat - 192) (by omega) (by omega) hn
          rw [byte_of_le (by omega), hb₁] at hchar
          rw [hchar]
          exact ⟨rest, rfl, rfl⟩
        · cases h
      · cases h
    split at h
    · next hb =>
      have hb : 224 ≤ b.toNat ∧ b.toNat ≤ 239 := hlead hb
      split at h
      · next b₁ b₂ rest =>
        split at h
        · next hall =>
          simp only [Bool.and_eq_true, decide_eq_true_eq, Bool.not_eq_true', Bool.and_eq_false_iff,
            decide_eq_false_iff_not, Nat.not_le] at hall
          obtain ⟨⟨⟨h₁, h₂⟩, hlow⟩, hvalid⟩ := hall
          obtain ⟨hn, hb₁⟩ := byte_of_isContinuation h₁
          obtain ⟨hp, hb₂⟩ := byte_of_isContinuation h₂
          obtain ⟨rfl, rfl⟩ := Prod.mk.inj (Option.some.inj h)
          have hchar := encodeChar_three (m := b.toNat - 224) (by omega) hn hp hlow hvalid
          rw [byte_of_le hb.1, hb₁, hb₂] at hchar
          rw [hchar]
          exact ⟨rest, rfl, rfl⟩
        · cases h
      · cases h
    split at h
    · next hb =>
      have hb : 240 ≤ b.toNat ∧ b.toNat ≤ 244 := hlead hb
      split at h
      · next b₁ b₂ b₃ rest =>
        split at h
        · next hall =>
          simp only [Bool.and_eq_true, decide_eq_true_eq] at hall
          obtain ⟨⟨⟨⟨h₁, h₂⟩, h₃⟩, hlow⟩, hhigh⟩ := hall
          obtain ⟨hn, hb₁⟩ := byte_of_isContinuation h₁
          obtain ⟨hp, hb₂⟩ := byte_of_isContinuation h₂
          obtain ⟨hq, hb₃⟩ := byte_of_isContinuation h₃
          obtain ⟨rfl, rfl⟩ := Prod.mk.inj (Option.some.inj h)
          have hchar := encodeChar_four (m := b.toNat - 240) hn hp hq hlow hhigh
          rw [byte_of_le hb.1, hb₁, hb₂, hb₃] at hchar
          rw [hchar]
          exact ⟨rest, rfl, rfl⟩
        · cases h
      · cases h
    · cases h

/-! ## Texts -/

theorem length_encode (cs : List Char) : (encode cs).length = byteCount cs := by
  induction cs with
  | nil => rfl
  | cons c cs ih =>
    rw [encode, List.flatMap_cons, List.length_append, String.length_utf8EncodeChar, byteCount, ← ih]
    rfl

/-- What is read off some bytes and what is left of them are the bytes. -/
theorem encode_decodeFrom (bytes : List UInt8) (inside : Nat) :
    encode (decodeFrom inside bytes).1 ++ (decodeFrom inside bytes).2 = bytes.drop inside := by
  induction bytes generalizing inside with
  | nil => cases inside <;> rfl
  | cons b bs ih =>
    cases inside with
    | succ inside => exact ih inside
    | zero =>
      rw [decodeFrom]
      split
      · rfl
      · next c more hfirst =>
        obtain ⟨rest, hbytes, hlength⟩ := exists_of_firstChar? hfirst
        have hrest : (b :: bs).drop (more + 1) = rest := by
          rw [hbytes, ← hlength, List.drop_left]
        show encode (c :: (decodeFrom more bs).1) ++ (decodeFrom more bs).2 = b :: bs
        rw [encode, List.flatMap_cons, List.append_assoc, ← encode, ih more, hbytes, ← hrest]
        rfl

theorem encode_decode (bytes : List UInt8) :
    encode (decode bytes).1 ++ (decode bytes).2 = bytes :=
  encode_decodeFrom bytes 0

/-- Bytes are those of a text exactly when all of them are read. -/
theorem exists_encode_eq_iff : (∃ cs, encode cs = bytes) ↔ (decode bytes).2 = [] := by
  constructor
  · intro h
    obtain ⟨cs, rfl⟩ := h
    rw [decode_encode]
  · intro h
    refine ⟨(decode bytes).1, ?_⟩
    have hall := encode_decode bytes
    rwa [h, List.append_nil] at hall

/-! ## The longest front that is a text -/

/-- Whether a text is the longest that stands in front of some bytes: its
own bytes do, and whatever else does is a front of it. -/
structure IsLongestText (cs : List Char) (bytes : List UInt8) : Prop where
  in_front : encode cs <+: bytes
  longest : ∀ ds, encode ds <+: bytes → ds <+: cs

/-- There is one such text at the most. -/
theorem IsLongestText.unique (h : IsLongestText cs bytes) (h' : IsLongestText ds bytes) :
    cs = ds := by
  have hle := h'.longest cs h.in_front
  have hge := h.longest ds h'.in_front
  exact hle.eq_of_length (Nat.le_antisymm hle.length_le hge.length_le)

/-- What is read off some bytes is the longest text in front of them. -/
theorem isLongestText_decode (bytes : List UInt8) : IsLongestText (decode bytes).1 bytes := by
  refine ⟨⟨_, encode_decode bytes⟩, ?_⟩
  intro ds hds
  obtain ⟨rest, rfl⟩ := hds
  rw [decode_encode_append]
  exact List.prefix_append _ _

end AuditSettings.Text.Utf8
