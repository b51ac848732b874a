/-
AuditSettings.Text.Utf8 — the characters that a sequence of bytes holds.

`firstChar?` reads one character off the front: the shortest form only, no
surrogate and nothing above U+10FFFF. `decode` reads as many as it can and
hands back the bytes at which it had to stop, so the bytes are well formed
exactly when nothing is left, and otherwise the characters read are the
longest prefix that is.
-/

namespace AuditSettings.Text.Utf8

/-- Whether a byte continues a character begun before it. -/
def isContinuation (b : UInt8) : Bool := 0x80 ≤ b && b ≤ 0xbf

/-- The six bits that a continuation byte carries. -/
def payload (b : UInt8) : Nat := b.toNat - 0x80

/-- The first character of the bytes and the number of bytes that follow
its first one, if the bytes begin with a character. -/
def firstChar? : List UInt8 → Option (Char × Nat)
  | [] => none
  | b :: bs =>
    if b < 0x80 then some (Char.ofNat b.toNat, 0)
    else if 0xc2 ≤ b && b ≤ 0xdf then
      match bs with
      | b₁ :: _ =>
        if isContinuation b₁ then
          some (Char.ofNat ((b.toNat - 0xc0) * 0x40 + payload b₁), 1)
        else none
      | _ => none
    else if 0xe0 ≤ b && b ≤ 0xef then
      match bs with
      | b₁ :: b₂ :: _ =>
        let n := (b.toNat - 0xe0) * 0x1000 + payload b₁ * 0x40 + payload b₂
        if isContinuation b₁ && isContinuation b₂ && 0x800 ≤ n && !(0xd800 ≤ n && n ≤ 0xdfff) then
          some (Char.ofNat n, 2)
        else none
      | _ => none
    else if 0xf0 ≤ b && b ≤ 0xf4 then
      match bs with
      | b₁ :: b₂ :: b₃ :: _ =>
        let n := (b.toNat - 0xf0) * 0x40000 + payload b₁ * 0x1000 + payload b₂ * 0x40 + payload b₃
        if isContinuation b₁ && isContinuation b₂ && isContinuation b₃ &&
            0x10000 ≤ n && n ≤ 0x10ffff then
          some (Char.ofNat n, 3)
        else none
      | _ => none
    else none

/-- The characters at the front of the bytes, once `inside` bytes of the
character before have been passed, with the bytes that hold no further
character. -/
def decodeFrom : (inside : Nat) → List UInt8 → List Char × List UInt8
  | _, [] => ([], [])
  | inside + 1, _ :: bs => decodeFrom inside bs
  | 0, b :: bs =>
    match firstChar? (b :: bs) with
    | none => ([], b :: bs)
    | some (c, more) =>
      let (cs, rest) := decodeFrom more bs
      (c :: cs, rest)

/-- The longest well-formed front of the bytes as characters, with the
bytes after it. -/
def decode (bytes : List UInt8) : List Char × List UInt8 := decodeFrom 0 bytes

/-- The bytes of a text. -/
def encode (cs : List Char) : List UInt8 := cs.flatMap String.utf8EncodeChar

end AuditSettings.Text.Utf8
