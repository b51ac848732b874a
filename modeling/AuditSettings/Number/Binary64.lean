/-
AuditSettings.Number.Binary64 — numbers with fifty-three significant bits.

A finite number is `significand * 2 ^ exponent` with a sign, where the
significand stays below 2^53 and the exponent between -1074 and 971; it is
written with the largest significand that allows. A decimal numeral is
rounded to the nearest such number and to the even significand when two
are equally near; beyond the largest it becomes infinite. All of this is
exact arithmetic on natural numbers: no machine float takes part.
-/
import AuditSettings.Number.Numeral

namespace AuditSettings.Number

/-- A double-precision number. -/
inductive Binary64 where
  | nan
  | infinity (negative : Bool)
  /-- The number `significand * 2 ^ exponent`, negated if so marked. -/
  | finite (negative : Bool) (significand : Nat) (exponent : Int)
deriving DecidableEq, Repr

/-- The whole number nearest to `n / d`, the even one if two are. -/
def roundDiv (n d : Nat) : Nat :=
  let q := n / d
  let r := n % d
  if 2 * r < d then q
  else if d < 2 * r then q + 1
  else if q % 2 = 0 then q
  else q + 1

/-- The largest `k` with `2 ^ k ≤ n / d`, for positive `n` and `d`. -/
def floorLog2 (n d : Nat) : Int :=
  let k : Int := (n.log2 : Int) - d.log2
  if n * Nat.pow 2 (-k).toNat < d * Nat.pow 2 k.toNat then k - 1 else k

namespace Binary64

/-- The least exponent: below it the significand runs out of bits. -/
def minExponent : Int := -1074

/-- The greatest exponent of a finite number. -/
def maxExponent : Int := 971

/-- Zero, with a sign. -/
def zero (negative : Bool) : Binary64 := .finite negative 0 minExponent

/-- The number nearest to the fraction `n / d`. -/
def ofRatio (negative : Bool) (n d : Nat) : Binary64 :=
  if n = 0 then zero negative
  else
    let q := max (floorLog2 n d - 52) minExponent
    let s := roundDiv (n * Nat.pow 2 (-q).toNat) (d * Nat.pow 2 q.toNat)
    let (s, q) := if s = Nat.pow 2 53 then (Nat.pow 2 52, q + 1) else (s, q)
    if maxExponent < q then .infinity negative else .finite negative s q

/-- The number nearest to what a numeral says. A power of ten that alone
decides the outcome is not worked out: at 10^400 everything but zero is
infinite, and `digits` is below `10 ^ (digits.log2 + 1)`. -/
def ofNumeral : Numeral → Binary64
  | .nan => .nan
  | .infinity negative => .infinity negative
  | .decimal negative digits e =>
    if digits = 0 || e + digits.log2 + 1 < -400 then zero negative
    else if 400 < e then .infinity negative
    else ofRatio negative (digits * Nat.pow 10 e.toNat) (Nat.pow 10 (-e).toNat)

/-- The number that a text writes, if it writes one. -/
def read? (cs : List Char) : Option Binary64 :=
  (Numeral.read? cs).map ofNumeral

/-- Whether a number is zero or below; not so for what is no number. -/
def isNonpositive : Binary64 → Bool
  | .nan => false
  | .infinity negative => negative
  | .finite negative s _ => negative || s == 0

/-- Whether a number lies below a whole number; not so for what is no
number. -/
def isBelow : Binary64 → Nat → Bool
  | .nan, _ => false
  | .infinity negative, _ => negative
  | .finite true s _, n => 0 < s || 0 < n
  | .finite false s q, n => s * Nat.pow 2 q.toNat < n * Nat.pow 2 (-q).toNat

end Binary64
end AuditSettings.Number
