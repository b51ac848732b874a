/-
AuditSettings.Number.Shortest — the shortest decimal that reads back.

Every number stands for the interval of reals that round to it. A grid is
the set of multiples of one power of ten; the coarsest grid that has a
point in the interval gives the decimal with the fewest digits, and of two
such points the nearer is taken, the upper one when they are equally near.
The text is positional throughout: no exponent, no point after a whole
number.
-/
import AuditSettings.Number.Binary64

namespace AuditSettings.Number

/-- The reals that round to `significand * 2 ^ exponent`, in quarters of a
unit in the last place. Below a power of two the neighbours are twice as
close. The ends belong to it when the significand is even. -/
structure Interval where
  lower : Nat
  value : Nat
  upper : Nat
  closed : Bool
  /-- The ends and the value count multiples of `2 ^ exponent`. -/
  exponent : Int

namespace Interval

/-- The interval of a positive number. -/
def around (s : Nat) (q : Int) : Interval where
  lower := if s = Nat.pow 2 52 && Binary64.minExponent < q then 4 * s - 1 else 4 * s - 2
  value := 4 * s
  upper := 4 * s + 2
  closed := s % 2 == 0
  exponent := q - 2

/-- The multiple of `10 ^ k` in the interval that is nearest to its value,
divided by `10 ^ k`. -/
def nearestOn (i : Interval) (k : Int) : Option Nat :=
  let scale := Nat.pow 2 i.exponent.toNat * Nat.pow 10 (-k).toNat
  let step := Nat.pow 10 k.toNat * Nat.pow 2 (-i.exponent).toNat
  let inside (t : Nat) : Bool :=
    if i.closed then i.lower * scale ≤ t * step && t * step ≤ i.upper * scale
    else i.lower * scale < t * step && t * step < i.upper * scale
  let below := i.value * scale / step
  let above := below + 1
  if inside below then
    if inside above && above * step - i.value * scale ≤ i.value * scale - below * step then some above
    else some below
  else if inside above then some above
  else none

/-- The digits and the power of ten of the shortest decimal in the
interval. No finite number is above 10^309, and none needs a grid finer
than 10^-340. -/
def shortest (i : Interval) : Nat × Int :=
  let grids := (List.range 650).map fun (n : Nat) => (309 : Int) - n
  (grids.findSome? fun k => (i.nearestOn k).map (·, k)).getD (0, 0)

end Interval

/-- The number `digits * 10 ^ k` without an exponent. -/
def positional (digits : Nat) (k : Int) : List Char :=
  let ds := Nat.toDigits 10 digits
  let places := (-k).toNat
  if places = 0 then ds ++ List.replicate k.toNat '0'
  else if ds.length ≤ places then '0' :: '.' :: List.replicate (places - ds.length) '0' ++ ds
  else ds.take (ds.length - places) ++ '.' :: ds.drop (ds.length - places)

/-- The text of a number: the fewest digits that read back to it. -/
def Binary64.text : Binary64 → String
  | .nan => "NaN"
  | .infinity negative => if negative then "-inf" else "inf"
  | .finite negative s q =>
    let magnitude :=
      if s = 0 then ['0']
      else
        let (digits, k) := (Interval.around s q).shortest
        positional digits k
    String.ofList (if negative then '-' :: magnitude else magnitude)

end AuditSettings.Number
