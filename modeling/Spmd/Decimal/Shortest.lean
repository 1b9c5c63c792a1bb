/-!
# Shortest decimals

The decimal with the fewest digits that reads back as a given binary float. A float stands for all reals
that round to it: an interval around `significand * 2 ^ exponent` that reaches half way to both neighbours.
Its ends belong to it exactly if the significand is even, since a tie rounds to even. For one digit, two
digits and so on, the two points of that decimal grid around the float are tested against the interval in
exact arithmetic, and the first grid with a hit gives the answer.
-/

namespace Spmd.Decimal

/-- The positive number `significand * 2 ^ exponent`. -/
structure Binary where
  significand : Nat
  exponent : Int
  /-- The neighbour below is only half as far as the one above: the float is a power of two. -/
  narrow : Bool
deriving DecidableEq, Repr

/-- The number `digits * 10 ^ exponent`. -/
structure Digits where
  digits : Nat
  exponent : Int
deriving DecidableEq, Repr

/-- Number of decimal digits. -/
def width (n : Nat) : Nat := (Nat.toDigits 10 n).length

namespace Binary

def numerator (b : Binary) : Nat := b.significand <<< b.exponent.toNat

def denominator (b : Binary) : Nat := 1 <<< (-b.exponent).toNat

/-- Distance to the neighbour above, in units of one over the denominator. -/
def spacing (b : Binary) : Nat := 1 <<< b.exponent.toNat

/-- The power of ten of the leading digit. -/
def leading (b : Binary) : Int :=
  if b.denominator ≤ b.numerator then (width (b.numerator / b.denominator) : Int) - 1
  else -(width (b.denominator / b.numerator))

/-- Whether `digits * 10 ^ exponent` lies in the interval of reals that round to the float. -/
def admits (b : Binary) (d : Digits) : Bool :=
  -- both numbers over the common denominator `denominator * 10 ^ (-exponent)`
  let float := b.numerator * Nat.pow 10 (-d.exponent).toNat
  let decimal := d.digits * Nat.pow 10 d.exponent.toNat * b.denominator
  let gap := b.spacing * Nat.pow 10 (-d.exponent).toNat
  let even := b.significand % 2 == 0
  if float ≤ decimal then
    let off := 2 * (decimal - float)
    off < gap || (even && off == gap)
  else
    let off := 4 * (float - decimal)
    let reach := if b.narrow then gap else 2 * gap
    off < reach || (even && off == reach)

/-- Twice the distance from a decimal to the float, over the common denominator of that grid. -/
def offset (b : Binary) (d : Digits) : Nat :=
  let float := b.numerator * Nat.pow 10 (-d.exponent).toNat
  let decimal := d.digits * Nat.pow 10 d.exponent.toNat * b.denominator
  (decimal - float) + (float - decimal)

/-- The nearest decimal of `n` digits, if one reads back as the float. Of two at the same distance the
greater is taken. -/
def nearest? (b : Binary) (n : Nat) : Option Digits :=
  let exponent := b.leading - (n - 1 : Nat)
  let below := b.numerator * Nat.pow 10 (-exponent).toNat / (b.denominator * Nat.pow 10 exponent.toNat)
  let low : Digits := ⟨below, exponent⟩
  let high : Digits := ⟨below + 1, exponent⟩
  match b.admits low, b.admits high with
  | true, true => some (if b.offset low < b.offset high then low else high)
  | true, false => some low
  | false, true => some high
  | false, false => none

/-- The shortest decimal that reads back as the float. Seventeen digits are enough for any float of up to
64 bits. -/
def shortest (b : Binary) : Digits :=
  ((List.range 17).findSome? fun n => b.nearest? (n + 1)).getD ⟨b.significand, 0⟩

end Binary

end Spmd.Decimal
