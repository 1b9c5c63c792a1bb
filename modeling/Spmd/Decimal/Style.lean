import Spmd.Decimal.Shortest

/-!
# Text of floats

`Format` says where the sign, exponent and fraction of a float stand in its bits. `Style` says how its
shortest decimal is written.
-/

namespace Spmd.Decimal

/-- A binary interchange format. -/
structure Format where
  fractionBits : Nat
  exponentBits : Nat

namespace Format

def single : Format := ⟨23, 8⟩
def double : Format := ⟨52, 11⟩

def fraction (f : Format) (bits : Nat) : Nat := bits % (1 <<< f.fractionBits)

def exponentField (f : Format) (bits : Nat) : Nat := bits >>> f.fractionBits % (1 <<< f.exponentBits)

def isNegative (f : Format) (bits : Nat) : Bool := bits.testBit (f.fractionBits + f.exponentBits)

/-- The exponent field of infinities and of what is not a number. -/
def specialField (f : Format) : Nat := (1 <<< f.exponentBits) - 1

/-- The magnitude of a finite float that is not zero. -/
def binary (f : Format) (bits : Nat) : Binary :=
  let bias : Int := (1 <<< (f.exponentBits - 1) : Nat) - 1 + f.fractionBits
  let field := f.exponentField bits
  if field = 0 then ⟨f.fraction bits, 1 - bias, false⟩
  else ⟨1 <<< f.fractionBits + f.fraction bits, field - bias, f.fraction bits = 0 && field ≠ 1⟩

end Format

/-- How a float is written. -/
structure Style where
  /-- The least power of ten of a leading digit that is written without an exponent. -/
  positionalFrom : Int
  /-- The least power of ten of a leading digit that is written with an exponent again. -/
  positionalBelow : Int
  notNumber : String
  infinity : String

namespace Style

/-- `digits` with the point after the first `n`, and at least one digit on either side. -/
def pointed (digits : List Char) (n : Int) : String :=
  if n ≤ 0 then "0." ++ String.ofList (List.replicate (-n).toNat '0' ++ digits)
  else
    let whole := digits.take n.toNat ++ List.replicate (n.toNat - digits.length) '0'
    let rest := digits.drop n.toNat
    String.ofList whole ++ "." ++ String.ofList (if rest.isEmpty then ['0'] else rest)

/-- One digit, then the others after a point if there are any, then the exponent. -/
def scientific (digits : List Char) (exponent : Int) : String :=
  let rest := digits.drop 1
  String.ofList (digits.take 1) ++ (if rest.isEmpty then "" else "." ++ String.ofList rest) ++ "e" ++ toString exponent

/-- The digits without the zeros at the end. -/
def significant (d : Digits) : List Char :=
  ((Nat.toDigits 10 d.digits).reverse.dropWhile (· == '0')).reverse

/-- The text of the float with these bits. -/
def write (style : Style) (format : Format) (bits : Nat) : String :=
  let sign := if format.isNegative bits then "-" else ""
  if format.exponentField bits = format.specialField then
    if format.fraction bits = 0 then sign ++ style.infinity else style.notNumber
  else if format.exponentField bits = 0 && format.fraction bits = 0 then sign ++ "0.0"
  else
    let d := (format.binary bits).shortest
    let leading := d.exponent + width d.digits - 1
    let digits := significant d
    if style.positionalFrom ≤ leading && leading < style.positionalBelow then
      sign ++ pointed digits (leading + 1)
    else sign ++ scientific digits leading

end Style

/-- Floats in kernel text and in messages: an exponent is written from ten to the sixteenth up and below one
ten-thousandth, and a whole number keeps one zero after the point. -/
def kernelStyle : Style := ⟨-4, 16, "NaN", "inf"⟩

end Spmd.Decimal
