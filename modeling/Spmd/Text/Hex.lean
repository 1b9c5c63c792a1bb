/-!
# Hexadecimal text

Words as lowercase hexadecimal digits, and the bits of floats written that way. Which of the floats that are
not numbers it is does not matter, so all of them are written alike.
-/

namespace Spmd.Text

/-- A number with at least the given count of digits. -/
def hex (digits n : Nat) : String :=
  let cs := Nat.toDigits 16 n
  String.ofList (List.replicate (digits - cs.length) '0' ++ cs)

def hexDigit? (c : Char) : Option Nat :=
  if '0' ≤ c ∧ c ≤ '9' then some (c.toNat - '0'.toNat)
  else if 'a' ≤ c ∧ c ≤ 'f' then some (c.toNat - 'a'.toNat + 10)
  else none

/-- The number that hexadecimal digits spell. -/
def ofHex? (s : String) : Option Nat :=
  s.toList.foldlM (fun n c => return 16 * n + (← hexDigit? c)) 0

/-- Stands for every float that is not a number. -/
def notANumber : String := "nan"

def doubleBits (bits : UInt64) : String := if (Float.ofBits bits).isNaN then notANumber else hex 16 bits.toNat

def singleBits (bits : UInt32) : String := if (Float32.ofBits bits).isNaN then notANumber else hex 8 bits.toNat

def doubleOfBits? (s : String) : Option UInt64 :=
  if s = notANumber then some 0x7ff8000000000000 else UInt64.ofNat <$> ofHex? s

def singleOfBits? (s : String) : Option UInt32 :=
  if s = notANumber then some 0x7fc00000 else UInt32.ofNat <$> ofHex? s

end Spmd.Text
