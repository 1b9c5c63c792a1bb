import Spmd.Text.Unmarked

/-!
# Quoted text

A text between double quotes. Quotes and backslashes get a backslash in front, the usual control characters
have short names, and every other character that leaves no mark of its own on the page is written as its
code point.
-/

namespace Spmd.Text

/-- One character as it stands inside quotes. -/
def escape (c : Char) : String :=
  if c = '"' then "\\\""
  else if c = '\\' then "\\\\"
  else if c = '\n' then "\\n"
  else if c = '\r' then "\\r"
  else if c = '\t' then "\\t"
  else if c = '\x00' then "\\0"
  else if isUnmarked c then "\\u\x7b" ++ String.ofList (Nat.toDigits 16 c.toNat) ++ "\x7d"
  else c.toString

def quoted (s : String) : String := "\"" ++ String.join (s.toList.map escape) ++ "\""

end Spmd.Text
