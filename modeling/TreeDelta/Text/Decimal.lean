set_option autoImplicit false

namespace TreeDelta.Text

def isDigit (c : Char) : Bool := '0' ≤ c && c ≤ '9'

def digitValue (c : Char) : Nat := c.toNat - '0'.toNat

def ofDigits (base : Nat) (digits : List Nat) : Nat :=
  digits.foldl (fun n d => base * n + d) 0

def natOfChars? (cs : List Char) : Option Nat :=
  if !cs.isEmpty && cs.all isDigit then some (ofDigits 10 (cs.map digitValue)) else none

def unsignedChars? : List Char → Option Nat
  | '+' :: cs => natOfChars? cs
  | cs => natOfChars? cs

def natBelow? (bound : Nat) (s : String) : Option Nat :=
  (unsignedChars? s.toList).filter (· < bound)

/-- Numbers of 64 bits with sign lie in `[-signedBound, signedBound)`. -/
def signedBound : Nat := UInt64.size / 2

def intWithin? (bound : Nat) (s : String) : Option Int :=
  match s.toList with
  | '-' :: cs => ((natOfChars? cs).filter (· ≤ bound)).map fun n => -(n : Int)
  | cs => ((unsignedChars? cs).filter (· < bound)).map Int.ofNat

def hexValue? (c : Char) : Option Nat :=
  if Text.isDigit c then some (Text.digitValue c)
  else if 'a' ≤ c && c ≤ 'f' then some (c.toNat - 'a'.toNat + 10)
  else if 'A' ≤ c && c ≤ 'F' then some (c.toNat - 'A'.toNat + 10)
  else none

def hexDigits? (count : Nat) (cs : List Char) : Option (Nat × List Char) := do
  let ds ← (cs.take count).mapM hexValue?
  if ds.length < count then none
  return (Text.ofDigits 16 ds, cs.drop count)

end TreeDelta.Text
