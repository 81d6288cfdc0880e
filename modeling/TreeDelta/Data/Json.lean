import TreeDelta.Data.Basic
import TreeDelta.Text.Decimal
import TreeDelta.Text.Double
set_option autoImplicit false

/-!
# Reading JSON

A strict reader. An integer outside 64 bits is read as a real number. A real
number is its leading digits, as many as 64 bits hold, times a power of ten; both
are rounded to doubles before they are multiplied. A number whose product is
infinite and a text with half a surrogate pair are well formed but unreadable.
The recursive readers count down a bound that the length of the text makes large
enough.
-/
namespace TreeDelta.Json

def isBlank (c : Char) : Bool := c == ' ' || c == '\n' || c == '\t' || c == '\r'

def skipBlanks (cs : List Char) : List Char := cs.dropWhile isBlank

def literal? (word : String) (cs : List Char) : Option (List Char) :=
  if word.toList.isPrefixOf cs then some (cs.drop word.length) else none

def digits (cs : List Char) : List Char × List Char := cs.span Text.isDigit

structure Numeral where
  negative : Bool
  whole : List Char
  fraction : List Char
  exponent : Option Int

def wholePart? (cs : List Char) : Option (List Char × List Char) :=
  match digits cs with
  | ([], _) => none
  | (['0'], rest) => some (['0'], rest)
  | ('0' :: _, _) => none
  | found => some found

def fractionPart? : List Char → Option (List Char × List Char)
  | '.' :: cs =>
    match digits cs with
    | ([], _) => none
    | found => some found
  | cs => some ([], cs)

def signedDigits? (cs : List Char) : Option (Int × List Char) :=
  let (negative, cs) :=
    match cs with
    | '-' :: cs => (true, cs)
    | '+' :: cs => (false, cs)
    | cs => (false, cs)
  match digits cs with
  | ([], _) => none
  | (ds, rest) =>
    let n : Int := Text.ofDigits 10 (ds.map Text.digitValue)
    some (if negative then -n else n, rest)

def exponentPart? : List Char → Option (Option Int × List Char)
  | 'e' :: cs => (signedDigits? cs).map fun (n, rest) => (some n, rest)
  | 'E' :: cs => (signedDigits? cs).map fun (n, rest) => (some n, rest)
  | cs => some (none, cs)

def numeral? (cs : List Char) : Option (Numeral × List Char) := do
  let (negative, cs) :=
    match cs with
    | '-' :: cs => (true, cs)
    | cs => (false, cs)
  let (whole, cs) ← wholePart? cs
  let (fraction, cs) ← fractionPart? cs
  let (exponent, cs) ← exponentPart? cs
  return (⟨negative, whole, fraction, exponent⟩, cs)

/-- Appends digits to `m` while 64 bits hold the number; also how many digits are
left out. -/
def appendDigits (m : Nat) : List Char → Nat × Nat
  | [] => (m, 0)
  | c :: cs =>
    let next := 10 * m + Text.digitValue c
    if next < UInt64.size then appendDigits next cs else (m, cs.length + 1)

def Numeral.scaled (n : Numeral) : Nat × Int :=
  let (m, dropped) := appendDigits 0 n.whole
  let (m, dropped') := appendDigits m n.fraction
  (m, n.exponent.getD 0 + dropped - (n.fraction.length - dropped' : Nat))

def Numeral.isInfinite (n : Numeral) : Bool := Text.productExceedsDouble n.scaled.1 n.scaled.2

def Numeral.data (n : Numeral) : Data :=
  match n.fraction, n.exponent, appendDigits 0 n.whole with
  | [], none, (m, 0) =>
    if !n.negative then .integer m
    else if 0 < m && m ≤ Text.signedBound then .integer (-(m : Int))
    else .real
  | _, _, _ => if n.isInfinite then .unreadable else .real

inductive Piece where
  | char (c : Char)
  | unit (n : Nat)

def escape? : List Char → Option (Piece × List Char)
  | '"' :: cs => some (.char '"', cs)
  | '\\' :: cs => some (.char '\\', cs)
  | '/' :: cs => some (.char '/', cs)
  | 'b' :: cs => some (.char '\x08', cs)
  | 'f' :: cs => some (.char '\x0c', cs)
  | 'n' :: cs => some (.char '\n', cs)
  | 'r' :: cs => some (.char '\r', cs)
  | 't' :: cs => some (.char '\t', cs)
  | 'u' :: cs => (Text.hexDigits? 4 cs).map fun (n, rest) => (.unit n, rest)
  | _ => none

def pieces? : Nat → List Char → Option (List Piece × List Char)
  | 0, _ => none
  | fuel + 1, cs =>
    match cs with
    | [] => none
    | '"' :: rest => some ([], rest)
    | '\\' :: rest => do
      let (p, rest) ← escape? rest
      let (ps, rest) ← pieces? fuel rest
      return (p :: ps, rest)
    | c :: rest => do
      if c.toNat < 0x20 then none
      let (ps, rest) ← pieces? fuel rest
      return (.char c :: ps, rest)

def isHighUnit (n : Nat) : Bool := 0xD800 ≤ n && n ≤ 0xDBFF

def isLowUnit (n : Nat) : Bool := 0xDC00 ≤ n && n ≤ 0xDFFF

def joinPieces? : List Piece → Option (List Char)
  | [] => some []
  | .char c :: ps => (joinPieces? ps).map (c :: ·)
  | .unit n :: ps =>
    if isHighUnit n then
      match ps with
      | .unit n' :: ps =>
        if isLowUnit n' then
          (joinPieces? ps).map
            (Char.ofNat (0x10000 + (n - 0xD800) * 0x400 + (n' - 0xDC00)) :: ·)
        else none
      | _ => none
    else if isLowUnit n then none
    else (joinPieces? ps).map (Char.ofNat n :: ·)

/-- The text after an opening quote; its characters are missing if it is unreadable. -/
def string? (fuel : Nat) (cs : List Char) : Option (Option String × List Char) := do
  let (ps, rest) ← pieces? fuel cs
  return ((joinPieces? ps).map String.ofList, rest)

def recordOf (fields : List (Option String × Data)) : Data :=
  match fields.mapM fun (k, d) => k.map fun k => (k, d) with
  | some fields => .record fields
  | none => .unreadable

mutual

def value? : Nat → List Char → Option (Data × List Char)
  | 0, _ => none
  | fuel + 1, cs =>
    match skipBlanks cs with
    | '"' :: rest => do
      let (s, rest) ← string? fuel rest
      return ((s.map Data.text).getD .unreadable, rest)
    | '[' :: rest =>
      match skipBlanks rest with
      | ']' :: rest => some (.list [], rest)
      | rest => do
        let (ds, rest) ← items? fuel rest
        return (.list ds, rest)
    | '\x7b' :: rest =>
      match skipBlanks rest with
      | '\x7d' :: rest => some (.record [], rest)
      | rest => do
        let (fields, rest) ← members? fuel rest
        return (recordOf fields, rest)
    | 'n' :: rest => (literal? "ull" rest).map fun rest => (.null, rest)
    | 't' :: rest => (literal? "rue" rest).map fun rest => (.bool true, rest)
    | 'f' :: rest => (literal? "alse" rest).map fun rest => (.bool false, rest)
    | rest => do
      let (n, rest) ← numeral? rest
      return (n.data, rest)

def items? : Nat → List Char → Option (List Data × List Char)
  | 0, _ => none
  | fuel + 1, cs => do
    let (d, rest) ← value? fuel cs
    match skipBlanks rest with
    | ']' :: rest => return ([d], rest)
    | ',' :: rest =>
      let (ds, rest) ← items? fuel rest
      return (d :: ds, rest)
    | _ => none

def members? : Nat → List Char → Option (List (Option String × Data) × List Char)
  | 0, _ => none
  | fuel + 1, cs =>
    match skipBlanks cs with
    | '"' :: rest => do
      let (k, rest) ← string? fuel rest
      match skipBlanks rest with
      | ':' :: rest =>
        let (d, rest) ← value? fuel rest
        match skipBlanks rest with
        | '\x7d' :: rest => return ([(k, d)], rest)
        | ',' :: rest =>
          let (more, rest) ← members? fuel rest
          return ((k, d) :: more, rest)
        | _ => none
      | _ => none
    | _ => none

end

def parse? (s : String) : Option Data :=
  let cs := s.toList
  match value? (2 * cs.length + 2) cs with
  | some (d, rest) => if (skipBlanks rest).isEmpty then some d else none
  | none => none

end TreeDelta.Json
