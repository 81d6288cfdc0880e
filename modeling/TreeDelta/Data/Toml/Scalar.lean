import TreeDelta.Data.Basic
import TreeDelta.Text.Decimal
import TreeDelta.Text.Double
set_option autoImplicit false

namespace TreeDelta.Toml

abbrev Rest := List Char

def isBlank (c : Char) : Bool := c == ' ' || c == '\t'

def skipBlanks (cs : Rest) : Rest := cs.dropWhile isBlank

def newline? : Rest → Option Rest
  | '\n' :: rest => some rest
  | '\r' :: '\n' :: rest => some rest
  | _ => none

def isPlain (c : Char) : Bool := c == '\t' || (0x20 ≤ c.toNat && c.toNat != 0x7F)

def skipComment : Rest → Rest
  | '#' :: rest => rest.dropWhile isPlain
  | rest => rest

def lineEnd? (cs : Rest) : Option Rest :=
  match skipComment (skipBlanks cs) with
  | [] => some []
  | rest => newline? rest

def literal? (word : String) (cs : Rest) : Option Rest :=
  if word.toList.isPrefixOf cs then some (cs.drop word.length) else none

def charOfCode? (n : Nat) : Option Char := if n.isValidChar then some (Char.ofNat n) else none

def escape? : Rest → Option (Char × Rest)
  | 'b' :: rest => some ('\x08', rest)
  | 't' :: rest => some ('\t', rest)
  | 'n' :: rest => some ('\n', rest)
  | 'f' :: rest => some ('\x0c', rest)
  | 'r' :: rest => some ('\r', rest)
  | '"' :: rest => some ('"', rest)
  | '\\' :: rest => some ('\\', rest)
  | 'u' :: rest => do
    let (n, rest) ← Text.hexDigits? 4 rest
    return (← charOfCode? n, rest)
  | 'U' :: rest => do
    let (n, rest) ← Text.hexDigits? 8 rest
    return (← charOfCode? n, rest)
  | _ => none

def basicText? : Nat → Rest → Option (List Char × Rest)
  | 0, _ => none
  | fuel + 1, cs =>
    match cs with
    | [] => none
    | '"' :: rest => some ([], rest)
    | '\\' :: rest => do
      let (c, rest) ← escape? rest
      let (more, rest) ← basicText? fuel rest
      return (c :: more, rest)
    | c :: rest => do
      if !isPlain c then none
      let (more, rest) ← basicText? fuel rest
      return (c :: more, rest)

def literalText? (cs : Rest) : Option (List Char × Rest) :=
  match cs.span fun c => isPlain c && c != '\'' with
  | (text, '\'' :: rest) => some (text, rest)
  | _ => none

/-- A backslash at the end of a line joins it with what follows the next blanks and
line ends. -/
def joinedLine? (cs : Rest) : Option Rest :=
  (newline? (skipBlanks cs)).map skipAll
where
  skipAll (cs : Rest) : Rest :=
    match cs with
    | ' ' :: rest | '\t' :: rest | '\n' :: rest | '\r' :: '\n' :: rest => skipAll rest
    | rest => rest

/-- How a run of `n` quotes reads inside a text that three quotes end: how many of
them belong to the text, and how many are left if the text ends here. -/
def quoteRun (n : Nat) : Nat × Option Nat :=
  if n < 3 then (n, none) else (min (n - 3) 2, some (n - 3 - min (n - 3) 2))

/-- A text over several lines, after its opening quotes. Line ends are read as LF;
only a basic text has escapes. -/
def longText? (quote : Char) (escapes : Bool) : Nat → Rest → Option (List Char × Rest)
  | 0, _ => none
  | fuel + 1, cs =>
    match cs with
    | [] => none
    | c :: rest =>
      if c = quote then
        let (quotes, rest) := cs.span (· == quote)
        match quoteRun quotes.length with
        | (kept, some left) => some (List.replicate kept quote, List.replicate left quote ++ rest)
        | (kept, none) => do
          let (more, rest) ← longText? quote escapes fuel rest
          return (List.replicate kept quote ++ more, rest)
      else if c = '\\' && escapes then
        match joinedLine? rest with
        | some rest => longText? quote escapes fuel rest
        | none => do
          let (c, rest) ← escape? rest
          let (more, rest) ← longText? quote escapes fuel rest
          return (c :: more, rest)
      else match newline? cs with
        | some rest => do
          let (more, rest) ← longText? quote escapes fuel rest
          return ('\n' :: more, rest)
        | none => do
          if !isPlain c then none
          let (more, rest) ← longText? quote escapes fuel rest
          return (c :: more, rest)

def skipFirstNewline (cs : Rest) : Rest := (newline? cs).getD cs

def text? (fuel : Nat) : Rest → Option (List Char × Rest)
  | '"' :: '"' :: '"' :: rest => longText? '"' true fuel (skipFirstNewline rest)
  | '\'' :: '\'' :: '\'' :: rest => longText? '\'' false fuel (skipFirstNewline rest)
  | '"' :: rest => basicText? fuel rest
  | '\'' :: rest => literalText? rest
  | _ => none

def isBareKeyChar (c : Char) : Bool := c.isAlphanum || c == '_' || c == '-'

def simpleKey? (fuel : Nat) : Rest → Option (String × Rest)
  | '"' :: rest => (basicText? fuel rest).map fun (k, rest) => (String.ofList k, rest)
  | '\'' :: rest => (literalText? rest).map fun (k, rest) => (String.ofList k, rest)
  | cs =>
    match cs.span isBareKeyChar with
    | ([], _) => none
    | (k, rest) => some (String.ofList k, rest)

def dottedKey? (fuel : Nat) : Nat → Rest → Option (List String × Rest)
  | 0, _ => none
  | count + 1, cs => do
    let (k, rest) ← simpleKey? fuel (skipBlanks cs)
    match skipBlanks rest with
    | '.' :: rest =>
      let (ks, rest) ← dottedKey? fuel count rest
      return (k :: ks, rest)
    | rest => return ([k], rest)

def maxKeyParts : Nat := 79

def key? (fuel : Nat) (cs : Rest) : Option (List String × Rest) := dottedKey? fuel maxKeyParts cs

def grouped? (isDigit : Char → Bool) : Rest → Option (List Char × Rest)
  | '_' :: _ => none
  | cs =>
    match cs.span fun c => isDigit c || c == '_' with
    | ([], _) => none
    | (run, rest) =>
      if run.getLast? == some '_' || hasDouble run then none
      else some (run.filter (· != '_'), rest)
where
  hasDouble : List Char → Bool
    | '_' :: '_' :: _ => true
    | _ :: rest => hasDouble rest
    | [] => false

def sign : Rest → Bool × Rest
  | '-' :: rest => (true, rest)
  | '+' :: rest => (false, rest)
  | rest => (false, rest)

def decimal? : Rest → Option (List Char × Rest)
  | '0' :: rest => some (['0'], rest)
  | rest => grouped? Text.isDigit rest

def integerOf? (negative : Bool) (n : Nat) : Option Data :=
  if negative then if n ≤ Text.signedBound then some (.integer (-(n : Int))) else none
  else if n < Text.signedBound then some (.integer n) else none

def based? (base : Nat) (cs : Rest) : Option (Data × Rest) := do
  let isDigit := fun c => (Text.hexValue? c).any (· < base)
  let (ds, rest) ← grouped? isDigit cs
  let d ← integerOf? false (Text.ofDigits base (ds.filterMap Text.hexValue?))
  return (d, rest)

def integer? : Rest → Option (Data × Rest)
  | '0' :: 'x' :: rest => based? 16 rest
  | '0' :: 'o' :: rest => based? 8 rest
  | '0' :: 'b' :: rest => based? 2 rest
  | cs => do
    let (negative, cs) := sign cs
    let (ds, rest) ← decimal? cs
    let d ← integerOf? negative (Text.ofDigits 10 (ds.map Text.digitValue))
    return (d, rest)

def exponent? : Rest → Option (Int × Rest)
  | 'e' :: cs | 'E' :: cs => do
    let (negative, cs) := sign cs
    let (ds, rest) ← grouped? Text.isDigit cs
    let n : Int := Text.ofDigits 10 (ds.map Text.digitValue)
    return (if negative then -n else n, rest)
  | _ => none

/-- A number with a fraction, an exponent or both; a positive one has to be finite. -/
def float? (cs : Rest) : Option (Data × Rest) := do
  let (negative, cs) := sign cs
  match (literal? "inf" cs).or (literal? "nan" cs) with
  | some rest => return (.real, rest)
  | none =>
    let (whole, cs) ← decimal? cs
    let (fraction, cs) ←
      match cs with
      | '.' :: cs => grouped? Text.isDigit cs
      | cs => some ([], cs)
    let (e, rest) ←
      match cs with
      | 'e' :: _ | 'E' :: _ => exponent? cs
      | cs => if fraction.isEmpty then none else some (0, cs)
    let m := Text.ofDigits 10 ((whole ++ fraction).map Text.digitValue)
    if !negative && Text.exceedsDouble m (e - fraction.length) then none
    return (.real, rest)

def dateField : String := "$__toml_private_datetime"

def number? (count lo hi : Nat) (cs : Rest) : Option (Nat × Rest) := do
  let ds := cs.take count
  if ds.length < count || !ds.all Text.isDigit then none
  let n := Text.ofDigits 10 (ds.map Text.digitValue)
  if n < lo || hi < n then none
  return (n, cs.drop count)

def padded (width n : Nat) : List Char :=
  let ds := Nat.toDigits 10 n
  List.replicate (width - ds.length) '0' ++ ds

def daysIn (year month : Nat) : Nat :=
  if month = 2 then
    if year % 4 = 0 && (year % 100 != 0 || year % 400 = 0) then 29 else 28
  else if month = 4 || month = 6 || month = 9 || month = 11 then 30
  else 31

def date? (cs : Rest) : Option (List Char × Rest) := do
  let (year, cs) ← number? 4 0 9999 cs
  let cs ← literal? "-" cs
  let (month, cs) ← number? 2 1 12 cs
  let cs ← literal? "-" cs
  let (day, cs) ← number? 2 1 (daysIn year month) cs
  return (padded 4 year ++ '-' :: padded 2 month ++ '-' :: padded 2 day, cs)

def secondFraction (ds : List Char) : List Char :=
  match ((ds.take 9).reverse.dropWhile (· == '0')).reverse with
  | [] => []
  | ds => '.' :: ds

def time? (cs : Rest) : Option (List Char × Rest) := do
  let (hour, cs) ← number? 2 0 23 cs
  let cs ← literal? ":" cs
  let (minute, cs) ← number? 2 0 59 cs
  let cs ← literal? ":" cs
  let (second, cs) ← number? 2 0 60 cs
  let whole := padded 2 hour ++ ':' :: padded 2 minute ++ ':' :: padded 2 second
  match cs with
  | '.' :: rest =>
    match rest.span Text.isDigit with
    | ([], _) => return (whole, cs)
    | (ds, rest) => return (whole ++ secondFraction ds, rest)
  | cs => return (whole, cs)

/-- The offset from universal time; no offset is zero with a minus. -/
def offset? : Rest → Option (List Char × Rest)
  | 'Z' :: rest | 'z' :: rest => some (['Z'], rest)
  | c :: rest => do
    if c != '+' && c != '-' then none
    let (hour, rest) ← number? 2 0 23 rest
    let rest ← literal? ":" rest
    let (minute, rest) ← number? 2 0 59 rest
    let c := if hour = 0 && minute = 0 then '+' else c
    return (c :: padded 2 hour ++ ':' :: padded 2 minute, rest)
  | [] => none

def timeOfDay? : Rest → Option (List Char × Rest)
  | c :: cs => do
    if c != 'T' && c != 't' && c != ' ' then none
    let (time, rest) ← time? cs
    match offset? rest with
    | some (offset, rest) => return ('T' :: time ++ offset, rest)
    | none => return ('T' :: time, rest)
  | [] => none

def dateTime? (cs : Rest) : Option (Data × Rest) := do
  let (chars, rest) ←
    match date? cs with
    | some (date, rest) =>
      match timeOfDay? rest with
      | some (time, rest) => some (date ++ time, rest)
      | none => some (date, rest)
    | none => time? cs
  return (.record [(dateField, .text (String.ofList chars))], rest)

def scalar? (cs : Rest) : Option (Data × Rest) :=
  (dateTime? cs).or <| (float? cs).or <| (integer? cs).or <|
    ((literal? "true" cs).map fun rest => (.bool true, rest)).or <|
      (literal? "false" cs).map fun rest => (.bool false, rest)

end TreeDelta.Toml
