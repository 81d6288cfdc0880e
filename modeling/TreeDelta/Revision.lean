import TreeDelta.SyntaxError
import TreeDelta.Text.Blank
import TreeDelta.Text.Decimal
set_option autoImplicit false

namespace TreeDelta

inductive RevisionSpec where
  | number (n : UInt64)
  | head
  | base
  | committed
  | prev
  | working
deriving DecidableEq, Repr

namespace RevisionSpec

def text : RevisionSpec → String
  | number n => toString n.toNat
  | head => "HEAD"
  | base => "BASE"
  | committed => "COMMITTED"
  | prev => "PREV"
  | working => "WORKING"

instance : ToString RevisionSpec := ⟨text⟩

def keywords : List RevisionSpec := [head, base, committed, prev, working]

def needsWorkingCopy : RevisionSpec → Bool
  | number _ | head => false
  | base | committed | prev | working => true

def dropMark : List Char → List Char
  | c :: cs => if (c == 'r' || c == 'R') && (Text.natOfChars? cs).isSome then cs else c :: cs
  | [] => []

def number? (cs : List Char) : Option UInt64 :=
  (Text.natBelow? UInt64.size (String.ofList (dropMark cs))).map UInt64.ofNat

def keyword? (cs : List Char) : Option RevisionSpec :=
  keywords.find? fun k => k.text == String.ofList (cs.map Char.toUpper)

def parse (s : String) : Except SyntaxError RevisionSpec :=
  let cs := Text.trimChars s.toList
  match number? cs with
  | some n => .ok (number n)
  | none =>
    match keyword? cs with
    | some k => .ok k
    | none => .error (.revision s)

end RevisionSpec

end TreeDelta
