import TreeDelta.Comparison
set_option autoImplicit false

namespace TreeDelta.Patch

structure Summary where
  xml : Bool
deriving DecidableEq, Repr

namespace Summary

inductive Item where
  | added
  | deleted
  | modified
  | none
deriving DecidableEq, Repr

def Item.letter : Item → String
  | added => "A"
  | deleted => "D"
  | modified => "M"
  | none => " "

def Item.text : Item → String
  | added => "added"
  | deleted => "deleted"
  | modified => "modified"
  | none => "none"

structure Status where
  item : Item
  props : Bool
deriving DecidableEq, Repr

def status? (r : PairResult) : Option Status :=
  match r.change with
  | .added | .copied => some ⟨.added, false⟩
  | .deleted => some ⟨.deleted, false⟩
  | .modified =>
    if r.textChanged || r.propsChanged then
      some ⟨if r.textChanged then .modified else .none, r.propsChanged⟩
    else none
  | .replaced | .unchanged => none

def escapeChar : Char → String
  | '&' => "&amp;"
  | '<' => "&lt;"
  | '>' => "&gt;"
  | '"' => "&quot;"
  | '\'' => "&apos;"
  | c => c.toString

def escape (s : String) : String := String.join (s.toList.map escapeChar)

def textEntry (s : Status) (r : PairResult) : String :=
  s.item.letter ++ (if s.props then "M" else " ") ++ "      " ++ r.displayPath ++ "\n"

def xmlEntry (s : Status) (r : PairResult) : String :=
  "<path\n   kind=\"" ++ (if r.isDirectory then "dir" else "file") ++
    "\"\n   item=\"" ++ s.item.text ++
    "\"\n   props=\"" ++ (if s.props then "modified" else "none") ++
    "\">" ++ escape r.displayPath ++ "</path>\n"

def entry (s : Summary) (r : PairResult) : String :=
  match status? r with
  | some status => if s.xml then xmlEntry status r else textEntry status r
  | none => ""

def opening (s : Summary) : String :=
  if s.xml then "<?xml version=\"1.0\" encoding=\"UTF-8\"?>\n<diff>\n<paths>\n" else ""

def closing (s : Summary) : String := if s.xml then "</paths>\n</diff>\n" else ""

end TreeDelta.Patch.Summary
