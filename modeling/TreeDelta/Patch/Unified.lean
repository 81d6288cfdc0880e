import TreeDelta.Patch.Hunks
set_option autoImplicit false

namespace TreeDelta.Patch

structure Unified where
  propertiesOnly : Bool
  noDiffAdded : Bool
  noDiffDeleted : Bool
deriving DecidableEq, Repr

namespace Unified

def ofOptions (o : Options) : Unified := ⟨o.propertiesOnly, o.noDiffAdded, o.noDiffDeleted⟩

def labels (r : PairResult) : Bytes :=
  line ("--- " ++ r.displayPath ++ locationNote r.oldLocation ++ "\t(" ++ r.oldLabel ++ ")") ++
    line ("+++ " ++ r.displayPath ++ locationNote r.newLocation ++ "\t(" ++ r.newLabel ++ ")")

def omission? (u : Unified) (change : ChangeKind) : Option String :=
  match change with
  | .added => if u.noDiffAdded then some "added" else none
  | .deleted => if u.noDiffDeleted then some "deleted" else none
  | _ => none

/-- Additions and deletions are always shown, other files when something differs. -/
def shows (r : PairResult) : Bool :=
  match r.change with
  | .added | .deleted => true
  | .copied | .modified => r.content.isSome || r.propsChanged
  | .replaced | .unchanged => false

def body (r : PairResult) : Bytes :=
  match r.content with
  | some (.binary old new) => binaryNotice old new
  | some (.text diff) => labels r ++ textHunks diff.hunks
  | none => labels r

def render (u : Unified) (r : PairResult) : Bytes :=
  if u.propertiesOnly && !r.propsChanged then []
  else if r.isDirectory then
    if r.propsChanged then
      index r.displayPath ++ labels r ++ propertySection r.displayPath r.props
    else []
  else match u.omission? r.change with
    | some what => index (r.displayPath ++ " (" ++ what ++ ")")
    | none =>
      if shows r then index r.displayPath ++ body r ++ propertySection r.displayPath r.props
      else []

end TreeDelta.Patch.Unified
