import TreeDelta.Hunk
set_option autoImplicit false

namespace TreeDelta

inductive PropChangeKind where
  | added
  | deleted
  | modified
deriving DecidableEq, Repr

def PropChangeKind.text : PropChangeKind → String
  | added => "Added"
  | deleted => "Deleted"
  | modified => "Modified"

inductive ValueChange where
  | added (new : String)
  | deleted (old : String)
  | modified (old new : String)
deriving DecidableEq, Repr

namespace ValueChange

def kind : ValueChange → PropChangeKind
  | added _ => .added
  | deleted _ => .deleted
  | modified _ _ => .modified

def old? : ValueChange → Option String
  | added _ => none
  | deleted old | modified old _ => some old

def new? : ValueChange → Option String
  | deleted _ => none
  | added new | modified _ new => some new

def between? : Option String → Option String → Option ValueChange
  | none, none => none
  | none, some new => some (added new)
  | some old, none => some (deleted old)
  | some old, some new => if old = new then none else some (modified old new)

end ValueChange

structure PropChange where
  name : String
  change : ValueChange
deriving DecidableEq, Repr

/-- The lines that turn the old value into the new one; a missing value is empty. -/
def PropChange.hunks (c : PropChange) : List Hunk :=
  (diffLines .default (Bytes.ofString (c.change.old?.getD ""))
    (Bytes.ofString (c.change.new?.getD ""))).hunks

structure PropDiff where
  changes : List PropChange
deriving DecidableEq, Repr

namespace PropDiff

def empty : PropDiff := ⟨[]⟩

def isEmpty (d : PropDiff) : Bool := d.changes.isEmpty

def get? (d : PropDiff) (name : String) : Option PropChange :=
  d.changes.find? fun c => c.name == name

def between (old new : Props) : PropDiff :=
  ⟨(old.unionKeys new).filterMap fun name =>
    (ValueChange.between? (old.get? name) (new.get? name)).map (PropChange.mk name)⟩

end PropDiff

end TreeDelta
