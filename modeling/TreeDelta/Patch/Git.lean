import TreeDelta.Patch.Hunks
set_option autoImplicit false

namespace TreeDelta.Patch

structure Git where
  propertiesOnly : Bool
deriving DecidableEq, Repr

namespace Git

def ofOptions (o : Options) : Git := ⟨o.propertiesOnly⟩

def mode (executable : Bool) : String := if executable then "100755" else "100644"

/-- The path on the old side of the header: that of the copy source, if there is one. -/
def oldPath (r : PairResult) : String :=
  match r.copiedFrom, r.oldReposPath with
  | some source, _ => source.path.text
  | none, some path => path.text
  | none, none => r.gitPath

def modeChanges (r : PairResult) : Bool := r.oldExecutable != r.newExecutable

def extendedHeader (r : PairResult) : Bytes :=
  match r.change with
  | .added => line ("new file mode " ++ mode r.newExecutable)
  | .deleted => line ("deleted file mode " ++ mode r.oldExecutable)
  | .copied =>
    match r.copiedFrom with
    | some source => line ("copy from " ++ source.text) ++ line ("copy to " ++ r.gitPath)
    | none => []
  | .modified =>
    if modeChanges r then
      line ("old mode " ++ mode r.oldExecutable) ++ line ("new mode " ++ mode r.newExecutable)
    else []
  | .replaced | .unchanged => []

def labels (r : PairResult) : Bytes :=
  let old :=
    if r.change = .added then "/dev/null" else "a/" ++ r.displayPath ++ locationNote r.oldLocation
  let new :=
    if r.change = .deleted then "/dev/null" else "b/" ++ r.displayPath ++ locationNote r.newLocation
  line ("--- " ++ old ++ "\t(" ++ r.oldLabel ++ ")") ++
    line ("+++ " ++ new ++ "\t(" ++ r.newLabel ++ ")")

/-- Directories are shown for their properties, files for any change. -/
def shows (r : PairResult) : Bool :=
  if r.isDirectory then r.propsChanged
  else match r.change with
    | .added | .deleted | .copied => true
    | .modified => r.content.isSome || r.propsChanged || modeChanges r
    | .replaced | .unchanged => false

def body (r : PairResult) : Bytes :=
  match r.content with
  | some (.binary old new) => binaryNotice old new
  | some (.text diff) => if diff.isEmpty then [] else labels r ++ textHunks diff.hunks
  | none => []

def render (g : Git) (r : PairResult) : Bytes :=
  if g.propertiesOnly && !r.propsChanged then []
  else if shows r then
    index r.displayPath ++ line ("diff --git a/" ++ oldPath r ++ " b/" ++ r.gitPath) ++
      (if r.isFile then extendedHeader r ++ body r else []) ++
      propertySection r.displayPath r.props
  else []

end TreeDelta.Patch.Git
