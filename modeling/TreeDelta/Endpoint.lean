import TreeDelta.DiffError
set_option autoImplicit false

namespace TreeDelta

inductive Target where
  | workingCopy (path : Path)
  | repository (path : Path)
deriving DecidableEq

namespace Target

def text : Target → String
  | workingCopy path => if path.isRoot then "." else path.text
  | repository path => "^/" ++ path.text

instance : ToString Target := ⟨text⟩

def isWorkingCopy : Target → Bool
  | workingCopy _ => true
  | repository _ => false

/-- Walks from `names` along the parts of a path, where `..` goes up by one;
nothing if that leaves the tree. -/
def walk : List Name → List String → Option (List Name)
  | names, [] => some names
  | names, part :: parts =>
    if part = ".." then
      if names.isEmpty then none else walk names.dropLast parts
    else match Name.ofString? part with
      | some n => walk (names ++ [n]) parts
      | none => walk names parts

def parse (s : String) (cwd : Path) : Except DiffError Target :=
  match Text.after? "^/" s with
  | some url =>
    match Path.parse url with
    | .ok p => .ok (repository p)
    | .error e => .error (.usage (.badPath e))
  | none =>
    match walk cwd.names (Text.fields '/' s) with
    | some names => .ok (workingCopy ⟨names⟩)
    | none => .error (.usage (.outsideWorkingCopy s))

end Target

structure Endpoint where
  target : Target
  revision : RevisionSpec
deriving DecidableEq

structure Location where
  origin : Origin
  path : Path
deriving DecidableEq

/-- What the working copy knows of a path, or borrows from the nearest ancestor
that knows it. -/
structure Recorded where
  reposPath : Path
  base : Nat
  changed : Nat
deriving DecidableEq

/-- Looks through `candidates`, which are `path` and its ancestors, nearest first.
`known` is the place in the repository once an ancestor has told it. -/
def recordedFrom (s : Store) (path : Path) : Option Path → List Path → Except DiffError Recorded
  | _, [] => .error (.notFound path.text)
  | known, candidate :: candidates => do
    match ← asking (s.bookkeeping? candidate) with
    | none => recordedFrom s path known candidates
    | some info =>
      let here := info.reposPath.join ((path.below? candidate).getD .root)
      let reposPath := known.getD here
      match info.base, info.changed with
      | some base, some changed => .ok ⟨reposPath, base, changed⟩
      | _, _ => recordedFrom s path (some reposPath) candidates

def recorded (s : Store) (path : Path) : Except DiffError Recorded :=
  recordedFrom s path none (path :: path.ancestors.reverse)

namespace Endpoint

def recordedRevision (s : Store) (e : Endpoint) (r : Recorded) : Except DiffError Nat :=
  match e.revision with
  | .number n => .ok n.toNat
  | .head => asking s.youngest
  | .base | .working => .ok r.base
  | .committed => .ok r.changed
  | .prev =>
    match r.changed with
    | 0 => .error (.unsupported (.nothingBefore e.target.text 0))
    | n + 1 => .ok n

def locate (s : Store) (e : Endpoint) : Except DiffError Location :=
  match e.target with
  | .repository path =>
    match e.revision with
    | .number n => .ok ⟨.revision n.toNat, path⟩
    | .head => do return ⟨.revision (← asking s.youngest), path⟩
    | keyword => .error (.unsupported (.keywordNeedsWorkingCopy keyword e.target.text))
  | .workingCopy path =>
    if e.revision = .working then .ok ⟨.workingCopy, path⟩
    else do
      let r ← recorded s path
      return ⟨.revision (← e.recordedRevision s r), r.reposPath⟩

end Endpoint

end TreeDelta
