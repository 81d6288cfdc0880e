import TreeDelta.ContentDiff
import TreeDelta.NodePair
import TreeDelta.PropDiff
set_option autoImplicit false

namespace TreeDelta

structure ComparisonSpec where
  old : Endpoint
  new : Endpoint
  /-- The text that printed paths start with, if not told by the new target. -/
  displayRoot : Option String
  options : Options
deriving DecidableEq

structure PairResult where
  path : Path
  displayPath : String
  change : ChangeKind
  nodeKind : NodeKind
  oldLabel : String
  newLabel : String
  /-- Where the sides lie, told when the two roots differ. -/
  oldLocation : Option String
  newLocation : Option String
  oldReposPath : Option Path
  newReposPath : Option Path
  copiedFrom : Option CopySource
  oldExecutable : Bool
  newExecutable : Bool
  /-- The content changed, whether or not its difference was computed. -/
  textChanged : Bool
  content : Option ContentDiff
  props : PropDiff
deriving DecidableEq

namespace PairResult

def isFile (r : PairResult) : Bool := r.nodeKind == .file

def isDirectory (r : PairResult) : Bool := r.nodeKind == .directory

def propsChanged (r : PairResult) : Bool := !r.props.isEmpty

def hasHunks (r : PairResult) : Bool :=
  match r.content with
  | some (.text diff) => !diff.isEmpty
  | _ => false

def gitPath (r : PairResult) : String :=
  match r.newReposPath.or r.oldReposPath with
  | some path => path.text
  | none => r.displayPath

end PairResult

def trimSlashes (s : String) : String :=
  String.ofList (s.toList.reverse.dropWhile (· == '/')).reverse

def displayPath (root : String) (rel : Path) : String :=
  let trimmed := trimSlashes root
  let root := if trimmed.isEmpty then root else trimmed
  if rel.isRoot then if root.isEmpty then "." else root
  else if root.isEmpty || root == "." then rel.text
  else root ++ "/" ++ rel.text

/-- The root text of a comparison. A repository target prints paths relative to
itself, and its name when it is a file. -/
def ComparisonSpec.rootText (spec : ComparisonSpec) (kind : NodeKind) : String :=
  match spec.displayRoot with
  | some root => root
  | none =>
    match spec.new.target with
    | .workingCopy _ => spec.new.target.text
    | .repository path =>
      if kind = .file then (path.name?.map Name.text).getD "." else ""

def Options.suppresses (o : Options) (change : ChangeKind) : Bool :=
  (change == .added && o.noDiffAdded) || (change == .deleted && o.noDiffDeleted)

def textDiffers (kind : NodeKind) (left right : Node) : Bool :=
  kind == .file &&
    (left.kind != right.kind || left.content != right.content || left.eolStyle != right.eolStyle)

structure Frame where
  store : Store
  options : Options
  old : NodeTree
  new : NodeTree
  root : String

namespace Frame

/-- The roots lie at different places, so each side is told where it lies. -/
def tellsLocations (f : Frame) : Bool := f.old.location != f.new.location

def location? (f : Frame) (t : NodeTree) (path : Path) : Option String :=
  if f.tellsLocations then some (t.location.join path).text else none

def contentOf (f : Frame) (pair : NodePair) : Except DiffError (Option ContentDiff) :=
  if f.options.summarizeOnly || f.options.propertiesOnly || f.options.suppresses pair.change ||
      pair.nodeKind != .file then
    .ok none
  else diffContent f.store pair.left pair.right f.options

def propsOf (f : Frame) (pair : NodePair) : PropDiff :=
  if f.options.ignoreProperties then .empty else .between pair.left.props pair.right.props

def result (f : Frame) (pair : NodePair) : Except DiffError PairResult := do
  let content ← f.contentOf pair
  return {
    path := pair.path
    displayPath := displayPath f.root pair.path
    change := pair.change
    nodeKind := pair.nodeKind
    oldLabel := pair.left.label
    newLabel := pair.right.label
    oldLocation := f.location? f.old pair.path
    newLocation := f.location? f.new pair.path
    oldReposPath := pair.left.reposPath.filter fun _ => pair.left.isPresent
    newReposPath := pair.right.reposPath.filter fun _ => pair.right.isPresent
    copiedFrom := pair.copiedFrom.map Prod.fst
    oldExecutable := pair.left.isExecutable
    newExecutable := pair.right.isExecutable
    textChanged := textDiffers pair.nodeKind pair.left pair.right
    content := content
    props := f.propsOf pair }

end Frame

def changedPairs (o : Options) (old new : NodeTree) : List NodePair :=
  ((matchTrees o old new).filter fun p => p.change != .unchanged).flatMap NodePair.expand

def compareTrees (s : Store) (spec : ComparisonSpec) : Except DiffError (List PairResult) := do
  spec.options.validate
  let (old, new) ← resolvePair s spec.old spec.new spec.options
  let kind := if new.rootKind = .nonexistent then old.rootKind else new.rootKind
  let f : Frame := ⟨s, spec.options, old, new, spec.rootText kind⟩
  (changedPairs spec.options old new).mapM f.result

end TreeDelta
