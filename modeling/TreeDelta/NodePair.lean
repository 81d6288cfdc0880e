import TreeDelta.NodeTree
set_option autoImplicit false

namespace TreeDelta

inductive ChangeKind where
  | added
  | deleted
  | modified
  /-- Unrelated nodes at one path. -/
  | replaced
  /-- Added with history; the left node is the copy source. -/
  | copied
  | unchanged
deriving DecidableEq, Repr

def ChangeKind.text : ChangeKind → String
  | added => "added"
  | deleted => "deleted"
  | modified => "modified"
  | replaced => "replaced"
  | copied => "copied"
  | unchanged => "unchanged"

instance : ToString ChangeKind := ⟨ChangeKind.text⟩

structure NodePair where
  path : Path
  change : ChangeKind
  left : Node
  right : Node
  /-- What the right node was copied from, for copies and replacements by a copy. -/
  copiedFrom : Option (CopySource × Node)
deriving DecidableEq

namespace NodePair

def nodeKind (p : NodePair) : NodeKind := if p.right.isPresent then p.right.kind else p.left.kind

def deletion (p : NodePair) : NodePair :=
  { p with change := .deleted, right := .nonexistent p.path p.right.origin, copiedFrom := none }

def addition (p : NodePair) : NodePair :=
  match p.copiedFrom with
  | some (source, node) => { p with change := .copied, left := node, copiedFrom := some (source, node) }
  | none => { p with change := .added, left := .nonexistent p.path p.left.origin }

def expand (p : NodePair) : List NodePair :=
  if p.change = .replaced then [p.deletion, p.addition] else [p]

end NodePair

def Node.differs (a b : Node) : Bool := a.content != b.content || a.props != b.props

/-- The copy source that decides the verdict on a node. A node that had the same
source on the old side has the same history. Without ancestry, a copy onto an
unrelated node of its kind is compared by path. -/
def decidingSource (o : Options) (new : NodeTree) (a : Option Node) (b : Node) :
    Option (CopySource × Node) := do
  let source ← b.copySource
  guard (o.tracksCopies new.origin)
  let node ← new.copySources.get? source
  match a with
  | none => return (source, node)
  | some a =>
    let sameHistory := a.copySource == some source
    let byPath := !o.noticeAncestry && a.kind == b.kind && !a.isCopySource source
    guard !(sameHistory || byPath)
    return (source, node)

/-- The verdict on one path. `underReplaced` tells that it lies below a directory
that was replaced. -/
def classify (o : Options) (old new : NodeTree) (underReplaced : Bool) (path : Path) : NodePair :=
  let absentLeft := Node.nonexistent path old.origin
  let absentRight := Node.nonexistent path new.origin
  match old.nodes.get? path, new.nodes.get? path with
  | none, none => ⟨path, .unchanged, absentLeft, absentRight, none⟩
  | some a, none => ⟨path, .deleted, a, absentRight, none⟩
  | none, some b =>
    match decidingSource o new none b with
    | some (source, node) => ⟨path, .copied, node, b, some (source, node)⟩
    | none => ⟨path, .added, absentLeft, b, none⟩
  | some a, some b =>
    match decidingSource o new (some a) b with
    | some (source, node) =>
      if !a.isCopySource source || a.kind != b.kind then
        ⟨path, .replaced, a, b, some (source, node)⟩
      else ⟨path, .copied, node, b, some (source, node)⟩
    | none =>
      if a.kind != b.kind || (o.noticeAncestry && (b.replaced || underReplaced)) then
        ⟨path, .replaced, a, b, none⟩
      else if a.differs b then ⟨path, .modified, a, b, none⟩
      else ⟨path, .unchanged, a, b, none⟩

/-- Classifies paths in order. `replaced` are the directories replaced so far. -/
def classifyAll (o : Options) (old new : NodeTree) : List Path → List Path → List NodePair
  | _, [] => []
  | replaced, path :: paths =>
    let pair := classify o old new (replaced.any path.isAtOrBelow) path
    let replaced :=
      if pair.change = .replaced && pair.nodeKind = .directory then path :: replaced else replaced
    pair :: classifyAll o old new replaced paths

def matchTrees (o : Options) (old new : NodeTree) : List NodePair :=
  classifyAll o old new [] (old.nodes.unionKeys new.nodes)

end TreeDelta
