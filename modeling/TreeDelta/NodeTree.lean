import TreeDelta.Endpoint
import TreeDelta.Options
set_option autoImplicit false

/-!
# Resolved trees

The nodes at and below a target, by their way down from it, so that two trees
line up wherever they were read. Where copies are tracked a tree also holds the
nodes that its nodes were copied from.

Committed history records a source on the root of a copy only; what lies below
it follows that source. The working copy records a source on every copied node.
-/
namespace TreeDelta

structure NodeTree where
  origin : Origin
  /-- The place of the root in the store. -/
  location : Path
  nodes : OrderedMap Path Node
  /-- The nodes that copy sources name, each at its own revision. -/
  copySources : OrderedMap CopySource Node
deriving DecidableEq

namespace NodeTree

def absent (l : Location) : NodeTree := ⟨l.origin, l.path, .empty, .empty⟩

def isAbsent (t : NodeTree) : Bool := t.nodes.isEmpty

def rootKind (t : NodeTree) : NodeKind := ((t.nodes.get? .root).map Node.kind).getD .nonexistent

end NodeTree

structure TreeWalk where
  store : Store
  origin : Origin
  base : Path
  tracksCopies : Bool

namespace TreeWalk

/-- The node that a source names; a source that cannot be found names nothing. -/
def sourceNode (w : TreeWalk) (source : CopySource) : Except DiffError (Option Node) :=
  match w.store.node? source.path (.revision source.revision) with
  | .ok node => .ok node
  | .error (.noSuchRevision _) => .ok none
  | .error e => .error (.store e)

/-- The node's own source, or in a revision the one it inherits. -/
def candidateSource (w : TreeWalk) (own inherited : Option CopySource) : Option CopySource :=
  match w.origin with
  | .revision _ => own.or inherited
  | .workingCopy => own

def attachSource (w : TreeWalk) (t : NodeTree) (rel : Path) (inherited : Option CopySource) :
    Except DiffError (NodeTree × Option CopySource) := do
  let own ← asking (w.store.copySource? (w.base.join rel) w.origin)
  match w.candidateSource own inherited with
  | none => return (t, none)
  | some source =>
    if t.copySources.contains source then return (t, some source)
    else match ← w.sourceNode source with
      | none => return (t, none)
      | some node =>
        return ({ t with copySources := t.copySources.insert source { node with path := rel } },
          some source)

def visit (w : TreeWalk) (t : NodeTree) (node : Node) (rel : Path) (inherited : Option CopySource) :
    Except DiffError NodeTree := do
  let (t, source) ← if w.tracksCopies then w.attachSource t rel inherited else .ok (t, none)
  return { t with nodes := t.nodes.insert rel { node with path := rel, copySource := source } }

def includes (depth : Depth) (node : Node) : Bool :=
  match depth with
  | .empty => false
  | .files => node.isFile
  | .immediates | .infinity => true

def descend (w : TreeWalk) (depth : Depth) : Nat → NodeTree → Path → Except DiffError NodeTree
  | 0, t, _ => .ok t
  | levels + 1, t, dir => do
    let names ← asking (w.store.children (w.base.join dir) w.origin)
    let inherited := (t.nodes.get? dir).bind Node.copySource
    names.foldlM (fun t name => do
      let rel := dir.child name
      match ← asking (w.store.node? (w.base.join rel) w.origin) with
      | none => return t
      | some node =>
        if includes depth node then do
          let t ← w.visit t node rel (inherited.map fun s => s.descend ⟨[name]⟩)
          if node.isDirectory && depth == .infinity then w.descend depth levels t rel else return t
        else return t) t

end TreeWalk

def resolveTree (s : Store) (e : Endpoint) (o : Options) : Except DiffError NodeTree := do
  let l ← e.locate s
  match ← asking (s.node? l.path l.origin) with
  | none => return .absent l
  | some root => do
    let w : TreeWalk := ⟨s, l.origin, l.path, o.tracksCopies l.origin⟩
    let t ← w.visit (.absent l) root .root none
    if root.isDirectory then w.descend o.depth (s.height l.origin + 1) t .root else return t

def resolve (s : Store) (e : Endpoint) (o : Options) : Except DiffError NodeTree := do
  let t ← resolveTree s e o
  if t.isAbsent then .error (.notFound e.target.text) else return t

def resolvePair (s : Store) (old new : Endpoint) (o : Options) :
    Except DiffError (NodeTree × NodeTree) := do
  let t ← resolveTree s old o
  let t' ← resolveTree s new o
  if t.isAbsent && t'.isAbsent then .error (.notFound new.target.text) else return (t, t')

end TreeDelta
