import TreeDelta.Draft
import TreeDelta.Store
set_option autoImplicit false

namespace TreeDelta

structure Record where
  kind : NodeKind
  content : Option ContentId
  props : Props
  copySource : Option CopySource
  /-- The revision of the node's last change. -/
  changed : Nat
deriving DecidableEq

abbrev Snapshot := OrderedMap Path Record

structure WorkingNode where
  kind : NodeKind
  content : Option ContentId
  props : Props
  reposPath : Path
  base : Option Nat
  changed : Option Nat
  copySource : Option CopySource
  replaced : Bool
deriving DecidableEq

abbrev WorkingTree := OrderedMap Path WorkingNode

abbrev Blobs := OrderedMap ContentId Bytes

structure Repository where
  blobs : Blobs
  /-- The revisions from 1 on, oldest first. -/
  revisions : List Snapshot
  working : Option WorkingTree
deriving DecidableEq

namespace Record

def sameNode (a b : Record) : Bool :=
  a.kind == b.kind && a.content == b.content && a.props == b.props && a.copySource == b.copySource

/-- The record of a revision's node: the previous one while nothing about it changes. -/
def carry (old : Option Record) (new : Record) : Record :=
  match old with
  | some r => if r.sameNode new then r else new
  | none => new

def node (r : Record) (path : Path) (revision : Nat) : Node where
  path := path
  kind := r.kind
  content := r.content
  props := r.props
  origin := .revision revision
  reposPath := some path
  copySource := none
  replaced := false

end Record

namespace WorkingNode

def ofRecord (r : Record) (reposPath : Path) (revision : Nat) : WorkingNode where
  kind := r.kind
  content := r.content
  props := r.props
  reposPath := reposPath
  base := some revision
  changed := some r.changed
  copySource := none
  replaced := false

def added (kind : NodeKind) (content : Option ContentId) (reposPath : Path) (replaced : Bool) :
    WorkingNode where
  kind := kind
  content := content
  props := .empty
  reposPath := reposPath
  base := none
  changed := none
  copySource := none
  replaced := replaced

def node (w : WorkingNode) (path : Path) : Node where
  path := path
  kind := w.kind
  content := w.content
  props := w.props
  origin := .workingCopy
  reposPath := some w.reposPath
  copySource := w.copySource
  replaced := w.replaced

def bookkeeping (w : WorkingNode) : Bookkeeping := ⟨w.reposPath, w.base, w.changed⟩

end WorkingNode

def Path.childName? (p q : Path) : Option Name :=
  match q.below? p with
  | some ⟨[n]⟩ => some n
  | _ => none

def childNames {ν : Type} (tree : OrderedMap Path ν) (p : Path) : List Name :=
  tree.keys.filterMap p.childName?

def treeHeight {ν : Type} (tree : OrderedMap Path ν) : Nat :=
  tree.keys.foldl (fun h p => max h p.depth) 0

/-- The entries at or below `p`, by their way down from it. -/
def subtree {ν : Type} (tree : OrderedMap Path ν) (p : Path) : List (Path × ν) :=
  tree.entries.filterMap fun (q, x) => (q.below? p).map fun rel => (rel, x)

def withoutSubtree {ν : Type} (tree : OrderedMap Path ν) (p : Path) : OrderedMap Path ν :=
  tree.filter fun q _ => !q.isAtOrBelow p

def Snapshot.bare : Snapshot :=
  OrderedMap.empty.insert .root ⟨.directory, none, .empty, none, 0⟩

def WorkingTree.ofSnapshot (s : Snapshot) (revision : Nat) : WorkingTree :=
  s.map fun p r => .ofRecord r p revision

def Blobs.put (blobs : Blobs) (data : Bytes) : Blobs :=
  blobs.insertIfNew (.ofBytes data) data

namespace Repository

def empty : Repository := ⟨.empty, [], none⟩

instance : Inhabited Repository := ⟨empty⟩

def youngest (r : Repository) : Nat := r.revisions.length

def snapshot? (r : Repository) : Nat → Option Snapshot
  | 0 => some .bare
  | n + 1 => r.revisions[n]?

def youngestSnapshot (r : Repository) : Snapshot := r.revisions.getLastD .bare

theorem snapshot?_youngest (r : Repository) : r.snapshot? r.youngest = some r.youngestSnapshot := by
  rcases hr : r.revisions.eq_nil_or_concat with h | ⟨l, s, h⟩
  · simp [snapshot?, youngest, youngestSnapshot, h]
  · simp [snapshot?, youngest, youngestSnapshot, h]

def snapshot (r : Repository) (n : Nat) : Except StoreError Snapshot :=
  match r.snapshot? n with
  | some s => .ok s
  | none => .error (.noSuchRevision n)

def workingTree (r : Repository) : Except StoreError WorkingTree :=
  match r.working with
  | some w => .ok w
  | none => .error .noWorkingCopy

def putContent (r : Repository) (data : Bytes) : Repository := { r with blobs := r.blobs.put data }

def node? (r : Repository) (p : Path) : Origin → Except StoreError (Option Node)
  | .revision n => do return ((← r.snapshot n).get? p).map (·.node p n)
  | .workingCopy => do return ((← r.workingTree).get? p).map (·.node p)

def childrenIn {ν : Type} (tree : OrderedMap Path ν) (p : Path) : Except StoreError (List Name) :=
  if tree.contains p then .ok (childNames tree p) else .error (.notFound p)

def children (r : Repository) (p : Path) : Origin → Except StoreError (List Name)
  | .revision n => do childrenIn (← r.snapshot n) p
  | .workingCopy => do childrenIn (← r.workingTree) p

def copySource? (r : Repository) (p : Path) : Origin → Except StoreError (Option CopySource)
  | .revision n => do return ((← r.snapshot n).get? p).bind (·.copySource)
  | .workingCopy => do return ((← r.workingTree).get? p).bind (·.copySource)

def bookkeeping? (r : Repository) (p : Path) : Except StoreError (Option Bookkeeping) := do
  return ((← r.workingTree).get? p).map (·.bookkeeping)

def height (r : Repository) : Origin → Nat
  | .revision n => ((r.snapshot? n).map treeHeight).getD 0
  | .workingCopy => (r.working.map treeHeight).getD 0

def store (r : Repository) : Store where
  node? := r.node?
  children := r.children
  copySource? := r.copySource?
  content? id := .ok (r.blobs.get? id)
  youngest := .ok r.youngest
  bookkeeping? := r.bookkeeping?
  height := r.height

end Repository

end TreeDelta
