import TreeDelta.Repository.WorkingCopy
set_option autoImplicit false

namespace TreeDelta

structure FixtureNode where
  kind : NodeKind
  content : Option String
  props : Props
  copyFrom : Option CopySource
deriving DecidableEq

structure FixtureRevision where
  /-- Starts from the sample tree and not from the revision before. -/
  sample : Bool
  delete : List String
  /-- By path as written, in the order in which they are put. -/
  nodes : OrderedMap String FixtureNode
deriving DecidableEq

structure FixtureCheckout where
  /-- The youngest revision if missing. -/
  revision : Option Nat
  edits : List LocalEdit
deriving DecidableEq

structure Fixture where
  revisions : List FixtureRevision
  workingCopy : Option FixtureCheckout
deriving DecidableEq

namespace Fixture

def nodeEdits (path : String) (n : FixtureNode) : List DraftEdit :=
  let node : DraftEdit :=
    match n.kind with
    | .directory => .directory path
    | _ => .file path (Bytes.ofString (n.content.getD ""))
  let props := n.props.entries.map fun e => DraftEdit.setProp path e.1 e.2
  let source := n.copyFrom.toList.map fun s => DraftEdit.copiedFrom path s.path.text s.revision
  node :: props ++ source

def revisionEdits (r : FixtureRevision) : List DraftEdit :=
  r.delete.map DraftEdit.remove ++ r.nodes.entries.flatMap fun e => nodeEdits e.1 e.2

def revisionDraft (before : Draft) (r : FixtureRevision) : Draft :=
  (if r.sample then Draft.sample else before).applyAll (revisionEdits r)

def perform (r : Repository) (op : Operation) : Except StoreError Repository :=
  match op.run r with
  | (r', .ok _) => .ok r'
  | (_, .error e) => .error e

def commitAll : Repository → Draft → List FixtureRevision → Except StoreError Repository
  | r, _, [] => .ok r
  | r, draft, revision :: revisions => do
    let draft := revisionDraft draft revision
    commitAll (← perform r (.commit draft)) draft revisions

def build (f : Fixture) : Except StoreError Repository := do
  let r ← commitAll .empty .empty f.revisions
  match f.workingCopy with
  | none => return r
  | some w =>
    let r ← perform r (.checkout (w.revision.getD r.youngest))
    w.edits.foldlM (fun r e => perform r (.edit e)) r

end Fixture

end TreeDelta
