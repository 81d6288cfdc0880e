import TreeDelta.Repository.Basic
set_option autoImplicit false

/-!
# Commits and checkouts

A commit appends one snapshot. A node that is as it was in the revision before
keeps its record, so `Record.changed` names the last revision that changed it. A
failing commit may leave contents behind and changes nothing else.
-/
namespace TreeDelta

abbrev Outcome := Repository × Except StoreError Unit

def DraftNode.sourcePrecedes (n : Nat) (node : DraftNode) : Bool :=
  match node.copySource with
  | some source => source.revision < n
  | none => true

def DraftNode.record (node : DraftNode) (revision : Nat) : Record :=
  ⟨node.kind, node.content.map .ofBytes, node.props, node.copySource, revision⟩

def Blobs.putAll (blobs : Blobs) (nodes : List (Path × DraftNode)) : Blobs :=
  (nodes.filterMap fun e => e.2.content).foldl Blobs.put blobs

namespace Repository

def attempt (r : Repository) : Except StoreError Repository → Outcome
  | .ok r' => (r', .ok ())
  | .error e => (r, .error e)

def nextRevision (r : Repository) : Nat := r.youngest + 1

def snapshotOf (r : Repository) (d : Draft) : Snapshot :=
  (d.nodes.insertIfNew .root .directory).map fun p node =>
    .carry (r.youngestSnapshot.get? p) (node.record r.nextRevision)

/-- Commits a draft as the complete next revision. Contents are kept up to the
first node whose copy source is not an earlier revision. -/
def commit (r : Repository) (d : Draft) : Outcome :=
  match d.fault with
  | some e => (r, .error (.badText e))
  | none =>
    let nodes := d.nodes.entries
    let (sound, rest) := nodes.span fun e => e.2.sourcePrecedes r.nextRevision
    let r' := { r with blobs := r.blobs.putAll sound }
    match rest.head?.bind fun e => e.2.copySource with
    | some source => (r', .error (.noSuchRevision source.revision))
    | none => ({ r' with revisions := r.revisions ++ [r.snapshotOf d] }, .ok ())

def draftAt (r : Repository) (n : Nat) : Except StoreError Draft := do
  let s ← r.snapshot n
  let lost := s.entries.filterMap fun (_, record) =>
    record.content.filter fun id => !r.blobs.contains id
  match lost with
  | id :: _ => .error (.missingContent id)
  | [] =>
    .ok ⟨s.map fun _ record =>
      ⟨record.kind, record.content.bind r.blobs.get?, record.props, record.copySource⟩, none⟩

def checkout (r : Repository) (n : Nat) : Except StoreError Repository := do
  return { r with working := some (.ofSnapshot (← r.snapshot n) n) }

/-- The record that a working node becomes. A node with a base keeps the
source recorded at its path; one that replaced another shares no record with it. -/
def recordOf (r : Repository) (p : Path) (w : WorkingNode) : Record :=
  let old := r.youngestSnapshot.get? p
  let source := if w.base.isNone then w.copySource else old.bind (·.copySource)
  .carry (if w.replaced then none else old) ⟨w.kind, w.content, w.props, source, r.nextRevision⟩

/-- Commits the working copy as the complete next revision and brings it up to
date with that. -/
def commitWorkingCopy (r : Repository) : Except StoreError Repository := do
  let w ← r.workingTree
  match w.entries.find? fun e => e.2.reposPath != e.1 with
  | some e => .error (.invalidOperation e.1 .switchedCommit)
  | none =>
    let s : Snapshot := w.map r.recordOf
    .ok { r with
      revisions := r.revisions ++ [s]
      working := some (.ofSnapshot s r.nextRevision) }

end Repository

end TreeDelta
