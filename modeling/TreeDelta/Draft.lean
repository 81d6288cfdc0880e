import TreeDelta.Node
set_option autoImplicit false

namespace TreeDelta

structure DraftNode where
  kind : NodeKind
  content : Option Bytes
  props : Props
  copySource : Option CopySource
deriving DecidableEq

def DraftNode.file (content : Bytes) : DraftNode := ⟨.file, some content, .empty, none⟩

def DraftNode.directory : DraftNode := ⟨.directory, none, .empty, none⟩

structure Draft where
  nodes : OrderedMap Path DraftNode
  fault : Option SyntaxError
deriving DecidableEq

inductive DraftEdit where
  /-- Puts a file, in place of a node already there. -/
  | file (path : String) (content : Bytes)
  /-- Puts a directory unless there is a node already. -/
  | directory (path : String)
  | setProp (path name value : String)
  | deleteProp (path name : String)
  | copiedFrom (path source : String) (revision : Nat)
  /-- Removes a node and all below it; the root itself stays. -/
  | remove (path : String)
deriving DecidableEq

namespace Draft

def empty : Draft := ⟨.empty, none⟩

instance : Inhabited Draft := ⟨empty⟩

def fail (d : Draft) (e : SyntaxError) : Draft := { d with fault := d.fault.or (some e) }

def withParents (nodes : OrderedMap Path DraftNode) (p : Path) : OrderedMap Path DraftNode :=
  p.ancestors.foldl (fun nodes dir => nodes.insertIfNew dir .directory) nodes

def change (d : Draft) (p : Path) (fault : PathFault) (f : DraftNode → DraftNode) : Draft :=
  match d.nodes.get? p with
  | some node => { d with nodes := d.nodes.insert p (f node) }
  | none => d.fail (.path p.text fault)

/-- Uses a path that reads well and remembers the fault of one that does not. -/
def withPath (d : Draft) (text : String) (f : Path → Draft) : Draft :=
  match Path.parse text with
  | .ok p => f p
  | .error e => d.fail e

def apply (d : Draft) : DraftEdit → Draft
  | .file text content =>
    d.withPath text fun p =>
      { d with nodes := (withParents d.nodes p).insert p (.file content) }
  | .directory text =>
    d.withPath text fun p =>
      { d with nodes := (withParents d.nodes p).insertIfNew p .directory }
  | .setProp text name value =>
    d.withPath text fun p =>
      d.change p .propertyOfMissingNode fun node =>
        { node with props := node.props.insert name value }
  | .deleteProp text name =>
    d.withPath text fun p =>
      match d.nodes.get? p with
      | some node => { d with nodes := d.nodes.insert p { node with props := node.props.erase name } }
      | none => d
  | .copiedFrom text source revision =>
    match Path.parse text, Path.parse source with
    | .ok p, .ok sourcePath =>
      d.change p .ancestryOfMissingNode fun node =>
        { node with copySource := some ⟨sourcePath, revision⟩ }
    | .error e, _ => d.fail e
    | .ok _, .error e => d.fail e
  | .remove text =>
    d.withPath text fun p =>
      { d with nodes := d.nodes.filter fun q _ => !q.isAtOrBelow p || q.isRoot }

def applyAll (d : Draft) (edits : List DraftEdit) : Draft := edits.foldl apply d

def sampleFile (dir name : String) : DraftEdit :=
  .file (dir ++ name) (Bytes.ofString s!"This is the file '{name}'.\n")

def sample : Draft :=
  empty.applyAll
    [sampleFile "" "iota", sampleFile "A/" "mu", sampleFile "A/B/" "lambda",
     sampleFile "A/B/E/" "alpha", sampleFile "A/B/E/" "beta", .directory "A/B/F",
     .directory "A/C", sampleFile "A/D/" "gamma", sampleFile "A/D/G/" "pi",
     sampleFile "A/D/G/" "rho", sampleFile "A/D/G/" "tau", sampleFile "A/D/H/" "chi",
     sampleFile "A/D/H/" "psi", sampleFile "A/D/H/" "omega"]

end Draft

end TreeDelta
