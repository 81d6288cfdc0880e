import TreeDelta.Data.Basic
import TreeDelta.Node
set_option autoImplicit false

namespace TreeDelta

def Data.ofOption {α : Type} (write : α → Data) : Option α → Data
  | some x => write x
  | none => .null

def Path.ofData? : Data → Option Path
  | .text s => (Path.parse s).toOption
  | _ => none

def Path.data (p : Path) : Data := .text p.text

namespace NodeKind

def choices : List (String × NodeKind) :=
  [("file", file), ("directory", directory), ("dir", directory), ("nonexistent", nonexistent)]

def ofData? (n : Notation) : Data → Option NodeKind := Data.choice? n choices

def data : NodeKind → Data
  | file => .text "file"
  | directory => .text "directory"
  | nonexistent => .text "nonexistent"

end NodeKind

namespace Origin

def ofData? : Data → Option Origin
  | .record [("Revision", d)] => d.number?.map revision
  | d => Data.choice? .json [("WorkingCopy", workingCopy)] d

def data : Origin → Data
  | revision n => .record [("Revision", .integer n)]
  | workingCopy => .text "WorkingCopy"

end Origin

namespace CopySource

def ofData? (n : Notation) (d : Data) : Option CopySource := do
  let fields ← d.fields? n ["path", "revision"]
  return ⟨← Data.required? Path.ofData? (fields.getD 0 none),
    ← Data.required? Data.number? (fields.getD 1 none)⟩

def data (s : CopySource) : Data :=
  .record [("path", s.path.data), ("revision", .integer s.revision)]

end CopySource

namespace ContentId

def ofData? (d : Data) : Option ContentId := do
  let bytes ← Data.listOf? (Data.natBelow? 256) d
  let bytes := bytes.map UInt8.ofNat
  if h : bytes.length = 32 then some ⟨bytes, h⟩ else none

def data (id : ContentId) : Data := .list (id.bytes.map fun b => .integer b.toNat)

end ContentId

def Props.ofData? (d : Data) : Option Props := d.mapOf? Data.text?

def Props.data (p : Props) : Data := .record (p.entries.map fun e => (e.1, .text e.2))

namespace Node

def fieldNames : List String :=
  ["path", "kind", "content", "props", "origin", "repos_relpath", "copy_source", "replaced"]

def fields? (d : Data) : Option (List (Option Data)) :=
  match d with
  | .list items => if items.length = fieldNames.length then some (items.map some) else none
  | d => d.fields? .json fieldNames

def ofData? (d : Data) : Option Node := do
  let fields ← fields? d
  let field (i : Nat) : Option Data := fields.getD i none
  return {
    path := ← Data.required? Path.ofData? (field 0)
    kind := ← Data.required? (NodeKind.ofData? .json) (field 1)
    content := ← Data.orDefault? none (Data.optional? ContentId.ofData?) (field 2)
    props := ← Data.required? Props.ofData? (field 3)
    origin := ← Data.required? Origin.ofData? (field 4)
    reposPath := ← Data.orDefault? none (Data.optional? Path.ofData?) (field 5)
    copySource := ← Data.orDefault? none (Data.optional? (CopySource.ofData? .json)) (field 6)
    replaced := ← Data.required? Data.bool? (field 7) }

def data (n : Node) : Data :=
  .record (fieldNames.zip
    [n.path.data, n.kind.data, Data.ofOption ContentId.data n.content, n.props.data,
     n.origin.data, Data.ofOption Path.data n.reposPath, Data.ofOption CopySource.data n.copySource,
     .bool n.replaced])

end Node

end TreeDelta
