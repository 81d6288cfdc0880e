import TreeDelta.Data.Json
import TreeDelta.Data.Node
import TreeDelta.Data.Toml
import TreeDelta.Fixture
set_option autoImplicit false

namespace TreeDelta

namespace LocalEdit

structure EditForm where
  name : String
  fields : List String
  read : List Data → Option LocalEdit

def ofTexts (make : List String → Option LocalEdit) (fields : List Data) : Option LocalEdit :=
  (fields.mapM Data.text?).bind make

def editForms : List EditForm :=
  [⟨"write", ["path", "content"], ofTexts fun
      | [path, content] => some (.write path (Bytes.ofString content))
      | _ => none⟩,
   ⟨"append", ["path", "text"], ofTexts fun
      | [path, text] => some (.append path (Bytes.ofString text))
      | _ => none⟩,
   ⟨"propset", ["path", "name", "value"], ofTexts fun
      | [path, name, value] => some (.setProp path name value)
      | _ => none⟩,
   ⟨"propdel", ["path", "name"], ofTexts fun
      | [path, name] => some (.deleteProp path name)
      | _ => none⟩,
   ⟨"mkdir", ["path"], ofTexts fun
      | [path] => some (.makeDirectory path)
      | _ => none⟩,
   ⟨"delete", ["path"], ofTexts fun
      | [path] => some (.delete path)
      | _ => none⟩,
   ⟨"copy", ["from", "to"], ofTexts fun
      | [source, target] => some (.copy source target)
      | _ => none⟩,
   ⟨"move", ["from", "to"], ofTexts fun
      | [source, target] => some (.move source target)
      | _ => none⟩,
   ⟨"switch", ["path", "url", "revision"], fun
      | [.text path, .text url, revision] => revision.number?.map (.switch path url)
      | _ => none⟩]

def parts? : Data → Option (String × Data)
  | .record fields =>
    match fields.filter (fun f => f.1 == "op"), fields.filter (fun f => f.1 != "op") with
    | [(_, .text name)], rest => some (name, .record rest)
    | _, _ => none
  | .list (.text name :: rest) => some (name, .list rest)
  | _ => none

/-- How deep the data of a change may be nested in JSON, where it lies four levels deep. -/
def maxHeight : Nat := 124

def ofData? (n : Notation) (d : Data) : Option LocalEdit := do
  if !d.isReadable || (n = .json && maxHeight < d.height) then none
  let (name, rest) ← parts? d
  let form ← editForms.find? fun f => f.name == name
  let fields ← (← rest.fields? .json form.fields).mapM id
  form.read fields

def bytesData (b : Bytes) : Data := Data.ofOption .text (Bytes.text? b)

def data : LocalEdit → Data
  | write path content =>
    .record [("op", .text "write"), ("path", .text path), ("content", bytesData content)]
  | append path content =>
    .record [("op", .text "append"), ("path", .text path), ("text", bytesData content)]
  | setProp path name value =>
    .record [("op", .text "propset"), ("path", .text path), ("name", .text name), ("value", .text value)]
  | deleteProp path name =>
    .record [("op", .text "propdel"), ("path", .text path), ("name", .text name)]
  | makeDirectory path => .record [("op", .text "mkdir"), ("path", .text path)]
  | delete path => .record [("op", .text "delete"), ("path", .text path)]
  | copy source target => .record [("op", .text "copy"), ("from", .text source), ("to", .text target)]
  | move source target => .record [("op", .text "move"), ("from", .text source), ("to", .text target)]
  | switch path url revision =>
    .record [("op", .text "switch"), ("path", .text path), ("url", .text url),
      ("revision", .integer revision)]

end LocalEdit

namespace FixtureNode

def ofData? (n : Notation) (d : Data) : Option FixtureNode := do
  let fields ← d.fields? n ["kind", "content", "props", "copy-from"]
  let field (i : Nat) : Option Data := fields.getD i none
  return {
    kind := ← Data.orDefault? .file (NodeKind.ofData? n) (field 0)
    content := ← Data.orDefault? none (Data.optional? Data.text?) (field 1)
    props := ← Data.orDefault? .empty Props.ofData? (field 2)
    copyFrom := ← Data.orDefault? none (Data.optional? (CopySource.ofData? n)) (field 3) }

def data (f : FixtureNode) : Data :=
  .record [("kind", f.kind.data), ("content", Data.ofOption .text f.content),
    ("props", f.props.data), ("copy-from", Data.ofOption CopySource.data f.copyFrom)]

end FixtureNode

namespace FixtureRevision

def ofData? (n : Notation) (d : Data) : Option FixtureRevision := do
  let fields ← d.fields? n ["greek", "delete", "nodes"]
  let field (i : Nat) : Option Data := fields.getD i none
  return {
    sample := ← Data.orDefault? false Data.bool? (field 0)
    delete := ← Data.orDefault? [] (Data.listOf? Data.text?) (field 1)
    nodes := ← Data.orDefault? .empty (Data.mapOf? (FixtureNode.ofData? n)) (field 2) }

def data (r : FixtureRevision) : Data :=
  .record [("greek", .bool r.sample), ("delete", .list (r.delete.map .text)),
    ("nodes", .record (r.nodes.entries.map fun e => (e.1, e.2.data)))]

end FixtureRevision

namespace FixtureCheckout

def ofData? (n : Notation) (d : Data) : Option FixtureCheckout := do
  let fields ← d.fields? n ["revision", "ops"]
  return {
    revision := ← Data.orDefault? none (Data.optional? Data.number?) (fields.getD 0 none)
    edits := ← Data.orDefault? [] (Data.listOf? (LocalEdit.ofData? n)) (fields.getD 1 none) }

def data (c : FixtureCheckout) : Data :=
  .record [("revision", Data.ofOption (fun k : Nat => .integer k) c.revision),
    ("ops", .list (c.edits.map LocalEdit.data))]

end FixtureCheckout

namespace Fixture

def ofData? (n : Notation) (d : Data) : Option Fixture := do
  let fields ← d.fields? n ["revisions", "working-copy"]
  return {
    revisions := ← Data.orDefault? [] (Data.listOf? (FixtureRevision.ofData? n)) (fields.getD 0 none)
    workingCopy :=
      ← Data.orDefault? none (Data.optional? (FixtureCheckout.ofData? n)) (fields.getD 1 none) }

def data (f : Fixture) : Data :=
  .record [("revisions", .list (f.revisions.map FixtureRevision.data)),
    ("working-copy", Data.ofOption FixtureCheckout.data f.workingCopy)]

def parse? (n : Notation) (s : String) : Option Fixture :=
  match n with
  | .json => (Json.parse? s).bind (ofData? .json)
  | .toml => (Toml.parse? s).bind (ofData? .toml)

end Fixture

end TreeDelta
