import TreeDelta.Data.Basic
import TreeDelta.Options
set_option autoImplicit false

namespace TreeDelta

def Depth.choices : List (String × Depth) := Depth.all.map fun d => (d.text, d)

namespace IgnoreSpace

def text : IgnoreSpace → String
  | none => "none"
  | change => "change"
  | all => "all"

def choices : List (String × IgnoreSpace) := [none, change, all].map fun s => (s.text, s)

end IgnoreSpace

namespace Options

def fieldNames : List String :=
  ["notice-ancestry", "show-copies-as-adds", "force", "ignore-content-type", "summarize-only",
   "xml", "git-style", "ignore-properties", "properties-only", "no-diff-added", "no-diff-deleted",
   "depth", "context-lines", "ignore-space", "ignore-eol-style"]

def ofData? (n : Notation) (d : Data) : Option Options := do
  let fields ← d.fields? n fieldNames
  let field (i : Nat) : Option Data := fields.getD i none
  let flag (i : Nat) : Option Bool := Data.orDefault? false Data.bool? (field i)
  return {
    noticeAncestry := ← flag 0
    showCopiesAsAdds := ← flag 1
    force := ← flag 2
    ignoreContentType := ← flag 3
    summarizeOnly := ← flag 4
    xml := ← flag 5
    gitStyle := ← flag 6
    ignoreProperties := ← flag 7
    propertiesOnly := ← flag 8
    noDiffAdded := ← flag 9
    noDiffDeleted := ← flag 10
    depth := ← Data.orDefault? .infinity (Data.choice? n Depth.choices) (field 11)
    contextLines := ← Data.orDefault? 3 Data.number? (field 12)
    ignoreSpace := ← Data.orDefault? .none (Data.choice? n IgnoreSpace.choices) (field 13)
    ignoreEolStyle := ← flag 14 }

def data (o : Options) : Data :=
  .record (fieldNames.zip
    [.bool o.noticeAncestry, .bool o.showCopiesAsAdds, .bool o.force, .bool o.ignoreContentType,
     .bool o.summarizeOnly, .bool o.xml, .bool o.gitStyle, .bool o.ignoreProperties,
     .bool o.propertiesOnly, .bool o.noDiffAdded, .bool o.noDiffDeleted, .text o.depth.text,
     .integer o.contextLines, .text o.ignoreSpace.text, .bool o.ignoreEolStyle])

end Options

end TreeDelta
