import TreeDelta.Hunk
set_option autoImplicit false

namespace TreeDelta

inductive ContentDiff where
  | text (diff : TextDiff)
  /-- A side is binary; only the mime types are told. -/
  | binary (old new : Option String)
deriving DecidableEq, Repr

def shownBytes (s : Store) (n : Node) : Except DiffError Bytes :=
  match n.content.filter fun _ => n.isFile with
  | none => .ok []
  | some id =>
    match s.content? id with
    | .error e => .error (.store e)
    | .ok none => .error (.missingContent id)
    | .ok (some data) =>
      match n.eolStyle with
      | some style => .ok (style.convert data)
      | none => .ok data

/-- Compares the contents of two nodes; nothing if both sides show the same. -/
def diffContent (s : Store) (left right : Node) (o : Options) :
    Except DiffError (Option ContentDiff) := do
  if !left.isFile && !right.isFile then return none
  else if left.isFile && right.isFile && left.content == right.content &&
      left.eolStyle == right.eolStyle then
    return none
  else if !o.treatsBinaryAsText && (left.isBinary || right.isBinary) then
    return some (.binary left.mimeType right.mimeType)
  else do
    let old ← shownBytes s left
    let new ← shownBytes s right
    let diff := diffLines o old new
    if diff.isEmpty && left.isFile && right.isFile then return none
    else return some (.text diff)

end TreeDelta
