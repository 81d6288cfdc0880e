import TreeDelta.Comparison
set_option autoImplicit false

namespace TreeDelta.Patch

def line (s : String) : Bytes := Bytes.ofString s ++ [10]

def indexRule : String := String.ofList (List.replicate 67 '=')

def propertyRule : String := String.ofList (List.replicate 67 '_')

def index (title : String) : Bytes := line ("Index: " ++ title) ++ line indexRule

def locationNote : Option String → String
  | some location => "\t(.../" ++ location ++ ")"
  | none => ""

def range (start len : Nat) : String := if len = 1 then toString start else s!"{start},{len}"

def hunkHeader (marker : String) (h : Hunk) : String :=
  marker ++ " -" ++ range h.oldStart h.oldLen ++ " +" ++ range h.newStart h.newLen ++ " " ++ marker

def markByte : Mark → UInt8
  | .context => 32
  | .added => 43
  | .deleted => 45

/-- A line of a hunk. One without a terminator gets one, and a line that says so. -/
def hunkLine (unended : String) (l : HunkLine) : Bytes :=
  markByte l.mark :: l.line.text ++
    match l.line.ending with
    | some ending => ending.bytes
    | none => 10 :: line unended

def hunk (marker unended : String) (h : Hunk) : Bytes :=
  line (hunkHeader marker h) ++ h.lines.flatMap (hunkLine unended)

def hunks (marker unended : String) (hs : List Hunk) : Bytes := hs.flatMap (hunk marker unended)

def textHunks (hs : List Hunk) : Bytes := hunks "@@" "\\ No newline at end of file" hs

def propertyHunks (hs : List Hunk) : Bytes := hunks "##" "\\ No newline at end of property" hs

/-- The mime types in a notice: both when they differ, else the one there is. -/
def mimeNote : Option String → Option String → Option String
  | some old, some new => some (if old = new then new else "(" ++ old ++ ", " ++ new ++ ")")
  | none, some new => some new
  | some old, none => some old
  | none, none => none

def binaryNotice (old new : Option String) : Bytes :=
  line "Cannot display: file marked as a binary type." ++
    match mimeNote old new with
    | some mime => line ("svn:mime-type = " ++ mime)
    | none => []

def propertyChange (c : PropChange) : Bytes :=
  line (c.change.kind.text ++ ": " ++ c.name) ++ propertyHunks c.hunks

def propertySection (displayPath : String) (d : PropDiff) : Bytes :=
  if d.isEmpty then []
  else
    line "" ++ line ("Property changes on: " ++ displayPath) ++ line propertyRule ++
      d.changes.flatMap propertyChange

end TreeDelta.Patch
