import TreeDelta.Alignment.Block
import TreeDelta.LineKey
set_option autoImplicit false

namespace TreeDelta

inductive Mark where
  | context
  | added
  | deleted
deriving DecidableEq, Repr

structure HunkLine where
  mark : Mark
  line : Line
deriving DecidableEq, Repr

/-- A stretch of changes with the lines around it. Starts count from one; the
start of an empty range is the line before it. -/
structure Hunk where
  oldStart : Nat
  oldLen : Nat
  newStart : Nat
  newLen : Nat
  lines : List HunkLine
deriving DecidableEq, Repr

structure TextDiff where
  hunks : List Hunk
deriving DecidableEq, Repr

namespace TextDiff

def isEmpty (d : TextDiff) : Bool := d.hunks.isEmpty

def count (d : TextDiff) (mark : Mark) : Nat :=
  (d.hunks.flatMap Hunk.lines).countP fun l => l.mark == mark

def additions (d : TextDiff) : Nat := d.count .added

def deletions (d : TextDiff) : Nat := d.count .deleted

end TextDiff

open TreeDelta.Alignment

def headerStart (start len : Nat) : Nat := if len = 0 then start else start + 1

def markAll (mark : Mark) (lines : List Line) : List HunkLine := lines.map (HunkLine.mk mark)

def blockLines (old new : List Line) : Block → List HunkLine
  | .same i _ len => markAll .context (slice old i len)
  | .change i len j len' => markAll .deleted (slice old i len) ++ markAll .added (slice new j len')

def hunkOf? (old new : List Line) (group : List Block) : Option Hunk :=
  match group.head?, group.getLast? with
  | some first, some last =>
    let oldLen := last.oldEnd - first.old
    let newLen := last.newEnd - first.new
    some
      { oldStart := headerStart first.old oldLen
        oldLen := oldLen
        newStart := headerStart first.new newLen
        newLen := newLen
        lines := group.flatMap (blockLines old new) }
  | _, _ => none

def hunksOf (context : Nat) (old new : List Line) (blocks : List Block) : List Hunk :=
  (groups context blocks).filterMap (hunkOf? old new)

def diffLines (o : Options) (old new : Bytes) : TextDiff :=
  let oldLines := splitLines old
  let newLines := splitLines new
  let oldKeys := oldLines.map (Line.key o)
  let newKeys := newLines.map (Line.key o)
  if oldKeys = newKeys then ⟨[]⟩
  else ⟨hunksOf o.contextLines oldLines newLines (align oldKeys newKeys)⟩

end TreeDelta
