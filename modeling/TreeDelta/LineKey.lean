import TreeDelta.Line
import TreeDelta.Options
set_option autoImplicit false

namespace TreeDelta

/-- Space, tab, line feed, form feed and carriage return. -/
def isSpaceByte (b : UInt8) : Bool := b == 32 || b == 9 || b == 10 || b == 12 || b == 13

/-- What is kept of a text, its last byte first, and whether white space has been read since. One
space is kept for it as soon as a word follows another. -/
def takeByte : Bytes × Bool → UInt8 → Bytes × Bool
  | (kept, pending), b =>
    if isSpaceByte b then (kept, true)
    else (b :: (if pending && !kept.isEmpty then 32 :: kept else kept), false)

namespace IgnoreSpace

/-- The part of a line's text that counts. A text of nothing but white space counts as one space
where runs of it do. -/
def squeeze : IgnoreSpace → Bytes → Bytes
  | none, text => text
  | all, text => text.filter fun b => !isSpaceByte b
  | change, text =>
    let (kept, pending) := text.foldl takeByte ([], false)
    if pending && kept.isEmpty && !text.isEmpty then [32] else kept.reverse

end IgnoreSpace

def Line.key (o : Options) (l : Line) : Bytes :=
  o.ignoreSpace.squeeze l.text ++
    (if o.ignoreEolStyle then [] else (l.ending.map LineEnding.bytes).getD [])

end TreeDelta
