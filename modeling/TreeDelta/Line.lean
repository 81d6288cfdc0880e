import TreeDelta.Bytes
set_option autoImplicit false

namespace TreeDelta

inductive LineEnding where
  | lf
  | crlf
  | cr
deriving DecidableEq, Repr

def LineEnding.bytes : LineEnding → Bytes
  | lf => [10]
  | crlf => [13, 10]
  | cr => [13]

structure Line where
  text : Bytes
  /-- Nothing for a last line without a terminator. -/
  ending : Option LineEnding
deriving DecidableEq, Repr

def Line.bytes (l : Line) : Bytes := l.text ++ (l.ending.map LineEnding.bytes).getD []

def prependByte (b : UInt8) : List Line → List Line
  | [] => [⟨[b], none⟩]
  | l :: ls => ⟨b :: l.text, l.ending⟩ :: ls

def splitLines : Bytes → List Line
  | [] => []
  | 10 :: rest => ⟨[], some .lf⟩ :: splitLines rest
  | 13 :: 10 :: rest => ⟨[], some .crlf⟩ :: splitLines rest
  | 13 :: rest => ⟨[], some .cr⟩ :: splitLines rest
  | b :: rest => prependByte b (splitLines rest)

def joinLines (ls : List Line) : Bytes := ls.flatMap Line.bytes

theorem joinLines_prependByte (b : UInt8) (ls : List Line) :
    joinLines (prependByte b ls) = b :: joinLines ls := by
  cases ls <;> rfl

theorem joinLines_splitLines (data : Bytes) : joinLines (splitLines data) = data := by
  fun_induction splitLines data with
  | case1 => rfl
  | case2 rest ih => simpa [joinLines, Line.bytes, LineEnding.bytes] using ih
  | case3 rest ih => simpa [joinLines, Line.bytes, LineEnding.bytes] using ih
  | case4 rest _ ih => simpa [joinLines, Line.bytes, LineEnding.bytes] using ih
  | case5 b rest _ _ _ ih => rw [joinLines_prependByte, ih]

end TreeDelta
