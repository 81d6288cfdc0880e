import TreeDelta.Line
import TreeDelta.SyntaxError
import TreeDelta.Text.Blank
set_option autoImplicit false

namespace TreeDelta

inductive EolStyle where
  | native
  | lf
  | crlf
  | cr
deriving DecidableEq, Repr

namespace EolStyle

def text : EolStyle → String
  | native => "native"
  | lf => "LF"
  | crlf => "CRLF"
  | cr => "CR"

instance : ToString EolStyle := ⟨text⟩

def ending : EolStyle → LineEnding
  | native | lf => .lf
  | crlf => .crlf
  | cr => .cr

/-- Reads a style; blanks around it do not count, letter case does. -/
def parse (s : String) : Except SyntaxError EolStyle :=
  let trimmed := Text.trim s
  match [native, lf, crlf, cr].find? fun style => style.text == trimmed with
  | some style => .ok style
  | none => .error (.eolStyle trimmed)

def apply (style : EolStyle) (l : Line) : Line := ⟨l.text, l.ending.map fun _ => style.ending⟩

def convert (style : EolStyle) (data : Bytes) : Bytes :=
  joinLines ((splitLines data).map style.apply)

end EolStyle

end TreeDelta
