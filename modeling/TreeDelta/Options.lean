import TreeDelta.DiffError
set_option autoImplicit false

namespace TreeDelta

inductive Depth where
  | empty
  | files
  | immediates
  | infinity
deriving DecidableEq, Repr

namespace Depth

def text : Depth → String
  | empty => "empty"
  | files => "files"
  | immediates => "immediates"
  | infinity => "infinity"

instance : ToString Depth := ⟨text⟩

def all : List Depth := [empty, files, immediates, infinity]

def parse (s : String) : Except DiffError Depth :=
  match all.find? fun d => d.text == s with
  | some d => .ok d
  | none => .error (.usage (.depth s))

end Depth

inductive IgnoreSpace where
  | none
  /-- A run of white space counts as one space, and not at all at the end. -/
  | change
  | all
deriving DecidableEq, Repr

structure Options where
  noticeAncestry : Bool
  showCopiesAsAdds : Bool
  force : Bool
  ignoreContentType : Bool
  summarizeOnly : Bool
  xml : Bool
  gitStyle : Bool
  ignoreProperties : Bool
  propertiesOnly : Bool
  noDiffAdded : Bool
  noDiffDeleted : Bool
  depth : Depth
  contextLines : Nat
  ignoreSpace : IgnoreSpace
  ignoreEolStyle : Bool
deriving DecidableEq, Repr

inductive Extension where
  | ignoreSpace (mode : IgnoreSpace)
  | ignoreEolStyle
  | contextLines (n : Nat)
  | unified
deriving DecidableEq, Repr

namespace Options

def default : Options where
  noticeAncestry := false
  showCopiesAsAdds := false
  force := false
  ignoreContentType := false
  summarizeOnly := false
  xml := false
  gitStyle := false
  ignoreProperties := false
  propertiesOnly := false
  noDiffAdded := false
  noDiffDeleted := false
  depth := .infinity
  contextLines := 3
  ignoreSpace := .none
  ignoreEolStyle := false

instance : Inhabited Options := ⟨default⟩

/-- Copies read from `origin` are compared with their sources. Local copies are,
committed ones only when ancestry is noticed. -/
def tracksCopies (o : Options) (origin : Origin) : Bool :=
  !o.showCopiesAsAdds && (o.noticeAncestry || origin == .workingCopy)

def treatsBinaryAsText (o : Options) : Bool := o.force || o.ignoreContentType

def validate (o : Options) : Except DiffError Unit :=
  if o.xml && !o.summarizeOnly then .error (.usage .xmlWithoutSummary)
  else if o.gitStyle && o.summarizeOnly then .error (.usage .gitSummary)
  else if o.propertiesOnly && o.ignoreProperties then .error (.usage .propertyModes)
  else .ok ()

end Options

namespace Extension

def apply (o : Options) : Extension → Options
  | ignoreSpace mode => { o with ignoreSpace := mode }
  | ignoreEolStyle => { o with ignoreEolStyle := true }
  | contextLines n => { o with contextLines := n }
  | unified => o

inductive Word where
  | whole (x : Extension)
  /-- The count follows as a word of its own. -/
  | wantsCount
  | bad (fault : UsageFault)

def lineCount (s : String) : Except UsageFault Nat :=
  match Text.natBelow? UInt64.size s with
  | some n => .ok n
  | none => .error (.lineCount s)

def Word.ofCount (s : String) : Word :=
  match lineCount s with
  | .ok n => whole (.contextLines n)
  | .error fault => bad fault

def Word.read (s : String) : Word :=
  if s == "-b" || s == "--ignore-space-change" then whole (.ignoreSpace .change)
  else if s == "-w" || s == "--ignore-all-space" then whole (.ignoreSpace .all)
  else if s == "--ignore-eol-style" then whole .ignoreEolStyle
  else if s == "-u" || s == "--unified" then whole .unified
  else if s == "-U" then wantsCount
  else match (Text.after? "--unified=" s).or (Text.after? "-U" s) with
    | some count => .ofCount count
    | none => bad (.extension s)

def readAll : List String → List Extension × Option UsageFault
  | [] => ([], none)
  | word :: rest =>
    match Word.read word with
    | .whole x => let (xs, fault) := readAll rest; (x :: xs, fault)
    | .bad fault => ([], some fault)
    | .wantsCount =>
      match rest with
      | [] => ([], some .lineCountMissing)
      | count :: rest =>
        match lineCount count with
        | .ok n => let (xs, fault) := readAll rest; (contextLines n :: xs, fault)
        | .error fault => ([], some fault)

end Extension

/-- Applies an extension text. What precedes a wrong word takes effect. -/
def Options.extend (o : Options) (s : String) : Options × Except DiffError Unit :=
  let (xs, fault) := Extension.readAll (Text.words s)
  (xs.foldl Extension.apply o,
    match fault with
    | none => .ok ()
    | some fault => .error (.usage fault))

end TreeDelta
