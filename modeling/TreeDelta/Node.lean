import TreeDelta.Digest
import TreeDelta.EolStyle
import TreeDelta.OrderedMap
import TreeDelta.Path
set_option autoImplicit false

namespace TreeDelta

inductive NodeKind where
  | file
  | directory
  | nonexistent
deriving DecidableEq, Repr

def NodeKind.text : NodeKind → String
  | file => "file"
  | directory => "dir"
  | nonexistent => "none"

instance : ToString NodeKind := ⟨NodeKind.text⟩

inductive Origin where
  | revision (n : Nat)
  | workingCopy
deriving DecidableEq, Repr

namespace Origin

def revision? : Origin → Option Nat
  | revision n => some n
  | workingCopy => none

def text : Origin → String
  | revision n => s!"revision {n}"
  | workingCopy => "working copy"

instance : ToString Origin := ⟨text⟩

end Origin

/-- The node that a copy was made from: a path of the repository at a revision. -/
structure CopySource where
  path : Path
  revision : Nat
deriving DecidableEq

namespace CopySource

def descend (s : CopySource) (rel : Path) : CopySource := { s with path := s.path.join rel }

def text (s : CopySource) : String := s!"{s.path}@{s.revision}"

instance : ToString CopySource := ⟨text⟩

instance : Ord CopySource :=
  ⟨fun a b => (compare a.path b.path).then (compare a.revision b.revision)⟩

theorem compare_eq (a b : CopySource) :
    compare a b = compareLex (compareOn path) (compareOn revision) a b := rfl

instance : Std.TransOrd CopySource where
  eq_swap {a b} := by
    rw [compare_eq, compare_eq]
    exact Std.OrientedCmp.eq_swap
  isLE_trans {a b c} h h' := by
    rw [compare_eq] at *
    exact Std.TransCmp.isLE_trans h h'

instance : Std.LawfulEqOrd CopySource where
  compare_self {a} := by simp
  eq_of_compare {a b} h := by
    simp only [compare_eq, compareLex, compareOn, Ordering.then_eq_eq] at h
    have hp := Std.LawfulEqCmp.eq_of_compare h.1
    have hr := Std.LawfulEqCmp.eq_of_compare h.2
    cases a
    cases b
    simp_all

end CopySource

abbrev Props := OrderedMap String String

namespace Props

def mimeTypeName : String := "svn:mime-type"
def eolStyleName : String := "svn:eol-style"
def executableName : String := "svn:executable"

end Props

structure Node where
  /-- Relative to the root of the tree that the node belongs to. -/
  path : Path
  kind : NodeKind
  content : Option ContentId
  props : Props
  origin : Origin
  /-- The place in the repository, when it is known. -/
  reposPath : Option Path
  copySource : Option CopySource
  /-- The node took the place of an unrelated one. -/
  replaced : Bool
deriving DecidableEq

namespace Node

def bare (path : Path) (kind : NodeKind) (origin : Origin) : Node where
  path := path
  kind := kind
  content := none
  props := .empty
  origin := origin
  reposPath := none
  copySource := none
  replaced := false

def nonexistent (path : Path) (origin : Origin) : Node := bare path .nonexistent origin

def isPresent (n : Node) : Bool := n.kind != .nonexistent

def isFile (n : Node) : Bool := n.kind == .file

def isDirectory (n : Node) : Bool := n.kind == .directory

def withProps (n : Node) (props : Props) : Node := if n.isPresent then { n with props := props } else n

def label (n : Node) : String := if n.isPresent then n.origin.text else "nonexistent"

def mimeType (n : Node) : Option String := n.props.get? Props.mimeTypeName

/-- The style the node asks for; a text that names no style asks for nothing. -/
def eolStyle (n : Node) : Option EolStyle :=
  (n.props.get? Props.eolStyleName).bind fun text => (EolStyle.parse text).toOption

def isExecutable (n : Node) : Bool := n.props.contains Props.executableName

/-- A file with a mime type that is neither text nor an image in a text form. -/
def isBinary (n : Node) : Bool :=
  match n.mimeType with
  | none => false
  | some mime =>
    (Text.after? "text/" mime).isNone && mime != "image/x-xbitmap" && mime != "image/x-xpixmap"

/-- The node is a committed one at the path that `source` names. -/
def isCopySource (n : Node) (source : CopySource) : Bool :=
  n.isPresent && n.origin.revision?.isSome && n.reposPath == some source.path

end Node

end TreeDelta
