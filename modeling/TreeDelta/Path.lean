import TreeDelta.SyntaxError
import TreeDelta.Text.Fields
set_option autoImplicit false

/-!
# Paths of a tree

A path is the list of the names on the way down from the root, which is the
empty path. A name is a nonempty text without `/` other than `.` and `..`, so a
path has one written form and reading that form gives the path back.

Paths are ordered name by name. A path comes before everything below it and a
subtree is one contiguous run: `A`, `A/B`, `A/B/x`, `A-1`, `gamma`.
-/
namespace TreeDelta

def isName (s : String) : Bool :=
  !(s == "" || s == "." || s == ".." || s.toList.contains '/')

structure Name where
  text : String
  isName_text : isName text = true
deriving DecidableEq

namespace Name

def ofString? (s : String) : Option Name :=
  if h : isName s then some ⟨s, h⟩ else none

/-- Code point order, which is the order of the UTF-8 bytes. -/
instance : Ord Name := ⟨fun a b => compare a.text b.text⟩

theorem compare_def (a b : Name) : compare a b = compare a.text b.text := rfl

instance : Std.TransOrd Name where
  eq_swap {a b} := (Std.OrientedCmp.eq_swap : compare a.text b.text = _)
  isLE_trans {a b c} h h' := by
    rw [compare_def] at *
    exact Std.TransCmp.isLE_trans h h'

instance : Std.LawfulEqOrd Name where
  compare_self {a} := (Std.ReflCmp.compare_self : compare a.text a.text = _)
  eq_of_compare {a b} h := by
    rw [compare_def] at h
    have h := Std.LawfulEqCmp.eq_of_compare h
    cases a
    cases b
    simp_all

end Name

structure Path where
  names : List Name
deriving DecidableEq

namespace Path

instance : Ord Path := ⟨fun a b => compare a.names b.names⟩

theorem compare_def (a b : Path) : compare a b = compare a.names b.names := rfl

instance : Std.TransOrd Path where
  eq_swap {a b} := (Std.OrientedCmp.eq_swap : compare a.names b.names = _)
  isLE_trans {a b c} h h' := by
    rw [compare_def] at *
    exact Std.TransCmp.isLE_trans h h'

instance : Std.LawfulEqOrd Path where
  compare_self {a} := (Std.ReflCmp.compare_self : compare a.names a.names = _)
  eq_of_compare {a b} h := by
    rw [compare_def] at h
    have h := Std.LawfulEqCmp.eq_of_compare h
    cases a
    cases b
    simp_all

def root : Path := ⟨[]⟩

instance : Inhabited Path := ⟨root⟩

def isRoot (p : Path) : Bool := p.names.isEmpty

def text (p : Path) : String := "/".intercalate (p.names.map Name.text)

instance : ToString Path := ⟨text⟩

def depth (p : Path) : Nat := p.names.length

def namesOf (parts : List String) : List Name := parts.filterMap Name.ofString?

/-- Reads a path. Empty and `.` components are dropped and `..` is refused. -/
def parse (s : String) : Except SyntaxError Path :=
  let parts := Text.fields '/' s
  if parts.contains ".." then .error (.path s .leavesTree) else .ok ⟨namesOf parts⟩

def child (p : Path) (n : Name) : Path := ⟨p.names ++ [n]⟩

def join (p q : Path) : Path := ⟨p.names ++ q.names⟩

def parent? (p : Path) : Option Path :=
  if p.isRoot then none else some ⟨p.names.dropLast⟩

def name? (p : Path) : Option Name := p.names.getLast?

def ancestors (p : Path) : List Path := (List.range p.depth).map fun n => ⟨p.names.take n⟩

def dropStart? {α : Type} [DecidableEq α] : List α → List α → Option (List α)
  | [], l => some l
  | _ :: _, [] => none
  | a :: as, b :: bs => if a = b then dropStart? as bs else none

def below? (p base : Path) : Option Path := (dropStart? base.names p.names).map Path.mk

def isAtOrBelow (p base : Path) : Bool := (p.below? base).isSome

theorem dropStart?_eq_some_iff {α : Type} [DecidableEq α] {a l r : List α} :
    dropStart? a l = some r ↔ l = a ++ r := by
  induction a generalizing l with
  | nil => simp [dropStart?]
  | cons x a ih =>
    cases l with
    | nil => simp [dropStart?]
    | cons y l =>
      by_cases h : x = y
      · subst h
        simp [dropStart?, ih]
      · simp [dropStart?, h, Ne.symm h]

theorem below?_eq_some_iff {p base rel : Path} : p.below? base = some rel ↔ p = base.join rel := by
  obtain ⟨r⟩ := rel
  obtain ⟨l⟩ := p
  simp [below?, join, dropStart?_eq_some_iff]

@[simp] theorem join_root (p : Path) : p.join root = p := by simp [join, root]

@[simp] theorem root_join (p : Path) : root.join p = p := by simp [join, root]

theorem join_assoc (p q r : Path) : (p.join q).join r = p.join (q.join r) := by simp [join]

theorem join_child (p q : Path) (n : Name) : p.join (q.child n) = (p.join q).child n := by
  simp [join, child]

@[simp] theorem depth_child (p : Path) (n : Name) : (p.child n).depth = p.depth + 1 := by
  simp [depth, child]

@[simp] theorem parent?_child (p : Path) (n : Name) : (p.child n).parent? = some p := by
  simp [parent?, child, isRoot]

@[simp] theorem name?_child (p : Path) (n : Name) : (p.child n).name? = some n := by
  simp [name?, child]

end Path

end TreeDelta
