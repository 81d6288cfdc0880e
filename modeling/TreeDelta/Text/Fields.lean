set_option autoImplicit false

namespace TreeDelta.Text

def splitAll (sep : Char) : List Char → List (List Char)
  | [] => [[]]
  | c :: cs =>
    if c = sep then [] :: splitAll sep cs
    else match splitAll sep cs with
      | [] => [[c]]
      | f :: fs => (c :: f) :: fs

theorem length_splitAll (sep : Char) (cs : List Char) :
    (splitAll sep cs).length = cs.count sep + 1 := by
  induction cs with
  | nil => rfl
  | cons c cs ih =>
    rw [splitAll]
    by_cases h : c = sep
    · simp [h, ih]
    · rw [if_neg h, List.count_cons_of_ne h]
      split
      · next hs => simp [hs] at ih
      · next hs => simpa [hs] using ih

theorem intercalate_splitAll (sep : Char) (cs : List Char) :
    [sep].intercalate (splitAll sep cs) = cs := by
  induction cs with
  | nil => rfl
  | cons c cs ih =>
    rw [splitAll]
    cases hs : splitAll sep cs with
    | nil => simpa [hs] using length_splitAll sep cs
    | cons f fs =>
      rw [hs] at ih
      by_cases h : c = sep
      · simp only [h, if_true]
        rw [← ih]
        rfl
      · simp only [h, if_false]
        rw [← ih]
        cases fs <;> rfl

def fields (sep : Char) (s : String) : List String :=
  (splitAll sep s.toList).map String.ofList

def splitFirst (sep : Char) : List Char → Option (List Char × List Char)
  | [] => none
  | c :: cs =>
    if c = sep then some ([], cs)
    else (splitFirst sep cs).map fun (l, r) => (c :: l, r)

def splitLast (sep : Char) (cs : List Char) : Option (List Char × List Char) :=
  (splitFirst sep cs.reverse).map fun (r, l) => (l.reverse, r.reverse)

def cutFirst (sep : Char) (s : String) : Option (String × String) :=
  (splitFirst sep s.toList).map fun (l, r) => (String.ofList l, String.ofList r)

def cutLast (sep : Char) (s : String) : Option (String × String) :=
  (splitLast sep s.toList).map fun (l, r) => (String.ofList l, String.ofList r)

def after? (start s : String) : Option String :=
  if start.toList.isPrefixOf s.toList then some (String.ofList (s.toList.drop start.length))
  else none

end TreeDelta.Text
