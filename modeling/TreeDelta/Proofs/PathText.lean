import Mathlib.Data.List.DropRight
import TreeDelta.Comparison
import TreeDelta.Proofs.Fields
import TreeDelta.Proofs.Subtree
set_option autoImplicit false

namespace TreeDelta

namespace Name

theorem text_ne_dots (n : Name) : n.text ≠ ".." := by
  intro h
  have hname := n.isName_text
  simp [isName, h] at hname

theorem slash_not_mem (n : Name) : '/' ∉ n.text.toList := by
  intro h
  have hname := n.isName_text
  simp [isName, h] at hname

theorem text_injective : Function.Injective Name.text := by
  intro a b h
  cases a
  cases b
  simpa using h

@[simp] theorem ofString?_text (n : Name) : ofString? n.text = some n := by
  rw [ofString?, dif_pos n.isName_text]

end Name

namespace Path

theorem root_text : Path.root.text = "" := rfl

theorem mk_ne_root_iff {names : List Name} : Path.mk names ≠ .root ↔ names ≠ [] := by
  simp [root]

theorem text_child_root (n : Name) : (Path.root.child n).text = n.text := rfl

theorem text_cons {n : Name} {names : List Name} (h : names ≠ []) :
    (Path.mk (n :: names)).text = n.text ++ "/" ++ (Path.mk names).text := by
  cases names with
  | nil => exact absurd rfl h
  | cons m names => simp [text, String.intercalate_cons_cons]

theorem text_join {p q : Path} (hp : p ≠ .root) (hq : q ≠ .root) :
    (p.join q).text = p.text ++ "/" ++ q.text := by
  obtain ⟨names⟩ := p
  obtain ⟨names'⟩ := q
  induction names with
  | nil => exact absurd rfl hp
  | cons n names ih =>
    by_cases hnames : names = []
    · subst hnames
      exact text_cons (mk_ne_root_iff.1 hq)
    · have hrest : names ++ names' ≠ [] := by simp [hnames]
      have hsplit : (Path.mk (names ++ names')).text = (Path.mk names).text ++ "/" ++ (Path.mk names').text :=
        ih (mk_ne_root_iff.2 hnames)
      rw [text_cons hnames, join]
      simp only [List.cons_append]
      rw [text_cons hrest, hsplit]
      simp [String.append_assoc]

theorem fields_text {p : Path} (h : p ≠ .root) : Text.fields '/' p.text = p.names.map Name.text := by
  refine Text.fields_intercalate (mt List.map_eq_nil_iff.1 (mk_ne_root_iff.1 h)) ?_
  exact List.forall_mem_map.2 fun n _ => n.slash_not_mem

theorem namesOf_map_text (names : List Name) : namesOf (names.map Name.text) = names := by
  rw [namesOf, List.filterMap_map]
  simp

theorem parse_text (p : Path) : parse p.text = .ok p := by
  by_cases h : p = .root
  · subst h
    rfl
  · have hdots : (p.names.map Name.text).contains ".." = false := by
      simp only [List.contains_eq_mem, decide_eq_false_iff_not, List.mem_map, not_exists, not_and]
      exact fun n _ => n.text_ne_dots
    rw [parse, fields_text h, hdots, namesOf_map_text]
    rfl

theorem text_injective : Function.Injective Path.text := by
  intro p q h
  have hparse : parse p.text = parse q.text := congrArg parse h
  rw [parse_text, parse_text] at hparse
  exact Except.ok.inj hparse

theorem text_eq_empty_iff {p : Path} : p.text = "" ↔ p = .root :=
  ⟨fun h => text_injective (h.trans root_text.symm), fun h => h ▸ root_text⟩

theorem text_ne_dot (p : Path) : p.text ≠ "." := by
  intro h
  have hparse := p.parse_text
  rw [h] at hparse
  obtain rfl : Path.root = p := Except.ok.inj hparse
  exact absurd h (by decide)

end Path

theorem trimSlashes_ofList (cs : List Char) :
    trimSlashes (String.ofList cs) = String.ofList (cs.rdropWhile (· == '/')) := by
  rw [trimSlashes, String.toList_ofList, List.rdropWhile]

namespace Target

theorem parse_eq_workingCopy_iff {s : String} {cwd p : Path} :
    parse s cwd = .ok (.workingCopy p) ↔
      Text.after? "^/" s = none ∧ walk cwd.names (Text.fields '/' s) = some p.names := by
  obtain ⟨names⟩ := p
  rw [parse]
  cases Text.after? "^/" s with
  | some url => cases hurl : Path.parse url <;> simp [hurl]
  | none => cases hnames : walk cwd.names (Text.fields '/' s) <;> simp

theorem parse_marked (q cwd : Path) : parse ("^/" ++ q.text) cwd = .ok (.repository q) := by
  rw [parse, Text.after?_eq_some_iff.2 rfl]
  simp only [Path.parse_text]

theorem walk_append (names : List Name) (parts parts' : List String) :
    walk names (parts ++ parts') = (walk names parts).bind fun reached => walk reached parts' := by
  induction parts generalizing names with
  | nil => rfl
  | cons part parts ih =>
    rw [List.cons_append, walk, walk]
    split
    · split
      · rfl
      · exact ih _
    · split
      · exact ih _
      · exact ih _

theorem walk_map_text (names names' : List Name) :
    walk names (names'.map Name.text) = some (names ++ names') := by
  induction names' generalizing names with
  | nil => simp [walk]
  | cons n names' ih =>
    rw [List.map_cons, walk, if_neg n.text_ne_dots, Name.ofString?_text]
    simp [ih]

theorem walk_fields_text (names : List Name) (p : Path) :
    walk names (Text.fields '/' p.text) = some (names ++ p.names) := by
  by_cases h : p = .root
  · subst h
    change walk names [""] = _
    rw [walk, if_neg (by decide)]
    simp [walk, Name.ofString?, isName, Path.root]
  · rw [Path.fields_text h, walk_map_text]

theorem walk_fields_append (names : List Name) (s t : String) :
    walk names (Text.fields '/' (s ++ "/" ++ t)) =
      (walk names (Text.fields '/' s)).bind fun reached => walk reached (Text.fields '/' t) := by
  rw [Text.fields_append, walk_append]

theorem walk_nothing (names : List Name) : walk names (Text.fields '/' "") = some names := by
  have hroot := walk_fields_text names .root
  rwa [Path.root_text, Path.root, List.append_nil] at hroot

theorem walk_trimSlashes (names : List Name) (s : String) :
    walk names (Text.fields '/' (trimSlashes s)) = walk names (Text.fields '/' s) := by
  obtain ⟨cs, rfl⟩ : ∃ cs, s = String.ofList cs := ⟨s.toList, String.ofList_toList.symm⟩
  induction cs using List.reverseRecOn with
  | nil => rfl
  | append_singleton cs c ih =>
    rw [trimSlashes_ofList] at ih ⊢
    by_cases hc : c = '/'
    · subst hc
      have hslash : String.ofList (cs ++ ['/']) = String.ofList cs ++ "/" ++ "" := by simp
      rw [List.rdropWhile_concat_pos _ _ _ (by rfl), ih, hslash, walk_fields_append]
      simp only [walk_nothing, Option.bind_fun_some]
    · rw [List.rdropWhile_concat_neg _ _ _ (by simpa using hc)]

end Target

end TreeDelta
