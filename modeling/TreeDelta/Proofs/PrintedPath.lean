import TreeDelta.Proofs.PathText
set_option autoImplicit false

namespace TreeDelta

/-- What printed paths start with: the root text without `/` at its end, if it has anything else. -/
def stem (root : String) : String := if (trimSlashes root).isEmpty then root else trimSlashes root

theorem displayPath_root (root : String) :
    displayPath root .root = if stem root = "" then "." else stem root := by
  simp [displayPath, stem, Path.isRoot, Path.root]

theorem displayPath_below {root : String} {rel : Path} (h : rel ≠ .root) :
    displayPath root rel =
      if stem root = "" ∨ stem root = "." then rel.text else stem root ++ "/" ++ rel.text := by
  have hroot : rel.isRoot = false := Bool.eq_false_iff.2 (mt Path.isRoot_iff.1 h)
  simp [displayPath, stem, hroot]

theorem stem_append (root : String) :
    ∃ slashes : List Char, root = stem root ++ String.ofList slashes ∧ ∀ c ∈ slashes, c = '/' := by
  unfold stem
  split
  · exact ⟨[], by simp, by simp⟩
  · refine ⟨root.toList.rtakeWhile (· == '/'), ?_, fun c hc => ?_⟩
    · have htrim := trimSlashes_ofList root.toList
      rw [String.ofList_toList] at htrim
      rw [htrim, ← String.ofList_append, List.rdropWhile_append_rtakeWhile, String.ofList_toList]
    · simpa using List.mem_rtakeWhile_imp hc

theorem displayPath_injective (root : String) : Function.Injective (displayPath root) := by
  have hroot : ∀ rel, rel ≠ .root → displayPath root .root ≠ displayPath root rel := by
    intro rel hrel heq
    rw [displayPath_root, displayPath_below hrel] at heq
    by_cases hempty : stem root = ""
    · simp only [hempty, true_or, if_true] at heq
      exact rel.text_ne_dot heq.symm
    · by_cases hdot : stem root = "."
      · simp only [hdot, or_true, if_true] at heq
        exact rel.text_ne_dot heq.symm
      · simp only [hempty, hdot, or_false, if_false] at heq
        have hlength := congrArg String.length heq
        rw [Text.length_slash] at hlength
        omega
  intro rel rel' heq
  by_cases hrel : rel = .root
  · subst hrel
    by_contra hne
    exact hroot rel' (Ne.symm hne) heq
  · by_cases hrel' : rel' = .root
    · subst hrel'
      exact absurd heq.symm (hroot rel hrel)
    · rw [displayPath_below hrel, displayPath_below hrel'] at heq
      split at heq
      · exact Path.text_injective heq
      · exact Path.text_injective (String.append_right_inj _ |>.1 heq)

def Spells (root : String) (base : Path) : Prop := stem root = base.text ∨ base = .root ∧ stem root = "."

/-- The way down leads to the place from where the root text says. The root has no name to print. -/
def PrintsPlace (root : String) (rel place : Path) : Prop :=
  place ≠ .root ∧ ∃ base : Path, place = base.join rel ∧ Spells root base

theorem Path.exists_of_fields_append {q rel : Path} {parts : List String} (hq : q ≠ .root)
    (hrel : rel ≠ .root) (h : Text.fields '/' q.text = parts ++ Text.fields '/' rel.text) :
    ∃ base : Path, q = base.join rel := by
  rw [fields_text hq, fields_text hrel] at h
  obtain ⟨above, below, hnames, -, hbelow⟩ := List.map_eq_append_iff.1 h
  refine ⟨⟨above⟩, ?_⟩
  obtain ⟨names⟩ := q
  rw [List.map_injective_iff.2 Name.text_injective hbelow] at hnames
  exact congrArg Path.mk hnames

theorem displayPath_eq_text_iff {root : String} {rel q : Path} :
    displayPath root rel = q.text ↔ PrintsPlace root rel q := by
  constructor
  · intro h
    by_cases hrel : rel = .root
    · subst hrel
      rw [displayPath_root] at h
      split at h
      · exact absurd h.symm q.text_ne_dot
      · rename_i hne
        rw [h, Path.text_eq_empty_iff] at hne
        exact ⟨hne, q, q.join_root.symm, .inl h⟩
    · rw [displayPath_below hrel] at h
      split at h
      · rename_i hbare
        obtain rfl := Path.text_injective h
        exact ⟨hrel, .root, rel.root_join.symm, hbare.imp id fun hdot => ⟨rfl, hdot⟩⟩
      · have hq : q ≠ .root := by
          rintro rfl
          have hlength := congrArg String.length h
          rw [Text.length_slash, Path.root_text, String.length_empty] at hlength
          omega
        obtain ⟨base, rfl⟩ := Path.exists_of_fields_append hq hrel <| by
          rw [← h, Text.fields_append]
        have hbase : base ≠ .root := by
          rintro rfl
          rw [Path.root_join] at h
          have hlength := congrArg String.length h
          rw [Text.length_slash] at hlength
          omega
        rw [Path.text_join hbase hrel, String.append_assoc, String.append_assoc] at h
        exact ⟨hq, base, rfl, .inl (String.append_left_inj _ |>.1 h)⟩
  · rintro ⟨hq, base, rfl, hspells⟩
    by_cases hrel : rel = .root
    · subst hrel
      rw [Path.join_root] at hq ⊢
      have hstem := hspells.resolve_right fun h => hq h.1
      rw [displayPath_root, hstem, if_neg (mt Path.text_eq_empty_iff.1 hq)]
    · rw [displayPath_below hrel]
      by_cases hbase : base = .root
      · subst hbase
        have hbare : stem root = "" ∨ stem root = "." := hspells.imp id And.right
        rw [if_pos hbare, Path.root_join]
      · have hstem := hspells.resolve_right fun h => hbase h.1
        have hbare : ¬ (stem root = "" ∨ stem root = ".") := by
          rw [hstem]
          exact not_or.2 ⟨mt Path.text_eq_empty_iff.1 hbase, base.text_ne_dot⟩
        rw [if_neg hbare, hstem, Path.text_join hbase hrel]

/-- The way down is read as a path of the repository: the root text is the sign that marks such a
path, or nothing is printed in front of the way down and it starts with that sign. -/
def ReadsAsRepository (root : String) (rel q : Path) : Prop :=
  q ≠ .root ∧ (root = "^" ∧ rel = q ∨
    (root = "" ∨ trimSlashes root = ".") ∧ ∃ caret : Name, caret.text = "^" ∧
      rel = (Path.root.child caret).join q)

theorem walk_stem (names : List Name) (root : String) :
    Target.walk names (Text.fields '/' (stem root)) = Target.walk names (Text.fields '/' root) := by
  unfold stem
  split
  · rfl
  · exact Target.walk_trimSlashes names root

theorem walk_displayPath {names names' : List Name} {root : String}
    (h : Target.walk names (Text.fields '/' root) = some names') (rel : Path) :
    Target.walk names (Text.fields '/' (displayPath root rel)) = some (names' ++ rel.names) := by
  rw [← walk_stem] at h
  have hdot : Target.walk names (Text.fields '/' ".") = some names := by
    change Target.walk names ["."] = _
    rw [Target.walk, if_neg (by decide)]
    rfl
  have hhere : stem root = "" ∨ stem root = "." → names' = names := by
    rintro (hstem | hstem)
    · rw [hstem, Target.walk_nothing] at h
      exact (Option.some.inj h).symm
    · rw [hstem, hdot] at h
      exact (Option.some.inj h).symm
  by_cases hrel : rel = .root
  · subst hrel
    rw [displayPath_root, Path.root, List.append_nil]
    split
    · rename_i hstem
      rw [hdot, hhere (.inl hstem)]
    · exact h
  · rw [displayPath_below hrel]
    split
    · rename_i hstem
      rw [Target.walk_fields_text, hhere hstem]
    · rw [Target.walk_fields_append, h]
      exact Target.walk_fields_text names' rel

theorem stem_bare_iff {root : String} :
    stem root = "" ∨ stem root = "." ↔ root = "" ∨ trimSlashes root = "." := by
  unfold stem
  constructor
  · intro h
    split at h
    · rcases h with rfl | rfl
      · exact .inl rfl
      · exact .inr rfl
    · rename_i hne
      refine .inr (h.resolve_left fun hempty => hne ?_)
      rw [hempty]
      rfl
  · rintro (rfl | hdot)
    · exact .inl rfl
    · rw [hdot]
      exact .inr rfl

theorem ne_marked {s : String} (h : s.length ≤ 1) (rest : String) : s ≠ "^/" ++ rest := by
  intro heq
  have hlength := congrArg String.length heq
  have hsign : "^/".length = 2 := rfl
  rw [String.length_append, hsign] at hlength
  omega

/-- A printed path starts with the sign of the repository only if the root text is part of that sign. -/
theorem stem_marked {root s rest : String} (hroot : Text.after? "^/" root = none)
    (h : stem root ++ s = "^/" ++ rest) : stem root = "" ∨ root = "^" := by
  have hne : ∀ t, root.toList ≠ '^' :: '/' :: t := fun t ht => by
    have hmarked : root = "^/" ++ String.ofList t := String.toList_inj.1 (by simpa using ht)
    rw [Text.after?_eq_some_iff.2 hmarked] at hroot
    cases hroot
  obtain ⟨slashes, hslashes, hall⟩ := stem_append root
  have hslashes : root.toList = (stem root).toList ++ slashes := by
    simpa using congrArg String.toList hslashes
  have h : (stem root).toList ++ s.toList = '^' :: '/' :: rest.toList := by
    simpa using congrArg String.toList h
  cases hstem : (stem root).toList with
  | nil => exact .inl (String.toList_inj.1 hstem)
  | cons c cs =>
    rw [hstem] at h hslashes
    cases cs with
    | nil =>
      obtain rfl : c = '^' := (List.cons.inj h).1
      cases slashes with
      | nil => exact .inr (String.toList_inj.1 hslashes)
      | cons d slashes =>
        obtain rfl : d = '/' := hall d List.mem_cons_self
        exact absurd hslashes (hne slashes)
    | cons d cs =>
      simp only [List.cons_append, List.cons.injEq] at h
      obtain ⟨rfl, rfl, -⟩ := h
      exact absurd hslashes (hne (cs ++ slashes))

theorem caret_text_join {caret : Name} {q : Path} (hcaret : caret.text = "^") (hq : q ≠ .root) :
    ((Path.root.child caret).join q).text = "^/" ++ q.text := by
  rw [Path.text_join (Path.child_ne_root _ _) hq, Path.text_child_root, hcaret]
  rfl

theorem Path.text_marked {p : Path} {rest : String} (h : p.text = "^/" ++ rest) :
    ∃ (caret : Name) (q : Path), caret.text = "^" ∧ q ≠ .root ∧ p = (Path.root.child caret).join q ∧
      rest = q.text := by
  have hp : p ≠ .root := by
    rintro rfl
    exact ne_marked (by decide) rest h
  obtain ⟨names⟩ := p
  have hfields : names.map Name.text = "^" :: Text.fields '/' rest := by
    have hsplit : "^/" ++ rest = "^" ++ "/" ++ rest := rfl
    rw [← fields_text hp, h, hsplit, Text.fields_append]
    rfl
  obtain ⟨caret, names, rfl, hcaret, hrest⟩ := List.map_eq_cons_iff.1 hfields
  have hq : (⟨names⟩ : Path) ≠ .root := by
    rw [mk_ne_root_iff]
    rintro rfl
    exact Text.fields_ne_nil '/' rest hrest.symm
  refine ⟨caret, ⟨names⟩, hcaret, hq, rfl, ?_⟩
  have htext := caret_text_join hcaret hq
  change (Path.mk (caret :: names)).text = _ at htext
  rw [htext] at h
  exact (String.append_right_inj _ |>.1 h).symm

theorem after?_displayPath_iff {root : String} (hroot : Text.after? "^/" root = none) {rel : Path}
    {rest : String} : Text.after? "^/" (displayPath root rel) = some rest ↔
      ∃ q, ReadsAsRepository root rel q ∧ rest = q.text := by
  rw [Text.after?_eq_some_iff]
  constructor
  · intro h
    by_cases hrel : rel = .root
    · subst hrel
      rw [displayPath_root] at h
      split at h
      · exact absurd h (ne_marked (by decide) rest)
      · rename_i hne
        rcases stem_marked (s := "") hroot (by simpa using h) with hempty | rfl
        · exact absurd hempty hne
        · exact absurd h (ne_marked (by decide) rest)
    · rw [displayPath_below hrel] at h
      split at h
      · rename_i hbare
        obtain ⟨caret, q, hcaret, hq, rfl, rfl⟩ := Path.text_marked h
        exact ⟨q, ⟨hq, .inr ⟨stem_bare_iff.1 hbare, caret, hcaret, rfl⟩⟩, rfl⟩
      · rename_i hbare
        rw [String.append_assoc] at h
        rcases stem_marked hroot h with hempty | rfl
        · exact absurd (.inl hempty) hbare
        · exact ⟨rel, ⟨hrel, .inl ⟨rfl, rfl⟩⟩, (String.append_right_inj "^/" |>.1 h).symm⟩
  · rintro ⟨q, ⟨hq, ⟨rfl, rfl⟩ | ⟨hbare, caret, hcaret, rfl⟩⟩, rfl⟩
    · rw [displayPath_below hq]
      rfl
    · have hne : (Path.root.child caret).join q ≠ .root := fun h => by
        cases congrArg Path.names h
      rw [displayPath_below hne, if_pos (stem_bare_iff.2 hbare), caret_text_join hcaret hq]

/-- Different ways down are printed differently. Each is read, from where the root text was read, as
the path that it leads to, unless the sign of the repository comes about where it is printed. -/
theorem parse_displayPath {root : String} {cwd p : Path}
    (h : Target.parse root cwd = .ok (.workingCopy p)) :
    (∀ rel, (∀ q, ¬ ReadsAsRepository root rel q) →
        Target.parse (displayPath root rel) cwd = .ok (.workingCopy (p.join rel))) ∧
      (∀ rel q, ReadsAsRepository root rel q →
        Target.parse (displayPath root rel) cwd = .ok (.repository q)) ∧
      Function.Injective (displayPath root) := by
  rw [Target.parse_eq_workingCopy_iff] at h
  obtain ⟨hunmarked, hwalk⟩ := h
  refine ⟨fun rel hrel => ?_, fun rel q hrel => ?_, displayPath_injective root⟩
  · refine Target.parse_eq_workingCopy_iff.2 ⟨?_, walk_displayPath hwalk rel⟩
    refine Option.eq_none_iff_forall_ne_some.2 fun rest hrest => ?_
    obtain ⟨q, hq, -⟩ := (after?_displayPath_iff hunmarked).1 hrest
    exact hrel q hq
  · have hmarked := (after?_displayPath_iff hunmarked).2 ⟨q, hrel, rfl⟩
    rw [Text.after?_eq_some_iff.1 hmarked]
    exact Target.parse_marked q cwd

namespace Punctuation

def caret : Path := Path.root.child ⟨"^", Eq.refl true⟩

def below : Path := caret.child ⟨"x", Eq.refl true⟩

def here : Path := Path.root.child ⟨"e", Eq.refl true⟩

def directory : Path := Path.root.child ⟨"d", Eq.refl true⟩

end Punctuation

open Punctuation in
theorem parse_displayPath_punctuation :
    Target.parse "..//d/" here = .ok (.workingCopy directory) ∧
      displayPath "..//d/" below = "..//d/^/x" ∧
      Target.parse "..//d/^/x" here = .ok (.workingCopy (directory.join below)) ∧
      Target.parse "." here = .ok (.workingCopy here) ∧ displayPath "." below = "^/x" ∧
      Target.parse "^/x" here = .ok (.repository (Path.root.child ⟨"x", Eq.refl true⟩)) := by
  have hdirectory : Target.parse "..//d/" here = .ok (.workingCopy directory) := by rfl
  have hhere : Target.parse "." here = .ok (.workingCopy here) := by rfl
  have hprinted : displayPath "..//d/" below = "..//d/^/x" := by decide +kernel
  have hmarked : displayPath "." below = "^/x" := by decide +kernel
  refine ⟨hdirectory, hprinted, ?_, hhere, hmarked, ?_⟩
  · rw [← hprinted]
    apply (parse_displayPath hdirectory).1
    rintro q ⟨-, ⟨hroot, -⟩ | ⟨hroot | hdot, -⟩⟩
    · exact absurd hroot (by decide)
    · exact absurd hroot (by decide)
    · exact absurd hdot (by decide +kernel)
  · rw [← hmarked]
    apply (parse_displayPath hhere).2.1
    exact ⟨Path.child_ne_root _ _, .inr ⟨.inr rfl, _, rfl, rfl⟩⟩

open Punctuation in
/-- A path below a directory whose name is the sign of the repository is not read as it was printed. -/
theorem parse_displayPath_ne :
    ¬ ∀ (root : String) (cwd p : Path), Target.parse root cwd = .ok (.workingCopy p) →
      (∀ rel, Target.parse (displayPath root rel) cwd = .ok (.workingCopy (p.join rel))) ∧
        Function.Injective (displayPath root) := by
  intro h
  have hread := (h "." .root .root (by rfl)).1 below
  have hmarked : displayPath "." below = "^/" ++ (Path.root.child ⟨"x", Eq.refl true⟩).text := by
    decide +kernel
  rw [hmarked, Target.parse_marked] at hread
  cases hread

end TreeDelta
