import TreeDelta.Proofs.WrittenPath
set_option autoImplicit false

namespace TreeDelta

theorem Name.ofString?_eq_none_iff {s : String} : ofString? s = none ↔ isName s = false := by
  rw [ofString?]
  split <;> simp_all

theorem Name.ofString?_eq_some_iff {s : String} {n : Name} : ofString? s = some n ↔ n.text = s := by
  constructor
  · intro h
    rw [ofString?] at h
    split at h
    · rw [← Option.some.inj h]
    · cases h
  · rintro rfl
    exact ofString?_text n

namespace Target

/-- From `depth` names below the root, `..` comes up more often somewhere along the parts than there are
names to go up from. -/
def ClimbsOut (depth : Nat) (parts : List String) : Prop :=
  ∃ before, before <+: parts ∧ depth + (Path.namesOf before).length < before.count ".."

theorem climbsOut_cons_iff {depth : Nat} {part : String} {parts : List String} :
    ClimbsOut depth (part :: parts) ↔ ∃ before, before <+: parts ∧
      depth + (Path.namesOf (part :: before)).length < (part :: before).count ".." := by
  constructor
  · rintro ⟨before, hbefore, hcount⟩
    rcases List.prefix_cons_iff.1 hbefore with rfl | ⟨rest, rfl, hrest⟩
    · exact absurd hcount (Nat.not_lt_zero _)
    · exact ⟨rest, hrest, hcount⟩
  · rintro ⟨before, hbefore, hcount⟩
    exact ⟨part :: before, List.cons_prefix_cons.2 ⟨rfl, hbefore⟩, hcount⟩

theorem climbsOut_up_iff {depth : Nat} {parts : List String} :
    ClimbsOut depth (".." :: parts) ↔ depth = 0 ∨ ClimbsOut (depth - 1) parts := by
  have hnames (before : List String) : Path.namesOf (".." :: before) = Path.namesOf before := rfl
  simp only [climbsOut_cons_iff, hnames, List.count_cons_self]
  constructor
  · rintro ⟨before, hbefore, hcount⟩
    by_cases hdepth : depth = 0
    · exact .inl hdepth
    · exact .inr ⟨before, hbefore, by omega⟩
  · rintro (rfl | ⟨before, hbefore, hcount⟩)
    · exact ⟨[], List.nil_prefix, by simp [Path.namesOf]⟩
    · exact ⟨before, hbefore, by omega⟩

theorem climbsOut_name_iff {depth : Nat} {n : Name} {parts : List String} :
    ClimbsOut depth (n.text :: parts) ↔ ClimbsOut (depth + 1) parts := by
  have hnames (before : List String) : Path.namesOf (n.text :: before) = n :: Path.namesOf before := by
    rw [Path.namesOf, List.filterMap_cons, n.ofString?_text]
    rfl
  simp only [climbsOut_cons_iff, hnames, List.count_cons_of_ne n.text_ne_dots, List.length_cons,
    Nat.add_right_comm, ← Nat.add_assoc]
  rfl

theorem climbsOut_still_iff {depth : Nat} {part : String} {parts : List String} (hdots : part ≠ "..")
    (hname : Name.ofString? part = none) : ClimbsOut depth (part :: parts) ↔ ClimbsOut depth parts := by
  have hnames (before : List String) : Path.namesOf (part :: before) = Path.namesOf before := by
    rw [Path.namesOf, List.filterMap_cons, hname]
    rfl
  simp only [climbsOut_cons_iff, hnames, List.count_cons_of_ne hdots]
  rfl

theorem walk_eq_none_iff {names : List Name} {parts : List String} :
    walk names parts = none ↔ ClimbsOut names.length parts := by
  fun_induction walk names parts with
  | case1 names => simp [ClimbsOut, Path.namesOf]
  | case2 names parts hroot => simp [climbsOut_up_iff, List.isEmpty_iff.1 hroot]
  | case3 names parts hroot ih =>
    have hlength : names.length ≠ 0 := fun h => hroot (List.isEmpty_iff_length_eq_zero.2 h)
    rw [ih, climbsOut_up_iff, List.length_dropLast, or_iff_right hlength]
  | case4 names part parts hdots n hname ih =>
    rw [ih, ← Name.ofString?_eq_some_iff.1 hname, climbsOut_name_iff, List.length_append, List.length_singleton]
  | case5 names part parts hdots hname ih => rw [ih, climbsOut_still_iff hdots hname]

theorem after?_slash {x y : String} (h : Text.after? "^/" (x ++ "/" ++ y) = none) : Text.after? "^/" x = none := by
  rw [Option.eq_none_iff_forall_ne_some] at h ⊢
  intro rest hrest
  refine h (rest ++ "/" ++ y) (Text.after?_eq_some_iff.2 ?_)
  rw [Text.after?_eq_some_iff.1 hrest, String.append_assoc, String.append_assoc, String.append_assoc]

theorem parse_of_after?_eq_none {s : String} {cwd : Path} (h : Text.after? "^/" s = none) :
    parse s cwd = match walk cwd.names (Text.fields '/' s) with
      | some names => .ok (workingCopy ⟨names⟩)
      | none => .error (.usage (.outsideWorkingCopy s)) := by
  cases hwalk : walk cwd.names (Text.fields '/' s) with
  | none => simp only [parse, h, hwalk]
  | some names => simp only [parse, h, hwalk]

variable {x y : String} {cwd p : Path}

theorem parse_slash (hy : Text.after? "^/" y = none) (hxy : Text.after? "^/" (x ++ "/" ++ y) = none)
    (hx : parse x cwd = .ok (.workingCopy p)) :
    (∃ e e', parse (x ++ "/" ++ y) cwd = .error e ∧ parse y p = .error e') ∨
      ∃ t, parse (x ++ "/" ++ y) cwd = .ok t ∧ parse y p = .ok t := by
  rw [parse_of_after?_eq_none hxy, parse_of_after?_eq_none hy, walk_fields_append,
    (parse_eq_workingCopy_iff.1 hx).2, Option.bind_some]
  cases walk p.names (Text.fields '/' y) with
  | none => exact .inl ⟨_, _, rfl, rfl⟩
  | some names => exact .inr ⟨_, rfl, rfl⟩

theorem parse_slash_of_error (hxy : Text.after? "^/" (x ++ "/" ++ y) = none) {e : DiffError}
    (hx : parse x cwd = .error e) :
    parse (x ++ "/" ++ y) cwd = .error (.usage (.outsideWorkingCopy (x ++ "/" ++ y))) := by
  rw [parse_of_after?_eq_none (after?_slash hxy)] at hx
  rw [parse_of_after?_eq_none hxy, walk_fields_append]
  cases hwalk : walk cwd.names (Text.fields '/' x) with
  | none => rfl
  | some names =>
    rw [hwalk] at hx
    cases hx

def walkTexts : List String → List String → Option (List String)
  | stack, [] => some stack
  | stack, part :: parts =>
    if part = "" ∨ part = "." then walkTexts stack parts
    else if part = ".." then
      if stack.isEmpty then none else walkTexts stack.dropLast parts
    else walkTexts (stack ++ [part]) parts

theorem walkTexts_map_text (names : List Name) {parts : List String}
    (hparts : ∀ part ∈ parts, '/' ∉ part.toList) :
    walkTexts (names.map Name.text) parts = (walk names parts).map (List.map Name.text) := by
  fun_induction walk names parts with
  | case1 names => rfl
  | case2 names parts hroot =>
    rw [List.isEmpty_iff.1 hroot]
    rfl
  | case3 names parts hroot ih =>
    rw [← ih (List.forall_mem_cons.1 hparts).2, walkTexts, List.map_dropLast, List.isEmpty_map, if_neg hroot]
    rfl
  | case4 names part parts hdots n hname ih =>
    obtain rfl := Name.ofString?_eq_some_iff.1 hname
    obtain ⟨hempty, hdot, -⟩ := n.text_apart
    rw [← ih (List.forall_mem_cons.1 hparts).2, walkTexts, if_neg (not_or.2 ⟨hempty, hdot⟩), if_neg hdots,
      List.map_append]
    rfl
  | case5 names part parts hdots hname ih =>
    obtain ⟨hpart, hrest⟩ := List.forall_mem_cons.1 hparts
    have hstill : part = "" ∨ part = "." := by
      have hname := mt isName_iff.2 (Bool.eq_false_iff.1 (Name.ofString?_eq_none_iff.1 hname))
      by_contra h
      exact hname ⟨⟨(not_or.1 h).1, (not_or.1 h).2, hdots⟩, hpart⟩
    rw [← ih hrest, walkTexts, if_pos hstill]

/-- Reads a target whose walk over texts is put together and read as a path. -/
def parseAgain (s : String) (cwd : Path) : Except DiffError Target :=
  match Text.after? "^/" s with
  | some url =>
    match Path.parse url with
    | .ok p => .ok (repository p)
    | .error e => .error (.usage (.badPath e))
  | none =>
    match walkTexts (WrittenPath.components cwd.text) (Text.fields '/' s) with
    | none => .error (.usage (.outsideWorkingCopy s))
    | some stack =>
      match Path.parse ("/".intercalate stack) with
      | .ok p => .ok (workingCopy p)
      | .error e => .error (.usage (.badPath e))

theorem walkTexts_components (s : String) (cwd : Path) :
    walkTexts (WrittenPath.components cwd.text) (Text.fields '/' s) =
      (walk cwd.names (Text.fields '/' s)).map (List.map Name.text) := by
  rw [Path.components_text]
  exact walkTexts_map_text cwd.names fun _ => Text.not_mem_of_mem_fields

theorem parse_walkTexts {s : String} {cwd : Path} {stack : List String}
    (h : walkTexts (WrittenPath.components cwd.text) (Text.fields '/' s) = some stack) :
    (∀ part ∈ stack, part ≠ "" ∧ part ≠ "." ∧ part ≠ "..") ∧
      ∃ p, Path.parse ("/".intercalate stack) = .ok p ∧ WrittenPath.components p.text = stack := by
  rw [walkTexts_components] at h
  obtain ⟨names, -, rfl⟩ := Option.map_eq_some_iff.1 h
  exact ⟨List.forall_mem_map.2 fun n _ => n.text_apart,
    ⟨names⟩, Path.parse_text ⟨names⟩, Path.components_text ⟨names⟩⟩

theorem parseAgain_eq (s : String) (cwd : Path) : parseAgain s cwd = parse s cwd := by
  rw [parseAgain, parse, walkTexts_components]
  cases Text.after? "^/" s with
  | some url => rfl
  | none =>
    cases walk cwd.names (Text.fields '/' s) with
    | none => rfl
    | some names =>
      have hread : Path.parse ("/".intercalate (names.map Name.text)) = .ok ⟨names⟩ := Path.parse_text ⟨names⟩
      simp only [Option.map_some, hread]

end Target

open Target in
/-- Reading a text in two parts, the second from where the first has led, comes to the same as reading
both in one, and what fails in its first part fails as a whole. A target in the working copy is a
canonical path and is read wherever the walk does not leave the tree; the walk may be one over texts, and
what it comes to is always read as a path. -/
theorem parse_in_parts :
    (∀ (x y : String) (cwd : Path), Text.after? "^/" y = none → Text.after? "^/" (x ++ "/" ++ y) = none →
      (∀ p, Target.parse x cwd = .ok (.workingCopy p) →
        (∃ e e', Target.parse (x ++ "/" ++ y) cwd = .error e ∧ Target.parse y p = .error e') ∨
          ∃ t, Target.parse (x ++ "/" ++ y) cwd = .ok t ∧ Target.parse y p = .ok t) ∧
      ∀ e, Target.parse x cwd = .error e → ∃ e', Target.parse (x ++ "/" ++ y) cwd = .error e') ∧
    (∀ (s : String) (cwd p : Path), Target.parse s cwd = .ok (.workingCopy p) →
      WrittenPath.IsCanonical p.text) ∧
    (∀ (s : String) (cwd : Path) (stack : List String),
      walkTexts (WrittenPath.components cwd.text) (Text.fields '/' s) = some stack →
      (∀ part ∈ stack, part ≠ "" ∧ part ≠ "." ∧ part ≠ "..") ∧
        ∃ p, Path.parse ("/".intercalate stack) = .ok p ∧ WrittenPath.components p.text = stack) ∧
    (∀ (s : String) (cwd : Path), Target.parseAgain s cwd = Target.parse s cwd) ∧
    ∀ (s : String) (cwd : Path), Text.after? "^/" s = none →
      ((∃ e, Target.parse s cwd = .error e) ↔ ClimbsOut cwd.depth (Text.fields '/' s)) := by
  refine ⟨fun x y cwd hy hxy => ⟨fun p hx => parse_slash hy hxy hx, fun e hx => ⟨_, parse_slash_of_error hxy hx⟩⟩,
    fun s cwd p _ => p.text_isCanonical, fun s cwd stack h => parse_walkTexts h, parseAgain_eq,
    fun s cwd hs => ?_⟩
  rw [parse_of_after?_eq_none hs, Path.depth, ← walk_eq_none_iff]
  cases walk cwd.names (Text.fields '/' s) <;> simp

namespace UpAndDown

def a : Name := ⟨"A", Eq.refl true⟩

def b : Name := ⟨"B", Eq.refl true⟩

def e : Name := ⟨"E", Eq.refl true⟩

def cwd : Path := ⟨[a, b]⟩

theorem parse_first : Target.parse "..//E/" cwd = .ok (.workingCopy ⟨[a, e]⟩) := rfl

theorem parse_second : Target.parse "../../.f" ⟨[a, e]⟩ = .ok (.workingCopy ⟨[⟨".f", Eq.refl true⟩]⟩) := rfl

end UpAndDown

open UpAndDown in
theorem parse_in_parts_upAndDown :
    Target.parse "..//E/" cwd = .ok (.workingCopy ⟨[a, e]⟩) ∧
      Target.parse ("..//E/" ++ "/" ++ "../../.f") cwd = .ok (.workingCopy ⟨[⟨".f", Eq.refl true⟩]⟩) ∧
      ∃ e, Target.parse ("../B/../../.." ++ "/" ++ "A/B/C") cwd = .error e := by
  obtain ⟨hparts, -⟩ := parse_in_parts
  refine ⟨parse_first, ?_, (hparts _ _ cwd (by decide) (by decide)).2 _ (by rfl)⟩
  rcases (hparts _ "../../.f" cwd (by decide) (by decide)).1 _ parse_first with ⟨e, e', -, he⟩ | ⟨t, ht, ht'⟩
  · rw [parse_second] at he
    cases he
  · rw [ht, ← ht', parse_second]

end TreeDelta
