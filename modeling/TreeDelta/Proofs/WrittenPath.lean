import TreeDelta.Proofs.PathText
set_option autoImplicit false

namespace TreeDelta

namespace WrittenPath

/-- The written form of a path: the empty text, or names with one `/` between them. -/
def IsCanonical (s : String) : Prop :=
  s = "" ∨ ∀ part ∈ Text.fields '/' s, part ≠ "" ∧ part ≠ "." ∧ part ≠ ".."

instance (s : String) : Decidable (IsCanonical s) :=
  inferInstanceAs (Decidable (s = "" ∨ ∀ part ∈ Text.fields '/' s, part ≠ "" ∧ part ≠ "." ∧ part ≠ ".."))

def components (s : String) : List String := (Text.fields '/' s).filter fun part => part != ""

def child (s name : String) : String := if s = "" then name else s ++ "/" ++ name

def join (s t : String) : String := if s = "" then t else if t = "" then s else s ++ "/" ++ t

def parent? (s : String) : Option String :=
  if s = "" then none
  else match Text.cutLast '/' s with
    | some (dir, _) => some dir
    | none => some ""

def name? (s : String) : Option String :=
  if s = "" then none
  else match Text.cutLast '/' s with
    | some (_, name) => some name
    | none => some s

/-- What follows `base` and a `/` in `s`. -/
def below? (s base : String) : Option String :=
  if base = "" then some s
  else if s = base then some ""
  else (Text.after? base s).bind (Text.after? "/")

def isAtOrBelow (s base : String) : Bool := (below? s base).isSome

end WrittenPath

theorem isName_iff {s : String} :
    isName s = true ↔ (s ≠ "" ∧ s ≠ "." ∧ s ≠ "..") ∧ '/' ∉ s.toList := by
  simp [isName, and_assoc]

theorem Name.text_apart (n : Name) : n.text ≠ "" ∧ n.text ≠ "." ∧ n.text ≠ ".." :=
  (isName_iff.1 n.isName_text).1

namespace Path

theorem map_text_namesOf (parts : List String) : (namesOf parts).map Name.text = parts.filter isName := by
  induction parts with
  | nil => rfl
  | cons part parts ih =>
    rw [namesOf, List.filterMap_cons, ← namesOf, Name.ofString?]
    by_cases h : isName part = true
    · rw [dif_pos h, List.filter_cons_of_pos h, ← ih]
      rfl
    · rw [dif_neg h, List.filter_cons_of_neg h, ← ih]

theorem parse_eq_error_iff {s : String} {e : SyntaxError} :
    parse s = .error e ↔ ".." ∈ Text.fields '/' s ∧ e = .path s .leavesTree := by
  rw [parse]
  by_cases h : ".." ∈ Text.fields '/' s
  · simp [h, eq_comm]
  · simp [h]

theorem parse_eq_ok_iff {s : String} {p : Path} :
    parse s = .ok p ↔ ".." ∉ Text.fields '/' s ∧
      p.names.map Name.text = (Text.fields '/' s).filter fun part => part ≠ "" ∧ part ≠ "." := by
  rw [parse]
  by_cases h : ".." ∈ Text.fields '/' s
  · simp [h]
  · have hnames : (namesOf (Text.fields '/' s)).map Name.text =
        (Text.fields '/' s).filter fun part => part ≠ "" ∧ part ≠ "." := by
      rw [map_text_namesOf]
      refine List.filter_congr fun part hpart => ?_
      have hdots : part ≠ ".." := ne_of_mem_of_not_mem hpart h
      rw [Bool.eq_iff_iff, isName_iff, decide_eq_true_iff]
      simp [hdots, Text.not_mem_of_mem_fields hpart]
    simp only [List.contains_eq_mem, h, decide_false, Bool.false_eq_true, if_false, Except.ok.injEq,
      not_false_eq_true, true_and, ← hnames]
    constructor
    · rintro rfl
      rfl
    · intro hp
      exact congrArg mk (List.map_injective_iff.2 Name.text_injective hp).symm

theorem components_text (p : Path) : WrittenPath.components p.text = p.names.map Name.text := by
  rw [WrittenPath.components]
  by_cases h : p = .root
  · subst h
    rfl
  · rw [fields_text h, List.filter_eq_self]
    exact List.forall_mem_map.2 fun n _ => bne_iff_ne.2 n.text_apart.1

theorem text_isCanonical (p : Path) : WrittenPath.IsCanonical p.text := by
  by_cases h : p = .root
  · exact .inl (text_eq_empty_iff.2 h)
  · refine .inr ?_
    rw [fields_text h]
    exact List.forall_mem_map.2 fun n _ => n.text_apart

end Path

theorem WrittenPath.IsCanonical.exists_text {s : String} (h : IsCanonical s) : ∃ p : Path, s = p.text := by
  rcases h with rfl | h
  · exact ⟨.root, rfl⟩
  · have hnames : ∀ part ∈ Text.fields '/' s, isName part = true := fun part hpart =>
      isName_iff.2 ⟨h part hpart, Text.not_mem_of_mem_fields hpart⟩
    refine ⟨⟨Path.namesOf (Text.fields '/' s)⟩, ?_⟩
    rw [Path.text, Path.map_text_namesOf, List.filter_eq_self.2 hnames]
    exact (Text.intercalate_fields '/' s).symm

theorem WrittenPath.below?_eq_some_iff {s base rest : String} (hbase : base ≠ "") :
    below? s base = some rest ↔ s = base ∧ rest = "" ∨ s = base ++ "/" ++ rest := by
  unfold below?
  rw [if_neg hbase]
  split
  · rename_i heq
    have hlength : s ≠ base ++ "/" ++ rest := fun h => by
      have hsum := congrArg String.length h
      rw [heq, Text.length_slash] at hsum
      omega
    rw [or_iff_left hlength, Option.some_inj]
    exact ⟨fun h => ⟨heq, h.symm⟩, fun h => h.2.symm⟩
  · rename_i hne
    simp [hne, Option.bind_eq_some_iff, Text.after?_eq_some_iff, String.append_assoc]

namespace Path

theorem text_join_eq (p q : Path) : (p.join q).text = WrittenPath.join p.text q.text := by
  unfold WrittenPath.join
  split
  · rename_i hp
    rw [text_eq_empty_iff.1 hp, root_join]
  · rename_i hp
    split
    · rename_i hq
      rw [text_eq_empty_iff.1 hq, join_root]
    · rename_i hq
      exact text_join (mt text_eq_empty_iff.2 hp) (mt text_eq_empty_iff.2 hq)

theorem text_child (p : Path) (n : Name) : (p.child n).text = WrittenPath.child p.text n.text := by
  have hjoin := text_join_eq p (root.child n)
  rw [join_child, join_root, text_child_root] at hjoin
  rw [hjoin, WrittenPath.join, if_neg n.text_apart.1, WrittenPath.child]

theorem cutLast_text_child (p : Path) (n : Name) :
    Text.cutLast '/' (p.child n).text = if p = .root then none else some (p.text, n.text) := by
  rw [text_child, WrittenPath.child]
  by_cases h : p = .root
  · rw [if_pos (text_eq_empty_iff.2 h), if_pos h, Text.cutLast_eq_none n.slash_not_mem]
  · rw [if_neg (mt text_eq_empty_iff.1 h), if_neg h]
    exact Text.cutLast_append n.slash_not_mem p.text

theorem text_parent? (p : Path) : p.parent?.map text = WrittenPath.parent? p.text := by
  rcases p.eq_root_or_child with rfl | ⟨dir, n, rfl⟩
  · rfl
  · rw [parent?_child, WrittenPath.parent?, if_neg (mt text_eq_empty_iff.1 (child_ne_root dir n)),
      cutLast_text_child]
    by_cases h : dir = .root
    · rw [if_pos h, h]
      rfl
    · rw [if_neg h]
      rfl

theorem text_name? (p : Path) : p.name?.map Name.text = WrittenPath.name? p.text := by
  rcases p.eq_root_or_child with rfl | ⟨dir, n, rfl⟩
  · rfl
  · rw [name?_child, WrittenPath.name?, if_neg (mt text_eq_empty_iff.1 (child_ne_root dir n)),
      cutLast_text_child]
    by_cases h : dir = .root
    · rw [if_pos h, h]
      rfl
    · rw [if_neg h]
      rfl

/-- A text that starts with that of a path and a `/` is cut between two names there. -/
theorem exists_join_of_text_eq {p base : Path} {rest : String} (hbase : base ≠ .root)
    (h : p.text = base.text ++ "/" ++ rest) : ∃ rel, p = base.join rel ∧ rel.text = rest := by
  have hp : p ≠ .root := by
    rintro rfl
    have hlength := congrArg String.length h
    rw [Text.length_slash, root_text, String.length_empty] at hlength
    omega
  have hparts := congrArg (Text.fields '/') h
  rw [Text.fields_append, fields_text hp, fields_text hbase] at hparts
  obtain ⟨before, after, hnames, hbefore, hafter⟩ := List.map_eq_append_iff.1 hparts
  obtain rfl : before = base.names := List.map_injective_iff.2 Name.text_injective hbefore
  refine ⟨⟨after⟩, congrArg mk hnames, ?_⟩
  rw [text, hafter]
  exact Text.intercalate_fields '/' rest

theorem text_below? (p base : Path) : (p.below? base).map text = WrittenPath.below? p.text base.text := by
  ext rest
  simp only [Option.map_eq_some_iff, below?_eq_some_iff]
  by_cases hbase : base = .root
  · subst hbase
    simp [WrittenPath.below?, root_text]
  · rw [WrittenPath.below?_eq_some_iff (mt text_eq_empty_iff.1 hbase)]
    constructor
    · rintro ⟨rel, rfl, rfl⟩
      by_cases hrel : rel = .root
      · subst hrel
        rw [join_root]
        exact .inl ⟨rfl, root_text⟩
      · exact .inr (text_join hbase hrel)
    · rintro (⟨htext, rfl⟩ | htext)
      · exact ⟨.root, by rw [join_root, text_injective htext], root_text⟩
      · exact exists_join_of_text_eq hbase htext

theorem isAtOrBelow_text (p base : Path) : p.isAtOrBelow base = WrittenPath.isAtOrBelow p.text base.text := by
  rw [WrittenPath.isAtOrBelow, ← text_below?, Option.isSome_map, isAtOrBelow]

structure SameAsText (p q : Path) (n : Name) : Prop where
  names : p.names.map Name.text = WrittenPath.components p.text
  child : (p.child n).text = WrittenPath.child p.text n.text
  join : (p.join q).text = WrittenPath.join p.text q.text
  parent? : p.parent?.map text = WrittenPath.parent? p.text
  name? : p.name?.map Name.text = WrittenPath.name? p.text
  below? : (p.below? q).map text = WrittenPath.below? p.text q.text
  isAtOrBelow : p.isAtOrBelow q = WrittenPath.isAtOrBelow p.text q.text

theorem sameAsText (p q : Path) (n : Name) : p.SameAsText q n where
  names := (components_text p).symm
  child := text_child p n
  join := text_join_eq p q
  parent? := text_parent? p
  name? := text_name? p
  below? := text_below? p q
  isAtOrBelow := isAtOrBelow_text p q

end Path

namespace WrittenPath

variable {a b r : String}

theorem IsCanonical.join (ha : IsCanonical a) (hr : IsCanonical r) : IsCanonical (join a r) := by
  obtain ⟨p, rfl⟩ := ha.exists_text
  obtain ⟨rel, rfl⟩ := hr.exists_text
  rw [← Path.text_join_eq]
  exact (p.join rel).text_isCanonical

theorem components_join (ha : IsCanonical a) (hr : IsCanonical r) :
    components (join a r) = components a ++ components r := by
  obtain ⟨p, rfl⟩ := ha.exists_text
  obtain ⟨rel, rfl⟩ := hr.exists_text
  rw [← Path.text_join_eq]
  simp only [Path.components_text, Path.join, List.map_append]

theorem below?_join_iff (ha : IsCanonical a) (hb : IsCanonical b) (hr : IsCanonical r) :
    below? a b = some r ↔ a = join b r := by
  obtain ⟨p, rfl⟩ := ha.exists_text
  obtain ⟨base, rfl⟩ := hb.exists_text
  obtain ⟨rel, rfl⟩ := hr.exists_text
  rw [← Path.text_below?, ← Path.text_join_eq, Path.text_injective.eq_iff, ← Path.below?_eq_some_iff,
    Option.map_eq_some_iff]
  simp [Path.text_injective.eq_iff]

theorem isCanonical_of_below? (ha : IsCanonical a) (hb : IsCanonical b) (h : below? a b = some r) :
    IsCanonical r := by
  obtain ⟨p, rfl⟩ := ha.exists_text
  obtain ⟨base, rfl⟩ := hb.exists_text
  rw [← Path.text_below?] at h
  obtain ⟨rel, -, rfl⟩ := Option.map_eq_some_iff.1 h
  exact rel.text_isCanonical

theorem isAtOrBelow_iff (ha : IsCanonical a) (hb : IsCanonical b) :
    isAtOrBelow a b = true ↔ components b <+: components a := by
  obtain ⟨p, rfl⟩ := ha.exists_text
  obtain ⟨base, rfl⟩ := hb.exists_text
  rw [← Path.isAtOrBelow_text, Path.isAtOrBelow_iff, Path.components_text, Path.components_text,
    List.prefix_map_iff_of_injective Name.text_injective]
  constructor
  · rintro ⟨rel, rfl⟩
    exact List.prefix_append base.names rel.names
  · rintro ⟨way, hway⟩
    exact ⟨⟨way⟩, congrArg Path.mk hway.symm⟩

theorem IsCanonical.child {name : String} (ha : IsCanonical a) (hname : isName name = true) :
    IsCanonical (child a name) ∧ components (child a name) = components a ++ [name] := by
  obtain ⟨p, rfl⟩ := ha.exists_text
  have hchild := p.text_child ⟨name, hname⟩
  rw [← hchild, Path.components_text, Path.components_text]
  exact ⟨Path.text_isCanonical _, List.map_append⟩

theorem parent?_child {name : String} (ha : IsCanonical a) (hname : isName name = true) :
    parent? (child a name) = some a ∧ name? (child a name) = some name := by
  obtain ⟨p, rfl⟩ := ha.exists_text
  have hchild := p.text_child ⟨name, hname⟩
  rw [← hchild, ← Path.text_parent?, ← Path.text_name?, Path.parent?_child, Path.name?_child]
  exact ⟨rfl, rfl⟩

theorem child_parent? (ha : IsCanonical a) (h : parent? a = some b) :
    IsCanonical b ∧ ∃ name, isName name = true ∧ name? a = some name ∧ a = child b name := by
  obtain ⟨p, rfl⟩ := ha.exists_text
  rw [← Path.text_parent?] at h
  obtain ⟨dir, hdir, rfl⟩ := Option.map_eq_some_iff.1 h
  obtain ⟨n, rfl⟩ := Path.parent?_eq_some_iff.1 hdir
  refine ⟨dir.text_isCanonical, n.text, n.isName_text, ?_, dir.text_child n⟩
  rw [← Path.text_name?, Path.name?_child]
  rfl

theorem parent?_eq_none_iff : parent? a = none ↔ a = "" := by
  unfold parent?
  split
  · simp_all
  · split <;> simp_all

structure OnComponents (a b r name : String) : Prop where
  join : IsCanonical (join a r) ∧ components (join a r) = components a ++ components r
  child : IsCanonical (child a name) ∧ components (child a name) = components a ++ [name]
  parent?_child : parent? (WrittenPath.child a name) = some a ∧ name? (WrittenPath.child a name) = some name
  parent? : ∀ dir, parent? a = some dir →
    IsCanonical dir ∧ ∃ n, isName n = true ∧ name? a = some n ∧ a = WrittenPath.child dir n
  onlyRoot : WrittenPath.parent? a = none ↔ a = ""
  below? : ∀ rest, below? a b = some rest → IsCanonical rest
  below?_iff : WrittenPath.below? a b = some r ↔ a = WrittenPath.join b r
  isAtOrBelow_iff : isAtOrBelow a b = true ↔ components b <+: components a

end WrittenPath

open WrittenPath in
/-- A text is read as a path if none of its parts is `..`, and the path is made of the parts that
lead somewhere. It is written canonically and read again as itself. What paths are put together
of and taken apart to is told by the components of their written forms. -/
theorem canonical_components :
    (∀ s : String, (∃ p, Path.parse s = .ok p) ↔ ".." ∉ Text.fields '/' s) ∧
    (∀ (s : String) (p : Path), Path.parse s = .ok p →
      components p.text = (Text.fields '/' s).filter (fun part => part ≠ "" ∧ part ≠ ".") ∧
        IsCanonical p.text ∧ Path.parse p.text = .ok p) ∧
    (∀ s : String, IsCanonical s ↔ ∃ p : Path, s = p.text) ∧
    (∀ a b r name : String, IsCanonical a → IsCanonical b → IsCanonical r → isName name = true →
      OnComponents a b r name) ∧
    ∀ (p q : Path) (n : Name), p.SameAsText q n := by
  refine ⟨fun s => ⟨fun ⟨p, hp⟩ => (Path.parse_eq_ok_iff.1 hp).1, fun h => ?_⟩, fun s p hp => ?_,
    fun s => ⟨fun h => h.exists_text, fun ⟨p, hp⟩ => hp ▸ p.text_isCanonical⟩,
    fun a b r name ha hb hr hname => ?_, Path.sameAsText⟩
  · cases hparse : Path.parse s with
    | ok p => exact ⟨p, rfl⟩
    | error e => exact absurd (Path.parse_eq_error_iff.1 hparse).1 h
  · rw [Path.components_text]
    exact ⟨(Path.parse_eq_ok_iff.1 hp).2, p.text_isCanonical, p.parse_text⟩
  · exact
      { join := ⟨ha.join hr, components_join ha hr⟩
        child := ha.child hname
        parent?_child := parent?_child ha hname
        parent? := fun _ h => child_parent? ha h
        onlyRoot := parent?_eq_none_iff
        below? := fun _ h => isCanonical_of_below? ha hb h
        below?_iff := below?_join_iff ha hb hr
        isAtOrBelow_iff := WrittenPath.isAtOrBelow_iff ha hb }

open WrittenPath in
theorem canonical_components_lookalikes :
    Path.parse "/AA//./.b/" = .ok (⟨[⟨"AA", Eq.refl true⟩, ⟨".b", Eq.refl true⟩]⟩ : Path) ∧
      components "AA/.b" = ["AA", ".b"] ∧ below? "AA/.b" "A" = none ∧
      (IsCanonical "AA/.b" ∧ IsCanonical "A" ∧ IsCanonical "A/.b" ∧ isName "...") ∧
      OnComponents "AA/.b" "A" "A/.b" "..." := by
  have hread : Path.parse "/AA//./.b/" = .ok (⟨[⟨"AA", Eq.refl true⟩, ⟨".b", Eq.refl true⟩]⟩ : Path) := by
    rfl
  have hcanonical : IsCanonical "AA/.b" ∧ IsCanonical "A" ∧ IsCanonical "A/.b" ∧ isName "..." := by decide
  obtain ⟨-, hpath, -, hoperations, -⟩ := canonical_components
  obtain ⟨ha, hb, hr, hname⟩ := hcanonical
  refine ⟨hread, (hpath _ _ hread).1.trans (by decide), by decide, ⟨ha, hb, hr, hname⟩,
    hoperations _ _ _ _ ha hb hr hname⟩

end TreeDelta
