import Mathlib.Data.List.Induction
import TreeDelta.Proofs.OrderedMap
import TreeDelta.Repository.Basic
set_option autoImplicit false

namespace TreeDelta

namespace Path

theorem isRoot_iff {p : Path} : p.isRoot = true ↔ p = .root := by
  obtain ⟨_ | ⟨name, names⟩⟩ := p <;> simp [isRoot, root]

@[simp] theorem isAtOrBelow_root (p : Path) : p.isAtOrBelow .root = true := rfl

theorem join_cons (p : Path) (n : Name) (names : List Name) :
    p.join ⟨n :: names⟩ = (p.child n).join ⟨names⟩ := by
  simp [join, child]

theorem join_left_cancel {p q r : Path} (h : p.join q = p.join r) : q = r := by
  obtain ⟨l⟩ := q
  obtain ⟨m⟩ := r
  simpa [join] using h

theorem isAtOrBelow_iff {p base : Path} : p.isAtOrBelow base = true ↔ ∃ rel, p = base.join rel := by
  simp only [isAtOrBelow, Option.isSome_iff_exists, below?_eq_some_iff]

@[simp] theorem isAtOrBelow_join (base rel : Path) : (base.join rel).isAtOrBelow base = true :=
  isAtOrBelow_iff.2 ⟨rel, rfl⟩

@[simp] theorem isAtOrBelow_self (p : Path) : p.isAtOrBelow p = true :=
  isAtOrBelow_iff.2 ⟨.root, (join_root p).symm⟩

theorem eq_root_or_child (p : Path) : p = .root ∨ ∃ (dir : Path) (n : Name), p = dir.child n := by
  obtain ⟨names⟩ := p
  rcases names.eq_nil_or_concat with rfl | ⟨names, n, rfl⟩
  · exact .inl rfl
  · exact .inr ⟨⟨names⟩, n, by simp [child]⟩

@[elab_as_elim] theorem childInduction {P : Path → Prop} (p : Path) (root : P .root)
    (child : ∀ (dir : Path) (n : Name), P dir → P (dir.child n)) : P p := by
  obtain ⟨names⟩ := p
  induction names using List.reverseRecOn with
  | nil => exact root
  | append_singleton names n ih => exact child ⟨names⟩ n ih

theorem child_ne_root (p : Path) (n : Name) : p.child n ≠ .root := by
  simp [child, root]

theorem child_inj {p q : Path} {n m : Name} (h : p.child n = q.child m) : p = q ∧ n = m := by
  obtain ⟨l⟩ := p
  obtain ⟨r⟩ := q
  simpa [child] using h

theorem parent?_eq_some_iff {p dir : Path} : p.parent? = some dir ↔ ∃ n, p = dir.child n := by
  rcases p.eq_root_or_child with rfl | ⟨dir', n, rfl⟩
  · constructor
    · intro h
      cases h
    · rintro ⟨n, h⟩
      exact absurd h.symm (child_ne_root dir n)
  · rw [parent?_child, Option.some_inj]
    constructor
    · rintro rfl
      exact ⟨n, rfl⟩
    · rintro ⟨m, h⟩
      exact (child_inj h).1

theorem depth_le_of_isAtOrBelow {p base : Path} (h : p.isAtOrBelow base = true) :
    base.depth ≤ p.depth := by
  obtain ⟨rel, rfl⟩ := isAtOrBelow_iff.1 h
  simp [depth, join]

theorem isAtOrBelow_child_self (p : Path) (n : Name) : p.isAtOrBelow (p.child n) = false := by
  rw [Bool.eq_false_iff]
  intro h
  have hdepth := depth_le_of_isAtOrBelow h
  rw [depth_child] at hdepth
  omega

theorem root_isAtOrBelow_child (p : Path) (n : Name) : root.isAtOrBelow (p.child n) = false := by
  rw [Bool.eq_false_iff]
  intro h
  have hdepth := depth_le_of_isAtOrBelow h
  rw [depth_child] at hdepth
  exact absurd hdepth (by simp [depth, root])

theorem isAtOrBelow_child_iff {p base : Path} {n : Name} :
    (p.child n).isAtOrBelow base = true ↔ p.child n = base ∨ p.isAtOrBelow base = true := by
  rw [isAtOrBelow_iff, isAtOrBelow_iff]
  constructor
  · rintro ⟨rel, h⟩
    rcases rel.eq_root_or_child with rfl | ⟨dir, m, rfl⟩
    · exact .inl (by rw [h, join_root])
    · rw [join_child] at h
      exact .inr ⟨dir, (child_inj h).1⟩
  · rintro (h | ⟨rel, rfl⟩)
    · exact ⟨.root, by rw [h, join_root]⟩
    · exact ⟨rel.child n, (join_child base rel n).symm⟩

theorem child_ne_self (p : Path) (n : Name) : p.child n ≠ p := by
  intro h
  have hbelow := isAtOrBelow_child_self p n
  rw [h, isAtOrBelow_self] at hbelow
  cases hbelow

theorem isAtOrBelow_of_child {p q : Path} {n : Name} (h : p.isAtOrBelow (q.child n) = true) :
    p.isAtOrBelow q = true := by
  obtain ⟨rel, rfl⟩ := isAtOrBelow_iff.1 h
  exact isAtOrBelow_iff.2 ⟨⟨n :: rel.names⟩, by simp [join, child]⟩

theorem exists_child_of_isAtOrBelow {p q : Path} (h : p.isAtOrBelow q = true) (hne : q ≠ p) :
    ∃ n, p.isAtOrBelow (q.child n) = true := by
  obtain ⟨⟨rel⟩, rfl⟩ := isAtOrBelow_iff.1 h
  cases rel with
  | nil => exact absurd (join_root q).symm hne
  | cons n rel => exact ⟨n, isAtOrBelow_iff.2 ⟨⟨rel⟩, by simp [join, child]⟩⟩

theorem mem_ancestors_iff {p q : Path} :
    q ∈ p.ancestors ↔ q ≠ p ∧ p.isAtOrBelow q = true := by
  obtain ⟨l⟩ := p
  obtain ⟨a⟩ := q
  simp only [ancestors, depth, List.mem_map, List.mem_range, Path.mk.injEq, ne_eq, isAtOrBelow_iff]
  constructor
  · rintro ⟨n, hn, rfl⟩
    refine ⟨fun h => ?_, ⟨l.drop n⟩, congrArg Path.mk (List.take_append_drop n l).symm⟩
    have hlen := congrArg List.length h
    rw [List.length_take] at hlen
    omega
  · rintro ⟨hne, ⟨rel⟩, h⟩
    obtain rfl : l = a ++ rel := congrArg Path.names h
    refine ⟨a.length, ?_, List.take_left⟩
    rw [List.length_append]
    rcases rel with _ | ⟨m, rel⟩
    · exact absurd (List.append_nil a).symm hne
    · simp

theorem isAtOrBelow_trans {p q s : Path} (h : p.isAtOrBelow q = true)
    (h' : q.isAtOrBelow s = true) : p.isAtOrBelow s = true := by
  obtain ⟨rel, rfl⟩ := isAtOrBelow_iff.1 h
  obtain ⟨rel', rfl⟩ := isAtOrBelow_iff.1 h'
  exact isAtOrBelow_iff.2 ⟨rel'.join rel, join_assoc s rel' rel⟩

theorem isAtOrBelow_or_of_join {p q rel : Path} (h : (q.join rel).isAtOrBelow p = true) :
    q.isAtOrBelow p = true ∨ p.isAtOrBelow q = true := by
  obtain ⟨rel', h⟩ := isAtOrBelow_iff.1 h
  rcases List.append_eq_append_iff.1 (congrArg names h) with ⟨way, hp, -⟩ | ⟨way, hq, -⟩
  · exact .inr (isAtOrBelow_iff.2 ⟨⟨way⟩, congrArg mk hp⟩)
  · exact .inl (isAtOrBelow_iff.2 ⟨⟨way⟩, congrArg mk hq⟩)

theorem isAtOrBelow_iff_mem_ancestors {p q : Path} :
    p.isAtOrBelow q = true ↔ q ∈ p.ancestors ∨ q = p := by
  rw [mem_ancestors_iff]
  by_cases hq : q = p
  · simp [hq]
  · simp [hq]

end Path

variable {ν μ : Type}

theorem mem_subtree_iff {tree : OrderedMap Path ν} {p rel : Path} {x : ν} :
    (rel, x) ∈ subtree tree p ↔ tree.get? (p.join rel) = some x := by
  rw [OrderedMap.get?_eq_some_iff]
  unfold subtree
  rw [List.mem_filterMap]
  constructor
  · rintro ⟨⟨q, y⟩, hmem, heq⟩
    obtain ⟨rel', hrel, hpair⟩ := Option.map_eq_some_iff.1 heq
    cases hpair
    rw [← Path.below?_eq_some_iff.1 hrel]
    exact hmem
  · intro hmem
    refine ⟨(p.join rel, x), hmem, ?_⟩
    exact congrArg (Option.map fun rel => (rel, x)) (Path.below?_eq_some_iff.2 rfl)

theorem get?_withoutSubtree (tree : OrderedMap Path ν) (p k : Path) :
    (withoutSubtree tree p).get? k = if k.isAtOrBelow p = true then none else tree.get? k := by
  rw [withoutSubtree, OrderedMap.get?_filter]
  cases k.isAtOrBelow p <;> cases tree.get? k <;> rfl

theorem get?_withoutSubtree_outside {tree : OrderedMap Path ν} {p k : Path}
    (h : k.isAtOrBelow p = false) : (withoutSubtree tree p).get? k = tree.get? k := by
  rw [get?_withoutSubtree, h, if_neg Bool.false_ne_true]

theorem get?_withoutSubtree_below {tree : OrderedMap Path ν} {p k : Path}
    (h : k.isAtOrBelow p = true) : (withoutSubtree tree p).get? k = none := by
  rw [get?_withoutSubtree, if_pos h]

/-- The tree `w` with what `f` makes of the subtree at `p` of another one put at `q`. -/
def graft (w : OrderedMap Path μ) (tree : OrderedMap Path ν) (p q : Path) (f : Path → ν → μ) :
    OrderedMap Path μ :=
  w.insertMany ((subtree tree p).map fun e => (q.join e.1, f e.1 e.2))

variable {w : OrderedMap Path μ} {tree : OrderedMap Path ν} {p q : Path} {f : Path → ν → μ}

theorem get?_graft_outside {k : Path} (h : k.isAtOrBelow q = false) :
    (graft w tree p q f).get? k = w.get? k := by
  refine OrderedMap.get?_insertMany_of_not_mem fun hk => ?_
  rw [List.map_map, List.mem_map] at hk
  obtain ⟨e, -, rfl⟩ := hk
  simp at h

theorem get?_graft_below (rel : Path) :
    (graft w tree p q f).get? (q.join rel) =
      ((tree.get? (p.join rel)).map (f rel)).or (w.get? (q.join rel)) := by
  cases hx : tree.get? (p.join rel) with
  | none =>
    rw [Option.map_none, Option.none_or]
    refine OrderedMap.get?_insertMany_of_not_mem fun hk => ?_
    rw [List.map_map, List.mem_map] at hk
    obtain ⟨⟨rel', x⟩, hmem, hjoin⟩ := hk
    rw [← Path.join_left_cancel hjoin, mem_subtree_iff.1 hmem] at hx
    cases hx
  | some x =>
    rw [Option.map_some, Option.some_or]
    refine OrderedMap.get?_insertMany_of_mem (List.mem_map.2 ⟨(rel, x), mem_subtree_iff.2 hx, rfl⟩) ?_
    intro y hy
    obtain ⟨⟨rel', x'⟩, hmem, heq⟩ := List.mem_map.1 hy
    obtain ⟨hjoin, rfl⟩ := Prod.mk.inj heq
    have hrel : rel' = rel := Path.join_left_cancel hjoin
    subst hrel
    rw [mem_subtree_iff.1 hmem] at hx
    exact congrArg (f rel') (Option.some.inj hx)

end TreeDelta
