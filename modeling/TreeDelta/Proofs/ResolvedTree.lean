import TreeDelta.NodeTree
import TreeDelta.Proofs.Except
import TreeDelta.Proofs.OrderedMap
set_option autoImplicit false

namespace TreeDelta

theorem asking_eq_ok_iff {α : Type} {x : Except StoreError α} {a : α} : asking x = .ok a ↔ x = .ok a := by
  cases x with
  | error e =>
    constructor
    · intro h
      cases h
    · intro h
      cases h
  | ok b =>
    constructor
    · intro h
      cases h
      rfl
    · intro h
      cases h
      rfl

structure TreeWalk.Sound (w : TreeWalk) (t : NodeTree) : Prop where
  origin : t.origin = w.origin
  location : t.location = w.base
  nodes : t.nodes.All fun rel n => ∃ m, w.store.node? (w.base.join rel) w.origin = .ok (some m) ∧
    n = { m with path := rel, copySource := n.copySource }
  copySources : t.copySources.All fun source n => ∃ m,
    w.store.node? source.path (.revision source.revision) = .ok (some m) ∧ n = { m with path := n.path }

namespace TreeWalk

variable {w : TreeWalk} {t t' : NodeTree}

theorem sourceNode_eq_some {source : CopySource} {n : Node} (h : w.sourceNode source = .ok (some n)) :
    w.store.node? source.path (.revision source.revision) = .ok (some n) := by
  unfold sourceNode at h
  split at h
  · rename_i hnode
    cases h
    exact hnode
  · cases h
  · cases h

theorem attachSource_sound {rel : Path} {inherited source : Option CopySource} (ht : w.Sound t)
    (h : w.attachSource t rel inherited = .ok (t', source)) : w.Sound t' := by
  obtain ⟨own, -, h⟩ := bind_eq_ok_iff.1 h
  split at h
  · cases h
    exact ht
  · rename_i candidate _
    split at h
    · cases h
      exact ht
    · obtain ⟨found, hfound, h⟩ := bind_eq_ok_iff.1 h
      split at h
      · cases h
        exact ht
      · rename_i n
        cases h
        exact ⟨ht.origin, ht.location, ht.nodes,
          ht.copySources.insert ⟨n, sourceNode_eq_some hfound, rfl⟩⟩

theorem visit_eq_ok {n : Node} {rel : Path} {inherited : Option CopySource}
    (h : w.visit t n rel inherited = .ok t') :
    ∃ t₁ source, (if w.tracksCopies then w.attachSource t rel inherited else .ok (t, none)) =
        .ok (t₁, source) ∧
      t' = { t₁ with nodes := t₁.nodes.insert rel { n with path := rel, copySource := source } } := by
  unfold visit at h
  split at h
  · rename_i htracks
    obtain ⟨⟨t₁, source⟩, hsource, h⟩ := bind_eq_ok_iff.1 h
    cases h
    exact ⟨t₁, source, by rw [if_pos htracks, hsource], rfl⟩
  · rename_i htracks
    cases h
    exact ⟨t, none, by rw [if_neg htracks], rfl⟩

theorem visit_sound {n : Node} {rel : Path} {inherited : Option CopySource} (ht : w.Sound t)
    (hn : w.store.node? (w.base.join rel) w.origin = .ok (some n))
    (h : w.visit t n rel inherited = .ok t') : w.Sound t' := by
  obtain ⟨t₁, source, hsource, rfl⟩ := visit_eq_ok h
  have ht₁ : w.Sound t₁ := by
    split at hsource
    · exact attachSource_sound ht hsource
    · cases hsource
      exact ht
  exact ⟨ht₁.origin, ht₁.location, ht₁.nodes.insert ⟨n, hn, rfl⟩, ht₁.copySources⟩

/-- What every visit of a node that the store has keeps, a walk keeps. -/
theorem descend_keeps {P : NodeTree → Prop}
    (hvisit : ∀ x n rel inherited y, w.store.node? (w.base.join rel) w.origin = .ok (some n) → P x →
      w.visit x n rel inherited = .ok y → P y)
    {depth : Depth} {levels : Nat} {dir : Path} (ht : P t) (h : w.descend depth levels t dir = .ok t') :
    P t' := by
  induction levels generalizing t t' dir with
  | zero =>
    cases h
    exact ht
  | succ levels ih =>
    obtain ⟨names, -, h⟩ := bind_eq_ok_iff.1 h
    refine foldlM_keeps names ?_ ht h
    intro name _ x y hx hy
    obtain ⟨found, hfound, hy⟩ := bind_eq_ok_iff.1 hy
    rw [asking_eq_ok_iff] at hfound
    split at hy
    · cases hy
      exact hx
    · split at hy
      · obtain ⟨x', hvisited, hy⟩ := bind_eq_ok_iff.1 hy
        have hx' := hvisit _ _ _ _ _ hfound hx hvisited
        split at hy
        · exact ih hx' hy
        · cases hy
          exact hx'
      · cases hy
        exact hx

end TreeWalk

theorem resolveTree_keeps {P : TreeWalk → NodeTree → Prop} (habsent : ∀ w, P w (.absent ⟨w.origin, w.base⟩))
    (hvisit : ∀ (w : TreeWalk) x n rel inherited y,
      w.store.node? (w.base.join rel) w.origin = .ok (some n) → P w x →
      w.visit x n rel inherited = .ok y → P w y)
    {s : Store} {e : Endpoint} {o : Options} {t : NodeTree} (h : resolveTree s e o = .ok t) :
    ∃ l, e.locate s = .ok l ∧ P ⟨s, l.origin, l.path, o.tracksCopies l.origin⟩ t := by
  obtain ⟨l, hl, h⟩ := bind_eq_ok_iff.1 h
  refine ⟨l, hl, ?_⟩
  obtain ⟨found, hfound, h⟩ := bind_eq_ok_iff.1 h
  rw [asking_eq_ok_iff] at hfound
  have hempty := habsent ⟨s, l.origin, l.path, o.tracksCopies l.origin⟩
  split at h
  · cases h
    exact hempty
  · rename_i root
    obtain ⟨t₁, hvisited, h⟩ := bind_eq_ok_iff.1 h
    have hroot : s.node? (l.path.join .root) l.origin = .ok (some root) := by
      rw [Path.join_root]
      exact hfound
    have ht₁ := hvisit _ _ _ _ _ _ hroot hempty hvisited
    split at h
    · exact TreeWalk.descend_keeps (hvisit _) ht₁ h
    · cases h
      exact ht₁

theorem absent_sound (w : TreeWalk) : w.Sound (.absent ⟨w.origin, w.base⟩) :=
  ⟨rfl, rfl, OrderedMap.all_empty, OrderedMap.all_empty⟩

theorem resolveTree_sound {s : Store} {e : Endpoint} {o : Options} {t : NodeTree}
    (h : resolveTree s e o = .ok t) :
    ∃ l, e.locate s = .ok l ∧ TreeWalk.Sound ⟨s, l.origin, l.path, o.tracksCopies l.origin⟩ t :=
  resolveTree_keeps absent_sound (fun _ _ _ _ _ _ hn ht => TreeWalk.visit_sound ht hn) h

theorem resolve_eq_ok {s : Store} {e : Endpoint} {o : Options} {t : NodeTree}
    (h : resolve s e o = .ok t) : resolveTree s e o = .ok t := by
  obtain ⟨t', ht, h⟩ := bind_eq_ok_iff.1 h
  split at h
  · cases h
  · cases h
    exact ht

theorem resolvePair_eq_ok {s : Store} {e e' : Endpoint} {o : Options} {t t' : NodeTree}
    (h : resolvePair s e e' o = .ok (t, t')) :
    resolveTree s e o = .ok t ∧ resolveTree s e' o = .ok t' := by
  obtain ⟨t₁, ht₁, h⟩ := bind_eq_ok_iff.1 h
  obtain ⟨t₂, ht₂, h⟩ := bind_eq_ok_iff.1 h
  split at h
  · cases h
  · cases h
    exact ⟨ht₁, ht₂⟩

end TreeDelta
