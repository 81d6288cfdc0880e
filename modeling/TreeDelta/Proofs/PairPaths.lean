import TreeDelta.Proofs.HeldSource
import TreeDelta.Proofs.Locality
set_option autoImplicit false

namespace TreeDelta

open Repository

theorem childNames_ascending {ν : Type} (tree : OrderedMap Path ν) (p : Path) :
    (childNames tree p).Pairwise fun n m => compare n m = .lt := by
  refine List.pairwise_filterMap.2 (tree.keys_ascending.imp fun {q q'} hlt n hn m hm => ?_)
  rw [Path.childName?_eq_some_iff.1 hn, Path.childName?_eq_some_iff.1 hm, Path.compare_child] at hlt
  exact hlt

theorem children_ascending {r : Repository} {p : Path} {origin : Origin} {names : List Name}
    (h : r.store.children p origin = .ok names) : names.Pairwise fun n m => compare n m = .lt := by
  have hin : ∀ {ν : Type} (tree : OrderedMap Path ν), childrenIn tree p = .ok names →
      names.Pairwise fun n m => compare n m = .lt := by
    intro ν tree htree
    unfold childrenIn at htree
    split at htree
    · cases htree
      exact childNames_ascending tree p
    · cases htree
  cases origin with
  | revision n =>
    obtain ⟨s, -, h⟩ := bind_eq_ok_iff.1 h
    exact hin s h
  | workingCopy =>
    obtain ⟨w, -, h⟩ := bind_eq_ok_iff.1 h
    exact hin w h

def NodeTree.Before (t : NodeTree) (p : Path) : Prop :=
  ∀ k, t.nodes.contains k = true → compare k p = .lt

namespace TreeWalk

variable {w : TreeWalk} {t t' : NodeTree}

theorem visit_contains {n : Node} {rel : Path} {inherited : Option CopySource}
    (h : w.visit t n rel inherited = .ok t') (k : Path) :
    t'.nodes.contains k = true ↔ k = rel ∨ t.nodes.contains k = true := by
  obtain ⟨t₁, source, hsource, rfl⟩ := visit_eq_ok h
  have hnodes : t₁.nodes = t.nodes := by
    split at hsource
    · exact (attachSource_holds hsource).1
    · cases hsource
      rfl
  rw [← hnodes]
  exact OrderedMap.contains_insert_iff

/-- A tree that has what `P` says and all of whose paths `t` has, or they lie at or below `dir`. -/
structure KeptBelow (P : NodeTree → Prop) (t : NodeTree) (dir : Path) (t' : NodeTree) : Prop where
  keeps : P t'
  below : ∀ k, t'.nodes.contains k = true → t.nodes.contains k = true ∨ k.isAtOrBelow dir = true

theorem enter_keeps_inOrder {P : NodeTree → Prop}
    (hvisit : ∀ x n rel inherited y, x.Before rel → P x → w.visit x n rel inherited = .ok y → P y)
    {depth : Depth} {levels : Nat} {dir : Path} {name : Name}
    (hbelow : ∀ x y, P x → (∀ k, x.nodes.contains k = true → (compare k (dir.child name)).isLE) →
      w.descend depth levels x (dir.child name) = .ok y → KeptBelow P x (dir.child name) y)
    {inherited : Option CopySource} (ht : P t) (hbefore : t.Before (dir.child name))
    (h : w.enter depth levels dir inherited t name = .ok t') : KeptBelow P t (dir.child name) t' := by
  obtain ⟨found, -, h⟩ := bind_eq_ok_iff.1 h
  split at h
  · cases h
    exact ⟨ht, fun k hk => .inl hk⟩
  · split at h
    · obtain ⟨x, hx, h⟩ := bind_eq_ok_iff.1 h
      have hPx := hvisit _ _ _ _ _ hbefore ht hx
      have hkeys : ∀ k, x.nodes.contains k = true →
          t.nodes.contains k = true ∨ k.isAtOrBelow (dir.child name) = true := fun k hk => by
        rcases (visit_contains hx k).1 hk with rfl | hk
        · exact .inr (Path.isAtOrBelow_self _)
        · exact .inl hk
      split at h
      · have hlast : ∀ k, x.nodes.contains k = true → (compare k (dir.child name)).isLE := fun k hk => by
          rcases (visit_contains hx k).1 hk with rfl | hk
          · exact Std.ReflCmp.isLE_rfl
          · rw [hbefore k hk]
            rfl
        have hy := hbelow x t' hPx hlast h
        refine ⟨hy.keeps, fun k hk => ?_⟩
        rcases hy.below k hk with hk | hk
        · exact hkeys k hk
        · exact .inr hk
      · cases h
        exact ⟨hPx, hkeys⟩
    · cases h
      exact ⟨ht, fun k hk => .inl hk⟩

/-- What every visit keeps that goes beyond all visits before it, a walk in path order keeps. -/
theorem descend_keeps_inOrder {P : NodeTree → Prop}
    (hnames : ∀ p names, w.store.children p w.origin = .ok names →
      names.Pairwise fun n m => compare n m = .lt)
    (hvisit : ∀ x n rel inherited y, x.Before rel → P x → w.visit x n rel inherited = .ok y → P y)
    {depth : Depth} {levels : Nat} {dir : Path} (ht : P t)
    (hlast : ∀ k, t.nodes.contains k = true → (compare k dir).isLE)
    (h : w.descend depth levels t dir = .ok t') : KeptBelow P t dir t' := by
  induction levels generalizing t t' dir with
  | zero =>
    cases h
    exact ⟨ht, fun k hk => .inl hk⟩
  | succ levels ih =>
    rw [descend_succ] at h
    obtain ⟨names, hchildren, h⟩ := bind_eq_ok_iff.1 h
    have hascending := hnames _ _ (asking_eq_ok_iff.1 hchildren)
    have hbefore : ∀ n ∈ names, t.Before (dir.child n) := fun n _ k hk =>
      Std.TransCmp.lt_of_isLE_of_lt (hlast k hk) (dir.compare_lt_child_self n)
    -- The names still to come lie beyond all that the tree has.
    have hresult := foldlM_keeps_rest
      (P := fun names x => names.Pairwise (fun n m => compare n m = .lt) ∧
        (∀ n ∈ names, x.Before (dir.child n)) ∧ KeptBelow P t dir x)
      (fun n names x y ⟨hsorted, hbefore, hkept⟩ hy => by
        obtain ⟨hn, hsorted⟩ := List.pairwise_cons.1 hsorted
        have hstep := enter_keeps_inOrder hvisit (fun x y hx hlast hy => ih hx hlast hy) hkept.keeps
          (hbefore n List.mem_cons_self) hy
        refine ⟨hsorted, fun m hm k hk => ?_, hstep.keeps, fun k hk => ?_⟩
        · rcases hstep.below k hk with hk | hk
          · exact hbefore m (List.mem_cons_of_mem _ hm) k hk
          · exact Path.compare_lt_child (hn m hm) hk
        · rcases hstep.below k hk with hk | hk
          · exact hkept.below k hk
          · exact .inr (Path.isAtOrBelow_of_child hk))
      ⟨hascending, hbefore, ht, fun k hk => .inl hk⟩ h
    exact hresult.2.2

end TreeWalk

def NodeTree.IsFirstFrom (t : NodeTree) (source : CopySource) (p : Path) : Prop :=
  (∃ n, t.nodes.get? p = some n ∧ n.copySource = some source) ∧
    ∀ q n, t.nodes.get? q = some n → n.copySource = some source → (compare p q).isLE

theorem NodeTree.IsFirstFrom.unique {t : NodeTree} {source : CopySource} {p q : Path}
    (h : t.IsFirstFrom source p) (h' : t.IsFirstFrom source q) : p = q := by
  obtain ⟨⟨n, hn, hsource⟩, hfirst⟩ := h
  obtain ⟨⟨m, hm, hsource'⟩, hfirst'⟩ := h'
  exact Std.LawfulEqCmp.eq_of_compare
    (Std.OrientedCmp.isLE_antisymm (hfirst q m hm hsource') (hfirst' p n hn hsource))

/-- The sources of nodes are held, each with the path of the first node that has it. -/
structure NodeTree.HoldsFirst (t : NodeTree) : Prop where
  holds : t.HoldsSources
  first : t.copySources.All fun source held => t.IsFirstFrom source held.path

section Step

variable {w : TreeWalk} {t t' : NodeTree} {rel : Path}

theorem NodeTree.IsFirstFrom.insert {source : CopySource} {p : Path} {n : Node}
    (h : t.IsFirstFrom source p) (hbefore : t.Before rel) (ht' : t'.nodes = t.nodes.insert rel n) :
    t'.IsFirstFrom source p := by
  obtain ⟨⟨m, hm, hsource⟩, hfirst⟩ := h
  have hp : compare p rel = .lt := hbefore p (OrderedMap.contains_iff.2 ⟨m, hm⟩)
  have hne : p ≠ rel := by
    rintro rfl
    rw [Std.ReflOrd.compare_self] at hp
    cases hp
  refine ⟨⟨m, by rw [ht', OrderedMap.get?_insert_ne _ _ hne, hm], hsource⟩, fun q n' hn' hsource' => ?_⟩
  rw [ht'] at hn'
  by_cases hq : q = rel
  · rw [hq, hp]
    rfl
  · rw [OrderedMap.get?_insert_ne _ _ hq] at hn'
    exact hfirst q n' hn' hsource'

theorem TreeWalk.attachSource_eq_ok {inherited source : Option CopySource}
    (h : w.attachSource t rel inherited = .ok (t', source)) :
    t' = t ∨ ∃ (s : CopySource) (node : Node), source = some s ∧ t.copySources.contains s = false ∧
      t' = { t with copySources := t.copySources.insert s { node with path := rel } } := by
  obtain ⟨own, -, h⟩ := bind_eq_ok_iff.1 h
  split at h
  · cases h
    exact .inl rfl
  · rename_i candidate _
    split at h
    · cases h
      exact .inl rfl
    · rename_i hheld
      obtain ⟨found, -, h⟩ := bind_eq_ok_iff.1 h
      split at h
      · cases h
        exact .inl rfl
      · rename_i node
        cases h
        exact .inr ⟨candidate, node, rfl, Bool.eq_false_iff.2 hheld, rfl⟩

theorem TreeWalk.visit_holdsFirst {n : Node} {inherited : Option CopySource} (hbefore : t.Before rel)
    (ht : t.HoldsFirst) (h : w.visit t n rel inherited = .ok t') : t'.HoldsFirst := by
  refine ⟨visit_holdsSources ht.holds h, fun source held hheld => ?_⟩
  obtain ⟨t₁, own, hown, rfl⟩ := visit_eq_ok h
  have hcases : t₁ = t ∨ ∃ (s : CopySource) (node : Node), own = some s ∧ t.copySources.contains s = false ∧
      t₁ = { t with copySources := t.copySources.insert s { node with path := rel } } := by
    split at hown
    · exact attachSource_eq_ok hown
    · cases hown
      exact .inl rfl
  rcases hcases with rfl | ⟨s, node, rfl, hnew, rfl⟩
  · exact (ht.first source held hheld).insert hbefore rfl
  · by_cases hs : source = s
    · subst hs
      rw [OrderedMap.get?_insert_self] at hheld
      cases hheld
      refine ⟨⟨_, OrderedMap.get?_insert_self _ _ _, rfl⟩, fun q m hm hsource => ?_⟩
      by_cases hq : q = rel
      · rw [hq]
        exact Std.ReflCmp.isLE_rfl
      · -- A node of the tree that was has no source that was not held.
        rw [OrderedMap.get?_insert_ne _ _ hq] at hm
        exact absurd (ht.holds q m hm source hsource) (by simp [hnew])
    · rw [OrderedMap.get?_insert_ne _ _ hs] at hheld
      exact (ht.first source held hheld).insert hbefore rfl

end Step

theorem resolveTree_holdsFirst {r : Repository} {e : Endpoint} {o : Options} {t : NodeTree}
    (h : resolveTree r.store e o = .ok t) : t.HoldsFirst := by
  obtain ⟨l, hl, h⟩ := bind_eq_ok_iff.1 h
  have hempty : (NodeTree.absent l).HoldsFirst := ⟨OrderedMap.all_empty, OrderedMap.all_empty⟩
  obtain ⟨found, -, h⟩ := bind_eq_ok_iff.1 h
  split at h
  · cases h
    exact hempty
  · obtain ⟨t₁, hvisited, h⟩ := bind_eq_ok_iff.1 h
    have hfirst : t₁.HoldsFirst := TreeWalk.visit_holdsFirst (fun k hk => by cases hk) hempty hvisited
    split at h
    · refine (TreeWalk.descend_keeps_inOrder (fun p names => children_ascending)
        (fun x n rel inherited y => TreeWalk.visit_holdsFirst) hfirst (fun k hk => ?_) h).keeps
      rcases (TreeWalk.visit_contains hvisited k).1 hk with rfl | hk
      · exact Std.ReflCmp.isLE_rfl
      · cases hk
    · cases h
      exact hfirst

theorem resolveTree_path {s : Store} {e : Endpoint} {o : Options} {t : NodeTree}
    (h : resolveTree s e o = .ok t) : t.nodes.All fun rel n => n.path = rel := by
  obtain ⟨_, -, hsound⟩ := resolveTree_sound h
  exact hsound.nodes.mono fun rel n ⟨_, _, hn⟩ => congrArg Node.path hn

/-- Where the sides of a split pair come from: the trees have them at its path, or nothing is there. A
copy has the node that the new tree holds for its source on the left. -/
structure NodePair.Sides (old new : NodeTree) (q : NodePair) : Prop where
  right : (∃ origin, q.right = .nonexistent q.path origin) ∨ new.nodes.get? q.path = some q.right
  left : q.change ≠ .copied →
    (∃ origin, q.left = .nonexistent q.path origin) ∨ old.nodes.get? q.path = some q.left
  plain : q.change ≠ .copied → q.copiedFrom = none
  held : q.change = .copied → ∃ source, q.copiedFrom = some (source, q.left) ∧
    new.copySources.get? source = some q.left ∧ new.nodes.get? q.path = some q.right ∧
    q.right.copySource = some source

section Sides

variable {o : Options} {old new : NodeTree} {q : NodePair}

theorem NodePair.Sides.copy {path : Path} {a : Option Node} {b node : Node} {source : CopySource}
    (hb : new.nodes.get? path = some b) (hs : decidingSource o new a b = some (source, node)) :
    NodePair.Sides old new ⟨path, .copied, node, b, some (source, node)⟩ := by
  obtain ⟨hsource, hheld⟩ := decidingSource_some hs
  exact ⟨.inr hb, fun h => absurd rfl h, fun h => absurd rfl h,
    fun _ => ⟨source, rfl, hheld, hb, hsource⟩⟩

theorem NodePair.Sides.apart
    (hright : (∃ origin, q.right = .nonexistent q.path origin) ∨ new.nodes.get? q.path = some q.right)
    (hleft : (∃ origin, q.left = .nonexistent q.path origin) ∨ old.nodes.get? q.path = some q.left)
    (hfrom : q.copiedFrom = none) (hchange : q.change ≠ .copied) : q.Sides old new :=
  ⟨hright, fun _ => hleft, fun _ => hfrom, fun h => absurd h hchange⟩

theorem sides_of_mem_expand (hq : q ∈ (matchTrees o old new).flatMap NodePair.expand) :
    q.Sides old new := by
  obtain ⟨p, hp, hq⟩ := List.mem_flatMap.1 hq
  obtain ⟨u, hverdict⟩ := verdict_of_mem_matchTrees hp
  generalize p.path = path at hverdict
  cases hverdict with
  | absent ha hb =>
    obtain rfl := List.mem_singleton.1 hq
    exact .apart (.inl ⟨_, rfl⟩) (.inl ⟨_, rfl⟩) rfl (by simp)
  | deleted a ha hb =>
    obtain rfl := List.mem_singleton.1 hq
    exact .apart (.inl ⟨_, rfl⟩) (.inr ha) rfl (by simp)
  | added b ha hb hs =>
    obtain rfl := List.mem_singleton.1 hq
    exact .apart (.inr hb) (.inl ⟨_, rfl⟩) rfl (by simp)
  | copied b source node ha hb hs =>
    obtain rfl := List.mem_singleton.1 hq
    exact .copy hb hs
  | replacedByCopy a b source node ha hb hs hr =>
    obtain rfl | rfl := List.mem_pair.1 hq
    · exact .apart (.inl ⟨_, rfl⟩) (.inr ha) rfl (by simp [NodePair.deletion])
    · exact .copy hb hs
  | copiedOnto a b source node ha hb hs hr =>
    obtain rfl := List.mem_singleton.1 hq
    exact .copy hb hs
  | replaced a b ha hb hs hr =>
    obtain rfl | rfl := List.mem_pair.1 hq
    · exact .apart (.inl ⟨_, rfl⟩) (.inr ha) rfl (by simp [NodePair.deletion])
    · exact .apart (.inr hb) (.inl ⟨_, rfl⟩) rfl (by simp [NodePair.addition])
  | modified a b ha hb hs hr hd =>
    obtain rfl := List.mem_singleton.1 hq
    exact .apart (.inr hb) (.inr ha) rfl (by simp)
  | unchanged a b ha hb hs hr hd =>
    obtain rfl := List.mem_singleton.1 hq
    exact .apart (.inr hb) (.inr ha) rfl (by simp)

end Sides

/-- The right side of every pair carries the path of the pair, and so does the left side if it is not
what a copy was made from. That one carries the path of the first node with the same source, so it
carries the path of the pair exactly if no node before the pair's has its source. -/
theorem expand_paths {r : Repository} {e e' : Endpoint} {o : Options} {old new : NodeTree}
    (h : resolvePair r.store e e' o = .ok (old, new)) {q : NodePair}
    (hq : q ∈ (matchTrees o old new).flatMap NodePair.expand) :
    q.right.path = q.path ∧ (q.change ≠ .copied → q.left.path = q.path) ∧
      (q.change = .copied → ∃ source, q.copiedFrom = some (source, q.left) ∧
        q.right.copySource = some source ∧ (∀ p, q.left.path = p ↔ new.IsFirstFrom source p) ∧
        (q.left.path = q.path ↔ ∀ p n, new.nodes.get? p = some n → n.copySource = some source →
          (compare q.path p).isLE)) := by
  obtain ⟨hold, hnew⟩ := resolvePair_eq_ok h
  have hsides := sides_of_mem_expand hq
  have hpath : ∀ {t : NodeTree} {n : Node}, (t.nodes.All fun rel n => n.path = rel) →
      (∃ origin, n = .nonexistent q.path origin) ∨ t.nodes.get? q.path = some n → n.path = q.path := by
    rintro t n ht (⟨origin, rfl⟩ | hn)
    · rfl
    · exact ht _ n hn
  refine ⟨hpath (resolveTree_path hnew) hsides.right,
    fun hchange => hpath (resolveTree_path hold) (hsides.left hchange), fun hchange => ?_⟩
  obtain ⟨source, hfrom, hheld, hright, hsource⟩ := hsides.held hchange
  have hfirst := (resolveTree_holdsFirst hnew).first source q.left hheld
  have hiff : ∀ p, q.left.path = p ↔ new.IsFirstFrom source p := fun p =>
    ⟨fun hp => hp ▸ hfirst, hfirst.unique⟩
  refine ⟨source, hfrom, hsource, hiff, (hiff q.path).trans ⟨And.right, fun hle => ?_⟩⟩
  exact ⟨⟨q.right, hright, hsource⟩, hle⟩

namespace TwoCopies

def draft : Draft := Draft.empty.applyAll [.directory "d"]

def operations : List Operation :=
  [.commit draft, .checkout 1, .edit (.copy "d" "e"), .edit (.copy "d" "f")]

def repository : Repository := Repository.empty.runAll operations

theorem repository_arises : repository.Arises := by
  refine Repository.Arises.empty.runAll fun d hd => ?_
  obtain rfl : d = draft := by simpa [operations] using hd
  exact .new _

def trees : Except DiffError (NodeTree × NodeTree) :=
  resolvePair repository.store ⟨.workingCopy .root, .base⟩ ⟨.workingCopy .root, .working⟩ .default

def early : Path := Path.root.child ⟨"e", Eq.refl true⟩

def late : Path := Path.root.child ⟨"f", Eq.refl true⟩

def pair? (t : NodeTree × NodeTree) : Option NodePair :=
  ((matchTrees .default t.1 t.2).flatMap NodePair.expand).find? fun q => q.path == late

theorem exists_pair : ∃ old new q, trees = .ok (old, new) ∧
    q ∈ (matchTrees .default old new).flatMap NodePair.expand ∧ q.change = .copied ∧ q.path = late ∧
      q.left.path = early := by
  have htold : (trees.toOption.bind pair?).map (fun q => (q.change, q.path, q.left.path)) =
      some (.copied, late, early) := by decide +kernel
  obtain ⟨q, hq, htold⟩ := Option.map_eq_some_iff.1 htold
  obtain ⟨⟨old, new⟩, htrees, hfind⟩ := Option.bind_eq_some_iff.1 hq
  simp only [Prod.mk.injEq] at htold
  exact ⟨old, new, q, toOption_eq_some_iff.1 htrees, List.mem_of_find?_eq_some hfind, htold⟩

end TwoCopies

open TwoCopies in
theorem expand_paths_twoCopies :
    ∃ old new q source, trees = .ok (old, new) ∧
      q ∈ (matchTrees .default old new).flatMap NodePair.expand ∧ q.change = .copied ∧
      q.path = late ∧ q.right.path = late ∧ q.right.copySource = some source ∧
      new.IsFirstFrom source early ∧ ¬ new.IsFirstFrom source late := by
  obtain ⟨old, new, q, htrees, hq, hchange, hpath, hleft⟩ := exists_pair
  obtain ⟨hright, -, hcopied⟩ := expand_paths htrees hq
  obtain ⟨source, -, hsource, hfirst, -⟩ := hcopied hchange
  refine ⟨old, new, q, source, htrees, hq, hchange, hpath, hright.trans hpath, hsource,
    (hfirst early).1 hleft, fun hlate => ?_⟩
  rw [← hfirst, hleft] at hlate
  exact absurd hlate (by decide)

open TwoCopies in
theorem expand_left_path_ne :
    ¬ ∀ (r : Repository) (e e' : Endpoint) (o : Options) (old new : NodeTree) (q : NodePair), r.Arises →
      resolvePair r.store e e' o = .ok (old, new) → q ∈ (matchTrees o old new).flatMap NodePair.expand →
      q.left.path = q.path ∧ q.right.path = q.path := by
  intro hall
  obtain ⟨old, new, q, htrees, hq, -, hpath, hleft⟩ := exists_pair
  obtain ⟨heq, -⟩ := hall repository _ _ _ old new q repository_arises htrees hq
  rw [hleft, hpath] at heq
  exact absurd heq (by decide)

end TreeDelta
