import TreeDelta.Proofs.ComparisonResult
import TreeDelta.Proofs.Operation
import TreeDelta.Proofs.PathOrder
import TreeDelta.Proofs.TreeReading
set_option autoImplicit false

namespace TreeDelta

open Repository

def NodeTree.replacedAt (t : NodeTree) (p : Path) : Bool :=
  t.nodes.entries.any fun e => e.2.replaced && p.isAtOrBelow e.1

theorem NodeTree.replacedAt_iff {t : NodeTree} {p : Path} :
    t.replacedAt p = true ↔
      ∃ q n, t.nodes.get? q = some n ∧ n.replaced = true ∧ p.isAtOrBelow q = true := by
  simp only [replacedAt, List.any_eq_true, Bool.and_eq_true, OrderedMap.get?_eq_some_iff, Prod.exists]

theorem NodeTree.replacedAt_below {t : NodeTree} {p q : Path} (hq : t.replacedAt q = true)
    (h : p.isAtOrBelow q = true) : t.replacedAt p = true := by
  obtain ⟨q', n, hn, hreplaced, hbelow⟩ := replacedAt_iff.1 hq
  exact replacedAt_iff.2 ⟨q', n, hn, hreplaced, Path.isAtOrBelow_trans h hbelow⟩

theorem NodeTree.replacedAt_of_get? {t : NodeTree} {p : Path} {n : Node} (hn : t.nodes.get? p = some n)
    (hreplaced : n.replaced = true) : t.replacedAt p = true :=
  replacedAt_iff.2 ⟨p, n, hn, hreplaced, Path.isAtOrBelow_self p⟩

theorem NodeTree.replaced_or_replacedAt {t : NodeTree} {p : Path} {n : Node}
    (hn : t.nodes.get? p = some n) : (n.replaced || t.replacedAt p) = t.replacedAt p := by
  cases hreplaced : n.replaced with
  | false => rfl
  | true => exact (replacedAt_of_get? hn hreplaced).symm

theorem mem_ite_cons {α : Type} {c : Prop} [Decidable c] {x y : α} {l : List α} :
    (x ∈ if c then y :: l else l) ↔ c ∧ x = y ∨ x ∈ l := by
  by_cases hc : c
  · simp [hc]
  · simp [hc]

/-- The trees show the same, and no copy source of the new one decides on a pair. -/
structure Alike (o : Options) (old new : NodeTree) : Prop where
  states : ∀ p, (old.nodes.get? p).map Node.state = (new.nodes.get? p).map Node.state
  sources : ∀ p a b, old.nodes.get? p = some a → new.nodes.get? p = some b →
    decidingSource o new (some a) b = none
  directories : ∀ p q n, new.nodes.contains p = true → new.nodes.get? q = some n →
    p.isAtOrBelow q = true → p ≠ q → n.isDirectory = true

namespace Alike

variable {o : Options} {old new : NodeTree} {p : Path}

theorem contains_iff (h : Alike o old new) : old.nodes.contains p = true ↔ new.nodes.contains p = true := by
  have hstates := h.states p
  rw [OrderedMap.contains, OrderedMap.contains, ← Option.isSome_map (f := Node.state), hstates,
    Option.isSome_map]

theorem classify_eq (h : Alike o old new) {b : Node} (hb : new.nodes.get? p = some b) :
    ∃ a, old.nodes.get? p = some a ∧ ∀ u, classify o old new u p =
      ⟨p, if o.noticeAncestry && (b.replaced || u) then .replaced else .unchanged, a, b, none⟩ := by
  obtain ⟨a, ha⟩ := OrderedMap.contains_iff.1 (h.contains_iff.2 (OrderedMap.contains_iff.2 ⟨b, hb⟩))
  have hstate : a.state = b.state := by
    have hstates := h.states p
    rw [ha, hb] at hstates
    exact Option.some.inj hstates
  have hkind : a.kind = b.kind := congrArg NodeState.kind hstate
  have hcontent : a.content = b.content := congrArg NodeState.content hstate
  have hprops : a.props = b.props := congrArg NodeState.props hstate
  have hsame : a.differs b = false := by simp [Node.differs, hcontent, hprops]
  refine ⟨a, ha, fun u => ?_⟩
  simp only [classify, ha, hb, h.sources p a b ha hb, hkind, bne_self_eq_false, Bool.false_or, hsame]
  split
  · rfl
  · rfl

/-- What the walk knows while `paths` are to come: the directories in `seen` are replaced, and they
are all that there are among the paths it has passed. -/
structure Passed (o : Options) (new : NodeTree) (paths seen : List Path) : Prop where
  sound : ∀ q ∈ seen, new.replacedAt q = true
  complete : o.noticeAncestry = true → ∀ q n, new.nodes.get? q = some n → n.isDirectory = true →
    new.replacedAt q = true → q ∈ paths ∨ q ∈ seen

/-- The directories seen tell of a path what the flags tell of it, since all that lies above the path
has been passed. -/
theorem replaced_or_seen (h : Alike o old new) {seen paths : List Path} {b : Node}
    (hb : new.nodes.get? p = some b) (hpaths : (p :: paths).Pairwise fun q s => compare q s = .lt)
    (hpassed : Passed o new (p :: paths) seen) (hnotice : o.noticeAncestry = true) :
    (b.replaced || seen.any p.isAtOrBelow) = new.replacedAt p := by
  rw [Bool.eq_iff_iff, Bool.or_eq_true, List.any_eq_true]
  constructor
  · rintro (hreplaced | ⟨q, hq, hbelow⟩)
    · exact NodeTree.replacedAt_of_get? hb hreplaced
    · exact NodeTree.replacedAt_below (hpassed.sound q hq) hbelow
  · intro hflagged
    obtain ⟨q, n, hn, hreplaced, hbelow⟩ := NodeTree.replacedAt_iff.1 hflagged
    by_cases hne : p = q
    · subst hne
      rw [hb] at hn
      cases hn
      exact .inl hreplaced
    · have hkind := h.directories p q n (OrderedMap.contains_iff.2 ⟨b, hb⟩) hn hbelow hne
      have hbefore := Path.compare_of_below hbelow hne
      have hq := hpassed.complete hnotice q n hn hkind (NodeTree.replacedAt_of_get? hn hreplaced)
      refine .inr ⟨q, hq.resolve_left fun hmem => ?_, hbelow⟩
      rcases List.mem_cons.1 hmem with rfl | hmem
      · exact hne rfl
      · have hafter := (List.pairwise_cons.1 hpaths).1 q hmem
        rw [Std.OrientedCmp.gt_of_lt hbefore] at hafter
        cases hafter

theorem Passed.step {seen paths : List Path} {pair : NodePair} (h : Passed o new (p :: paths) seen)
    (hb : new.nodes.get? p = some pair.right)
    (hchange : pair.change = if o.noticeAncestry && new.replacedAt p then .replaced else .unchanged) :
    Passed o new paths
      (if pair.change = .replaced && pair.nodeKind = .directory then p :: seen else seen) where
  sound q hq := by
    rw [mem_ite_cons] at hq
    rcases hq with ⟨hreplaced, rfl⟩ | hq
    · by_contra hnot
      simp [hchange, hnot] at hreplaced
    · exact h.sound q hq
  complete hnotice q n hn hkind hq := by
    rw [mem_ite_cons]
    rcases h.complete hnotice q n hn hkind hq with hmem | hmem
    · rcases List.mem_cons.1 hmem with rfl | hmem
      · rw [hb] at hn
        cases hn
        have hdirectory : pair.right.kind = .directory := by simpa [Node.isDirectory] using hkind
        have hpresent : pair.right.isPresent = true := by simp [Node.isPresent, hdirectory]
        exact .inr (.inl ⟨by simp [hchange, hnotice, hq, NodePair.nodeKind, hpresent, hdirectory], rfl⟩)
      · exact .inl hmem
    · exact .inr (.inr hmem)

theorem classifyAll_eq (h : Alike o old new) {seen paths : List Path}
    (hpaths : paths.Pairwise fun q s => compare q s = .lt)
    (hmem : ∀ p ∈ paths, new.nodes.contains p = true) (hpassed : Passed o new paths seen) :
    classifyAll o old new seen paths =
      paths.map fun p => classify o old new (new.replacedAt p) p := by
  induction paths generalizing seen with
  | nil => rfl
  | cons p paths ih =>
    obtain ⟨b, hb⟩ := OrderedMap.contains_iff.1 (hmem p List.mem_cons_self)
    obtain ⟨a, -, hclassify⟩ := h.classify_eq hb
    have hflag : (o.noticeAncestry && (b.replaced || seen.any p.isAtOrBelow)) =
        (o.noticeAncestry && new.replacedAt p) := by
      cases hnotice : o.noticeAncestry with
      | false => rfl
      | true => rw [h.replaced_or_seen hb hpaths hpassed hnotice]
    rw [classifyAll, List.map_cons, hclassify, hclassify, hflag, NodeTree.replaced_or_replacedAt hb]
    exact congrArg (_ :: ·) (ih (List.pairwise_cons.1 hpaths).2
      (fun q hq => hmem q (List.mem_cons_of_mem _ hq)) (hpassed.step hb rfl))

theorem changedPairs_eq (h : Alike o old new) :
    (changedPairs o old new).map (fun x => (x.path, x.change)) =
      ((old.nodes.unionKeys new.nodes).filter fun p => o.noticeAncestry && new.replacedAt p).flatMap
        fun p => [(p, .deleted), (p, .added)] := by
  have hmem : ∀ p ∈ old.nodes.unionKeys new.nodes, new.nodes.contains p = true := by
    intro p hp
    rcases OrderedMap.mem_unionKeys_iff.1 hp with hp | hp
    · exact h.contains_iff.1 hp
    · exact hp
  have hall : matchTrees o old new = (old.nodes.unionKeys new.nodes).map fun p =>
      classify o old new (new.replacedAt p) p := by
    refine h.classifyAll_eq (OrderedMap.unionKeys_ascending _ _) hmem ⟨by simp, fun _ q n hn _ _ => ?_⟩
    exact .inl (OrderedMap.mem_unionKeys_iff.2 (.inr (OrderedMap.contains_iff.2 ⟨n, hn⟩)))
  rw [changedPairs, hall]
  generalize old.nodes.unionKeys new.nodes = paths at hmem
  induction paths with
  | nil => rfl
  | cons p paths ih =>
    obtain ⟨b, hb⟩ := OrderedMap.contains_iff.1 (hmem p List.mem_cons_self)
    obtain ⟨a, -, hclassify⟩ := h.classify_eq hb
    have hrest := ih fun q hq => hmem q (List.mem_cons_of_mem _ hq)
    rw [List.map_cons, hclassify, NodeTree.replaced_or_replacedAt hb]
    by_cases hflag : (o.noticeAncestry && new.replacedAt p) = true
    · rw [List.filter_cons_of_pos (by simp [hflag]), List.filter_cons]
      simp only [hflag, if_true, List.flatMap_cons, List.map_append, hrest]
      rfl
    · rw [List.filter_cons_of_neg (by simp [hflag]), List.filter_cons, if_neg hflag]
      exact hrest

theorem changedPairs_eq_nil_iff (h : Alike o old new) :
    changedPairs o old new = [] ↔
      (o.noticeAncestry = true → ∀ p n, new.nodes.get? p = some n → n.replaced = false) := by
  rw [← List.map_eq_nil_iff, h.changedPairs_eq, List.flatMap_eq_nil_iff]
  constructor
  · intro hnone hnotice p n hn
    by_contra hreplaced
    rw [Bool.not_eq_false] at hreplaced
    have hflagged := NodeTree.replacedAt_of_get? hn hreplaced
    have hkey : p ∈ old.nodes.unionKeys new.nodes :=
      OrderedMap.mem_unionKeys_iff.2 (.inr (OrderedMap.contains_iff.2 ⟨n, hn⟩))
    have htold := hnone p (List.mem_filter.2 ⟨hkey, by simp [hnotice, hflagged]⟩)
    cases htold
  · intro hflags p hp
    obtain ⟨hnotice, hreplaced⟩ := Bool.and_eq_true_iff.1 (List.mem_filter.1 hp).2
    obtain ⟨q, n, hn, hreplaced, -⟩ := NodeTree.replacedAt_iff.1 hreplaced
    rw [hflags hnotice q n hn] at hreplaced
    cases hreplaced

end Alike

variable {r : Repository} {e : Endpoint} {o : Options} {t : NodeTree}

theorem resolveTree_directory_above (h : resolveTree r.store e o = .ok t) {p q : Path} {n : Node}
    (hp : t.nodes.contains p = true) (hn : t.nodes.get? q = some n) (hbelow : p.isAtOrBelow q = true)
    (hne : p ≠ q) : n.isDirectory = true := by
  obtain ⟨l, v, -, -, -, hreads⟩ := resolveTree_eq_ok h
  obtain ⟨m, hm⟩ := OrderedMap.contains_iff.1 hp
  obtain ⟨⟨names⟩, rfl⟩ := Path.isAtOrBelow_iff.1 hbelow
  have hnames : names ≠ [] := by
    rintro rfl
    exact hne (Path.join_root q)
  obtain ⟨parent, hparent, hkind, -⟩ := ((hreads _ m).1 hm).of_below hnames
  rwa [((hreads q n).1 hn).unique hparent]

theorem decidingSource_self (a : Node) : decidingSource o t (some a) a = none := by
  refine Option.bind_eq_none_iff.2 fun source hsource => Option.bind_eq_none_iff.2 fun _ _ =>
    Option.bind_eq_none_iff.2 fun node _ => ?_
  have hsame : (a.copySource == some source) = true := beq_iff_eq.2 hsource
  dsimp only
  rw [hsame, Bool.true_or]
  rfl

theorem resolveTree_alike_self (h : resolveTree r.store e o = .ok t) : Alike o t t where
  states _ := rfl
  sources p a b ha hb := by
    rw [ha] at hb
    cases hb
    exact decidingSource_self a
  directories _ _ _ hp hn hbelow hne := resolveTree_directory_above h hp hn hbelow hne

theorem resolveTree_not_replaced (h : resolveTree r.store e o = .ok t) (horigin : t.origin ≠ .workingCopy)
    {p : Path} {n : Node} (hn : t.nodes.get? p = some n) : n.replaced = false := by
  obtain ⟨l, v, -, hv, hl, hreads⟩ := resolveTree_eq_ok h
  obtain ⟨node, inherited, hnode, rfl⟩ := ((hreads p n).1 hn).eq_placed
  rw [hl] at horigin
  cases hrevision : l.origin with
  | workingCopy => exact absurd hrevision horigin
  | revision k =>
    rw [hrevision] at hv
    obtain ⟨s, -, rfl⟩ := Option.map_eq_some_iff.1 hv
    rw [OrderedMap.get?_map] at hnode
    obtain ⟨record, -, rfl⟩ := Option.map_eq_some_iff.1 hnode
    rfl

/-- A comparison of an endpoint with itself tells of the nodes that are flagged as replaced and of
all below them, if ancestry is noticed, and of nothing else. Only a working copy has such nodes. -/
theorem compareTrees_self (hr : r.Reachable) (hvalid : o.validate = .ok ())
    (ht : resolve r.store e o = .ok t) (root : Option String) :
    ∃ results, compareTrees r.store ⟨e, e, root, o⟩ = .ok results ∧
      results.map (fun x => (x.path, x.change)) =
        (t.nodes.keys.filter fun p => o.noticeAncestry && t.replacedAt p).flatMap
          (fun p => [(p, .deleted), (p, .added)]) ∧
      (results = [] ↔
        (o.noticeAncestry = true → ∀ p n, t.nodes.get? p = some n → n.replaced = false)) ∧
      (t.origin ≠ .workingCopy → results = []) := by
  obtain ⟨t', htree, ht⟩ := bind_eq_ok_iff.1 ht
  split at ht
  · cases ht
  rename_i hpresent
  cases ht
  have hpair : resolvePair r.store e e o = .ok (t, t) := by
    rw [resolvePair, htree]
    simp only [bind, Except.bind, hpresent]
    rfl
  have halike := resolveTree_alike_self htree
  obtain ⟨results, hresults, hall⟩ :=
    compareTrees_eq_ok hr.contentsHeld ⟨e, e, root, o⟩ hvalid hpair
  have hnil : results = [] ↔ changedPairs o t t = [] := by
    rw [← List.map_eq_nil_iff, hall, List.map_eq_nil_iff]
  have htold := hall.trans halike.changedPairs_eq
  rw [OrderedMap.unionKeys_self] at htold
  refine ⟨results, hresults, htold, hnil.trans halike.changedPairs_eq_nil_iff, fun horigin => ?_⟩
  exact hnil.2 (halike.changedPairs_eq_nil_iff.2 fun _ p n hn =>
    resolveTree_not_replaced htree horigin hn)

namespace Remade

def dir : Path := Path.root.child ⟨"d", Eq.refl true⟩

def inner : Path := dir.child ⟨"e", Eq.refl true⟩

def operations : List Operation :=
  [.commit (Draft.empty.applyAll [.directory "d/e"]), .checkout 1, .edit (.delete "d"),
   .edit (.makeDirectory "d"), .edit (.makeDirectory "d/e")]

def repository : Repository := Repository.empty.runAll operations

theorem repository_arises : repository.Arises := by
  refine Repository.Arises.empty.runAll fun d hd => ?_
  obtain rfl : d = Draft.empty.applyAll [.directory "d/e"] := by simpa [operations] using hd
  exact .new _

def endpoint : Endpoint := ⟨.workingCopy .root, .working⟩

def options : Options := { Options.default with noticeAncestry := true, summarizeOnly := true }

def node (p : Path) : Node := { Node.bare p .directory .workingCopy with reposPath := some p }

def tree : NodeTree where
  origin := .workingCopy
  location := .root
  nodes := ((OrderedMap.empty.insert .root (node .root)).insert dir
    { node dir with replaced := true }).insert inner (node inner)
  copySources := .empty

theorem resolve_eq : resolve repository.store endpoint options = .ok tree := rfl

end Remade

open Remade in
theorem compareTrees_self_remade :
    repository.Reachable ∧ options.validate = .ok () ∧
      resolve repository.store endpoint options = .ok tree ∧
      ∃ results, compareTrees repository.store ⟨endpoint, endpoint, none, options⟩ = .ok results ∧
        results.map (fun x => (x.path, x.change)) =
          [(dir, .deleted), (dir, .added), (inner, .deleted), (inner, .added)] := by
  obtain ⟨results, hresults, htold, -⟩ :=
    compareTrees_self repository_arises.reachable rfl resolve_eq none
  refine ⟨repository_arises.reachable, rfl, resolve_eq, results, hresults, htold.trans ?_⟩
  decide +kernel

open Remade in
theorem compareTrees_self_ne_nil :
    ¬ ∀ (r : Repository) (e : Endpoint) (o : Options) (t : NodeTree) (root : Option String),
      r.Arises → o.validate = .ok () → resolve r.store e o = .ok t →
      compareTrees r.store ⟨e, e, root, o⟩ = .ok [] := by
  intro hempty
  exact absurd (hempty _ _ _ _ none repository_arises rfl resolve_eq) (by decide +kernel)

end TreeDelta
