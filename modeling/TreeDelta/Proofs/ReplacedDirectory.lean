import TreeDelta.Proofs.SelfComparison
set_option autoImplicit false

namespace TreeDelta

def NodePair.IsReplacedDirectory (p : NodePair) : Prop := p.change = .replaced ∧ p.nodeKind = .directory

def UnderReplaced (pairs : List NodePair) (path : Path) : Prop :=
  ∃ d ∈ pairs, d.IsReplacedDirectory ∧ path.isAtOrBelow d.path = true ∧ path ≠ d.path

section Pairs

variable {o : Options} {old new : NodeTree} {seen paths : List Path} {path : Path} {pair : NodePair}

theorem not_above_of_mem_classifyAll (hlater : ∀ p ∈ paths, compare path p = .lt)
    (h : pair ∈ classifyAll o old new seen paths) : path.isAtOrBelow pair.path = false := by
  have hmem := List.mem_map_of_mem (f := NodePair.path) h
  rw [classifyAll_paths] at hmem
  have hafter := hlater pair.path hmem
  rw [Bool.eq_false_iff]
  intro hbelow
  by_cases heq : path = pair.path
  · rw [heq, Std.ReflOrd.compare_self] at hafter
    cases hafter
  · rw [Std.OrientedCmp.gt_of_lt (Path.compare_of_below hbelow heq)] at hafter
    cases hafter

/-- A pair of the walk is told by whether a directory seen before the walk, or a replaced one that
the walk comes to, lies above its path. -/
theorem mem_classifyAll_classified (hpaths : paths.Pairwise fun p q => compare p q = .lt)
    (h : pair ∈ classifyAll o old new seen paths) :
    ∃ u, pair = classify o old new u pair.path ∧
      (u = true ↔ (∃ d ∈ seen, pair.path.isAtOrBelow d = true) ∨
        UnderReplaced (classifyAll o old new seen paths) pair.path) := by
  induction paths generalizing seen with
  | nil => cases h
  | cons path paths ih =>
    obtain ⟨hlater, hpaths⟩ := List.pairwise_cons.1 hpaths
    rw [classifyAll] at h ⊢
    have hhead : (classify o old new (seen.any path.isAtOrBelow) path).path = path :=
      classify_path o old new _ path
    generalize hpair : classify o old new (seen.any path.isAtOrBelow) path = head at h hhead ⊢
    rcases List.mem_cons.1 h with rfl | h
    · -- Nothing that is still to come lies above the first path, so only the old notes count.
      refine ⟨seen.any path.isAtOrBelow, by rw [hhead, hpair], ?_⟩
      rw [List.any_eq_true, hhead]
      refine ⟨.inl, fun hor => hor.resolve_right ?_⟩
      rintro ⟨d, hd, -, hbelow, hne⟩
      rcases List.mem_cons.1 hd with rfl | hd
      · exact hne hhead.symm
      · rw [not_above_of_mem_classifyAll hlater hd] at hbelow
        cases hbelow
    · -- The first pair is noted if it is a replaced directory, and counts for all that follows.
      obtain ⟨u, hclassify, hu⟩ := ih hpaths h
      have hne : pair.path ≠ head.path := by
        rintro heq
        have hbelow := not_above_of_mem_classifyAll hlater h
        rw [heq, hhead, Path.isAtOrBelow_self] at hbelow
        cases hbelow
      refine ⟨u, hclassify, hu.trans ?_⟩
      simp only [mem_ite_cons, UnderReplaced, List.mem_cons, Bool.and_eq_true, decide_eq_true_eq,
        ← hhead]
      constructor
      · rintro (⟨d, ⟨hreplaced, rfl⟩ | hd, hbelow⟩ | ⟨d, hd, hrest⟩)
        · exact .inr ⟨head, .inl rfl, hreplaced, hbelow, hne⟩
        · exact .inl ⟨d, hd, hbelow⟩
        · exact .inr ⟨d, .inr hd, hrest⟩
      · rintro (⟨d, hd, hbelow⟩ | ⟨d, rfl | hd, hreplaced, hbelow, hne'⟩)
        · exact .inl ⟨d, .inr hd, hbelow⟩
        · exact .inl ⟨d.path, .inl ⟨hreplaced, rfl⟩, hbelow⟩
        · exact .inr ⟨d, hd, hreplaced, hbelow, hne'⟩

theorem mem_matchTrees_classified (h : pair ∈ matchTrees o old new) :
    ∃ u, pair = classify o old new u pair.path ∧
      (u = true ↔ UnderReplaced (matchTrees o old new) pair.path) := by
  obtain ⟨u, hclassify, hu⟩ := mem_classifyAll_classified (OrderedMap.unionKeys_ascending _ _) h
  exact ⟨u, hclassify, hu.trans (by simp [matchTrees])⟩

theorem exists_unique_pair (o : Options)
    (h : old.nodes.contains path = true ∨ new.nodes.contains path = true) :
    ∃ pair ∈ matchTrees o old new, pair.path = path ∧
      ∀ other ∈ matchTrees o old new, other.path = path → other = pair := by
  have hmem : path ∈ (matchTrees o old new).map NodePair.path := by
    rw [matchTrees_paths]
    exact OrderedMap.mem_unionKeys_iff.2 h
  have hnodup : ((matchTrees o old new).map NodePair.path).Nodup := by
    rw [matchTrees_paths]
    exact OrderedMap.unionKeys_nodup _ _
  obtain ⟨pair, hpair, rfl⟩ := List.mem_map.1 hmem
  exact ⟨pair, hpair, rfl, fun other hother => List.inj_on_of_nodup_map hnodup hother hpair⟩

/-- The verdict on a path whose nodes are not compared with each other. -/
structure NodePair.SetsApart (old new : NodeTree) (pair : NodePair) : Prop where
  both : ∀ a b, old.nodes.get? pair.path = some a → new.nodes.get? pair.path = some b →
    pair.change = .replaced ∨
      pair.change = .copied ∧ ∃ source, b.copySource = some source ∧ a.isCopySource source = true
  gone : new.nodes.get? pair.path = none → pair.change = .deleted
  come : old.nodes.get? pair.path = none → pair.change = .added ∨ pair.change = .copied

theorem Verdict.setsApart (hnotice : o.noticeAncestry = true) (h : Verdict o old new true pair.path pair)
    (hmem : old.nodes.contains pair.path = true ∨ new.nodes.contains pair.path = true) :
    pair.SetsApart old new := by
  have hreplaced : ∀ a b : Node, a.isReplacedBy o true b = true := by
    simp [Node.isReplacedBy, hnotice]
  generalize hpath : pair.path = path at h hmem
  cases h with
  | absent ha hb => simp [OrderedMap.contains, ha, hb] at hmem
  | deleted a ha hb => exact ⟨by simp [hb], fun _ => rfl, by simp [ha]⟩
  | added b ha hb hs => exact ⟨by simp [ha], by simp [hb], fun _ => .inl rfl⟩
  | copied b source node ha hb hs => exact ⟨by simp [ha], by simp [hb], fun _ => .inr rfl⟩
  | replacedByCopy a b source node ha hb hs hr =>
    exact ⟨fun _ _ _ _ => .inl rfl, by simp [hb], by simp [ha]⟩
  | replaced a b ha hb hs hr => exact ⟨fun _ _ _ _ => .inl rfl, by simp [hb], by simp [ha]⟩
  | copiedOnto a b source node ha hb hs hr =>
    refine ⟨fun a' b' ha' hb' => .inr ⟨rfl, source, ?_, ?_⟩, by simp [hb], by simp [ha]⟩
    · obtain rfl : b = b' := Option.some.inj (hb.symm.trans hb')
      exact (decidingSource_some hs).1
    · obtain rfl : a = a' := Option.some.inj (ha.symm.trans ha')
      simp only [Node.isReplacedByCopy, Bool.or_eq_false_iff, Bool.not_eq_false'] at hr
      exact hr.1
  | modified a b ha hb hs hr hd =>
    rw [hreplaced] at hr
    cases hr
  | unchanged a b ha hb hs hr hd =>
    rw [hreplaced] at hr
    cases hr

/-- With ancestry noticed every path of either tree below a replaced directory has one pair, and its
nodes are not compared with each other. -/
theorem matchTrees_belowReplaced (hnotice : o.noticeAncestry = true) {d : NodePair}
    (hd : d ∈ matchTrees o old new) (hreplaced : d.change = .replaced) (hkind : d.right.kind = .directory)
    (hbelow : path.isAtOrBelow d.path = true) (hne : path ≠ d.path)
    (hmem : old.nodes.contains path = true ∨ new.nodes.contains path = true) :
    ∃ pair ∈ matchTrees o old new, pair.path = path ∧
      (∀ other ∈ matchTrees o old new, other.path = path → other = pair) ∧ pair.SetsApart old new := by
  obtain ⟨pair, hpair, rfl, hunique⟩ := exists_unique_pair o hmem
  refine ⟨pair, hpair, rfl, hunique, ?_⟩
  obtain ⟨u, hclassify, hu⟩ := mem_matchTrees_classified hpair
  have hdirectory : d.nodeKind = .directory := by simp [NodePair.nodeKind, Node.isPresent, hkind]
  obtain rfl : u = true := hu.2 ⟨d, hd, ⟨hreplaced, hdirectory⟩, hbelow, hne⟩
  refine Verdict.setsApart hnotice ?_ hmem
  have hverdict := classify_verdict o old new true pair.path
  rwa [← hclassify] at hverdict

end Pairs

namespace RemadeDirectory

def directory : Path := Path.root.child ⟨"d", Eq.refl true⟩

def kept : Path := directory.child ⟨"a", Eq.refl true⟩

def gone : Path := directory.child ⟨"b", Eq.refl true⟩

def back : Path := directory.child ⟨"c", Eq.refl true⟩

def fresh : Path := directory.child ⟨"e", Eq.refl true⟩

def sibling : Path := Path.root.child ⟨"d-1", Eq.refl true⟩

def before (p : Path) : Node := { Node.bare p .directory (.revision 1) with reposPath := some p }

def after (p : Path) : Node := Node.bare p .directory .workingCopy

def source : CopySource := ⟨back, 1⟩

def old : NodeTree where
  origin := .revision 1
  location := .root
  nodes := OrderedMap.ofList ([directory, kept, gone, back, sibling].map fun p => (p, before p))
  copySources := .empty

def new : NodeTree where
  origin := .workingCopy
  location := .root
  nodes := OrderedMap.ofList
    [(directory, { after directory with replaced := true }), (kept, after kept),
      (back, { after back with copySource := some source }), (fresh, after fresh), (sibling, after sibling)]
  copySources := OrderedMap.empty.insert source (before back)

def options : Options := { Options.default with noticeAncestry := true }

def pair : NodePair := ⟨directory, .replaced, before directory, { after directory with replaced := true }, none⟩

end RemadeDirectory

open RemadeDirectory in
theorem matchTrees_belowReplaced_remade :
    options.noticeAncestry = true ∧ pair ∈ matchTrees options old new ∧ pair.change = .replaced ∧
      pair.right.kind = .directory ∧
      (∀ p ∈ [kept, gone, back, fresh], p.isAtOrBelow pair.path = true ∧ p ≠ pair.path ∧
        (old.nodes.contains p = true ∨ new.nodes.contains p = true) ∧
        ∃ q ∈ matchTrees options old new, q.path = p ∧ q.SetsApart old new) ∧
      ∃ q ∈ matchTrees options old new, q.path = sibling ∧ q.change = .unchanged := by
  have hpair : pair ∈ matchTrees options old new := by decide +kernel
  refine ⟨rfl, hpair, rfl, rfl, fun p hp => ?_, by decide +kernel⟩
  have hplaces : p.isAtOrBelow pair.path = true ∧ p ≠ pair.path ∧
      (old.nodes.contains p = true ∨ new.nodes.contains p = true) := by
    revert p
    decide +kernel
  obtain ⟨hbelow, hne, hmem⟩ := hplaces
  obtain ⟨q, hq, hpath, -, hapart⟩ := matchTrees_belowReplaced (o := options) rfl hpair rfl rfl hbelow hne hmem
  exact ⟨hbelow, hne, hmem, q, hq, hpath, hapart⟩

end TreeDelta
