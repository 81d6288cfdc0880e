import TreeDelta.Comparison
import TreeDelta.Proofs.History
import TreeDelta.Proofs.ResolvedTree
import TreeDelta.Proofs.Verdict
set_option autoImplicit false

namespace TreeDelta

open Repository

/-- All contents that the tree names are there. -/
structure NodeTree.ContentsHeld (t : NodeTree) (blobs : Blobs) : Prop where
  nodes : t.nodes.All fun _ n => blobs.Holds n.content
  copySources : t.copySources.All fun _ n => blobs.Holds n.content

structure NodePair.SidesHeld (p : NodePair) (blobs : Blobs) : Prop where
  left : blobs.Holds p.left.content
  right : blobs.Holds p.right.content
  copiedFrom : ∀ source node, p.copiedFrom = some (source, node) → blobs.Holds node.content

variable {r : Repository}

theorem node?_contentsHeld (hr : ContentsHeld r) {p : Path} {origin : Origin} {n : Node}
    (h : r.node? p origin = .ok (some n)) : r.blobs.Holds n.content := by
  cases origin with
  | revision k =>
    obtain ⟨s, hs, h⟩ := bind_eq_ok_iff.1 h
    obtain ⟨record, hrecord, rfl⟩ := Option.map_eq_some_iff.1 (Except.ok.inj h)
    exact hr.snapshot (snapshot_eq_ok_iff.1 hs) p record hrecord
  | workingCopy =>
    obtain ⟨w, hw, h⟩ := bind_eq_ok_iff.1 h
    obtain ⟨node, hnode, rfl⟩ := Option.map_eq_some_iff.1 (Except.ok.inj h)
    exact hr.working w (workingTree_eq_ok_iff.1 hw) p node hnode

theorem resolveTree_contentsHeld (hr : ContentsHeld r) {e : Endpoint} {o : Options} {t : NodeTree}
    (h : resolveTree r.store e o = .ok t) : t.ContentsHeld r.blobs := by
  obtain ⟨l, -, hsound⟩ := resolveTree_sound h
  constructor
  · intro rel n hn
    obtain ⟨m, hm, heq⟩ := hsound.nodes rel n hn
    have hcontent : n.content = m.content := by rw [heq]
    rw [hcontent]
    exact node?_contentsHeld hr hm
  · intro source n hn
    obtain ⟨m, hm, heq⟩ := hsound.copySources source n hn
    have hcontent : n.content = m.content := by rw [heq]
    change r.node? source.path (.revision source.revision) = .ok (some m) at hm
    rw [hcontent]
    exact node?_contentsHeld hr hm

variable {o : Options} {old new : NodeTree} {blobs : Blobs} {p q : NodePair}

theorem Verdict.sidesHeld {u : Bool} {path : Path} (h : Verdict o old new u path p)
    (hold : old.ContentsHeld blobs) (hnew : new.ContentsHeld blobs) : p.SidesHeld blobs := by
  have hnothing : ∀ origin, blobs.Holds (Node.nonexistent path origin).content :=
    fun _ => blobs.holds_none
  have hsource : ∀ {a b source node}, decidingSource o new a b = some (source, node) →
      blobs.Holds node.content :=
    fun hs => hnew.copySources _ _ (decidingSource_some hs).2
  cases h with
  | absent => exact ⟨hnothing _, hnothing _, by simp⟩
  | deleted a ha => exact ⟨hold.nodes _ a ha, hnothing _, by simp⟩
  | added b _ hb => exact ⟨hnothing _, hnew.nodes _ b hb, by simp⟩
  | copied b source node _ hb hs =>
    refine ⟨hsource hs, hnew.nodes _ b hb, fun _ _ heq => ?_⟩
    cases heq
    exact hsource hs
  | replacedByCopy a b source node ha hb hs =>
    refine ⟨hold.nodes _ a ha, hnew.nodes _ b hb, fun _ _ heq => ?_⟩
    cases heq
    exact hsource hs
  | copiedOnto a b source node _ hb hs =>
    refine ⟨hsource hs, hnew.nodes _ b hb, fun _ _ heq => ?_⟩
    cases heq
    exact hsource hs
  | replaced a b ha hb => exact ⟨hold.nodes _ a ha, hnew.nodes _ b hb, by simp⟩
  | modified a b ha hb => exact ⟨hold.nodes _ a ha, hnew.nodes _ b hb, by simp⟩
  | unchanged a b ha hb => exact ⟨hold.nodes _ a ha, hnew.nodes _ b hb, by simp⟩

theorem NodePair.SidesHeld.expand (h : p.SidesHeld blobs) (hq : q ∈ p.expand) : q.SidesHeld blobs := by
  rw [NodePair.expand] at hq
  split at hq
  · rcases List.mem_cons.1 hq with rfl | hq
    · exact ⟨h.left, blobs.holds_none, by simp [deletion]⟩
    · rw [List.mem_singleton.1 hq, addition]
      split
      · rename_i source node hfrom
        refine ⟨h.copiedFrom source node hfrom, h.right, fun _ _ heq => ?_⟩
        cases heq
        exact h.copiedFrom source node hfrom
      · exact ⟨blobs.holds_none, h.right, h.copiedFrom⟩
  · rw [List.mem_singleton.1 hq]
    exact h

theorem changedPairs_sidesHeld (hold : old.ContentsHeld blobs) (hnew : new.ContentsHeld blobs)
    (hq : q ∈ changedPairs o old new) : q.SidesHeld blobs := by
  obtain ⟨p, hp, hq⟩ := List.mem_flatMap.1 hq
  obtain ⟨u, hverdict⟩ := verdict_of_mem_matchTrees (List.mem_filter.1 hp).1
  exact (hverdict.sidesHeld hold hnew).expand hq

theorem shownBytes_eq_ok {n : Node} (h : r.blobs.Holds n.content) :
    ∃ data, shownBytes r.store n = .ok data := by
  unfold shownBytes
  split
  · exact ⟨_, rfl⟩
  · rename_i id hid
    obtain ⟨data, hdata⟩ := OrderedMap.contains_iff.1 (h id (Option.filter_eq_some_iff.1 hid).1)
    have hcontent : r.store.content? id = .ok (some data) := congrArg Except.ok hdata
    rw [hcontent]
    dsimp only
    split
    · exact ⟨_, rfl⟩
    · exact ⟨_, rfl⟩

theorem diffContent_eq_ok {a b : Node} (ha : r.blobs.Holds a.content) (hb : r.blobs.Holds b.content)
    (o : Options) : ∃ diff, diffContent r.store a b o = .ok diff := by
  obtain ⟨old, hold⟩ := shownBytes_eq_ok ha
  obtain ⟨new, hnew⟩ := shownBytes_eq_ok hb
  unfold diffContent
  simp only [hold, hnew, bind, Except.bind]
  repeat' split
  all_goals exact ⟨_, rfl⟩

theorem Frame.result_eq_ok {f : Frame} (hstore : f.store = r.store) (hp : p.SidesHeld r.blobs) :
    ∃ result, f.result p = .ok result ∧ (result.path, result.change) = (p.path, p.change) := by
  have hcontent : ∃ content, f.contentOf p = .ok content := by
    unfold contentOf
    split
    · exact ⟨_, rfl⟩
    · rw [hstore]
      exact diffContent_eq_ok hp.left hp.right _
  obtain ⟨content, hcontent⟩ := hcontent
  exact ⟨_, bind_eq_ok_iff.2 ⟨content, hcontent, rfl⟩, rfl⟩

theorem compareTrees_eq_ok (hr : ContentsHeld r) (spec : ComparisonSpec)
    (hvalid : spec.options.validate = .ok ())
    (hresolve : resolvePair r.store spec.old spec.new spec.options = .ok (old, new)) :
    ∃ results, compareTrees r.store spec = .ok results ∧
      results.map (fun x => (x.path, x.change)) =
        (changedPairs spec.options old new).map fun x => (x.path, x.change) := by
  obtain ⟨hold, hnew⟩ := resolvePair_eq_ok hresolve
  rw [compareTrees, hvalid, hresolve]
  exact mapM_eq_ok _ fun q hq => Frame.result_eq_ok rfl <|
    changedPairs_sidesHeld (resolveTree_contentsHeld hr hold) (resolveTree_contentsHeld hr hnew) hq

end TreeDelta
