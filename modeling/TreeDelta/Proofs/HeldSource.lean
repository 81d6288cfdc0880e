import TreeDelta.Proofs.PlainAddition
set_option autoImplicit false

namespace TreeDelta

open Repository

def NodeTree.HoldsSources (t : NodeTree) : Prop :=
  t.nodes.All fun _ n => ∀ source, n.copySource = some source → t.copySources.contains source = true

section Walk

variable {w : TreeWalk} {t t' : NodeTree}

theorem NodeTree.HoldsSources.grow (h : t.HoldsSources) (hnodes : t'.nodes = t.nodes)
    (hsources : ∀ source, t.copySources.contains source = true → t'.copySources.contains source = true) :
    t'.HoldsSources := by
  rw [NodeTree.HoldsSources, hnodes]
  exact h.mono fun _ n hn source hsource => hsources source (hn source hsource)

theorem TreeWalk.attachSource_holds {rel : Path} {inherited source : Option CopySource}
    (h : w.attachSource t rel inherited = .ok (t', source)) :
    t'.nodes = t.nodes ∧ (∀ s, t.copySources.contains s = true → t'.copySources.contains s = true) ∧
      ∀ s, source = some s → t'.copySources.contains s = true := by
  obtain ⟨own, -, h⟩ := bind_eq_ok_iff.1 h
  split at h
  · cases h
    exact ⟨rfl, fun _ hs => hs, by simp⟩
  · rename_i candidate _
    split at h
    · rename_i hheld
      cases h
      refine ⟨rfl, fun _ hs => hs, fun s hs => ?_⟩
      cases hs
      exact hheld
    · obtain ⟨found, -, h⟩ := bind_eq_ok_iff.1 h
      split at h
      · cases h
        exact ⟨rfl, fun _ hs => hs, by simp⟩
      · cases h
        refine ⟨rfl, fun s hs => OrderedMap.contains_insert_iff.2 (.inr hs), fun s hs => ?_⟩
        cases hs
        exact OrderedMap.contains_insert_iff.2 (.inl rfl)

theorem TreeWalk.visit_holdsSources {n : Node} {rel : Path} {inherited : Option CopySource}
    (ht : t.HoldsSources) (h : w.visit t n rel inherited = .ok t') : t'.HoldsSources := by
  obtain ⟨t₁, source, hsource, rfl⟩ := visit_eq_ok h
  obtain ⟨hnodes, hkept, hheld⟩ : t₁.nodes = t.nodes ∧
      (∀ s, t.copySources.contains s = true → t₁.copySources.contains s = true) ∧
      ∀ s, source = some s → t₁.copySources.contains s = true := by
    split at hsource
    · exact attachSource_holds hsource
    · cases hsource
      exact ⟨rfl, fun _ hs => hs, by simp⟩
  exact OrderedMap.All.insert (ht.grow hnodes hkept) hheld

end Walk

theorem resolveTree_holdsSources {s : Store} {e : Endpoint} {o : Options} {t : NodeTree}
    (h : resolveTree s e o = .ok t) : t.HoldsSources := by
  obtain ⟨l, -, hholds⟩ := resolveTree_keeps (P := fun _ t => t.HoldsSources)
    (fun _ => OrderedMap.all_empty) (fun _ _ _ _ _ _ _ ht => TreeWalk.visit_holdsSources ht) h
  exact hholds

variable {r : Repository}

theorem committed_eq_some_iff {source : CopySource} {m : Node} :
    r.committed source = some m ↔ r.node? source.path (.revision source.revision) = .ok (some m) := by
  rw [committed, node?, bind_eq_ok_iff]
  constructor
  · intro h
    obtain ⟨s, hs, hm⟩ := Option.bind_eq_some_iff.1 h
    exact ⟨s, snapshot_eq_ok_iff.2 hs, congrArg Except.ok hm⟩
  · rintro ⟨s, hs, hm⟩
    exact Option.bind_eq_some_iff.2 ⟨s, snapshot_eq_ok_iff.1 hs, Except.ok.inj hm⟩

theorem committed_of_hasRecord {source : CopySource} {record : Record}
    (h : r.HasRecord source.revision source.path record) :
    r.committed source = some (record.node source.path source.revision) := by
  obtain ⟨s, hs, hrecord⟩ := h
  rw [committed, hs, Option.bind_some, hrecord]
  rfl

/-- The tree holds what the source names, up to its path, and that is of the given kind. -/
structure NodeTree.HeldSource (r : Repository) (t : NodeTree) (source : CopySource) (kind : NodeKind)
    (held : Node) : Prop where
  get? : t.copySources.get? source = some held
  committed : ∃ m, r.committed source = some m ∧ held = { m with path := held.path } ∧ m.kind = kind

theorem recorded_of_reads {l : Location} {o : Options} {v : View} {depth : Depth} {rel : Path} {n : Node}
    {source : CopySource} (hplain : o.noticeAncestry = false) (hv : r.view? l.origin = some v)
    (h : (r.walkAt l o).Reads v depth rel n) (hsource : n.copySource = some source) :
    ∃ w p node, r.working = some w ∧ w.get? p = some node ∧ node.copySource = some source ∧
      node.kind = n.kind := by
  have htracks : o.tracksCopies l.origin = true := by
    by_contra hnot
    rw [h.copySource_eq_none (Bool.eq_false_iff.2 hnot)] at hsource
    cases hsource
  have horigin : l.origin = .workingCopy := by
    simp only [Options.tracksCopies, hplain, Bool.false_or, Bool.and_eq_true, beq_iff_eq] at htracks
    exact htracks.2
  obtain ⟨m, inherited, hm, rfl⟩ := h.eq_placed
  rw [horigin] at hv htracks
  obtain ⟨w, hw, rfl⟩ := Option.map_eq_some_iff.1 hv
  simp only [TreeWalk.placed, TreeWalk.attached, walkAt, TreeWalk.candidateSource, horigin, htracks,
    if_true] at hsource
  obtain ⟨node, hnode, hown⟩ := Option.bind_eq_some_iff.1 (Option.filter_eq_some_iff.1 hsource).1
  refine ⟨w, l.path.join rel, node, hw, hnode, hown, ?_⟩
  rw [OrderedMap.get?_map] at hm
  obtain ⟨node', hnode', rfl⟩ := Option.map_eq_some_iff.1 hm
  obtain rfl : node = node' := Option.some.inj (hnode.symm.trans hnode')
  rfl

theorem resolveTree_heldSource (hr : r.Arises) {e : Endpoint} {o : Options} {t : NodeTree}
    (hplain : o.noticeAncestry = false) (h : resolveTree r.store e o = .ok t) :
    t.nodes.All fun _ n => ∀ source, n.copySource = some source → ∃ held, t.HeldSource r source n.kind held := by
  intro rel n hn source hsource
  obtain ⟨l, v, -, hv, -, hreads⟩ := resolveTree_eq_ok h
  obtain ⟨w, p, node, hw, hnode, hown, hkind⟩ :=
    recorded_of_reads hplain hv ((hreads rel n).1 hn) hsource
  obtain ⟨record, hrecord, hrecorded⟩ :=
    (hr.booksKept.working hw p node hnode).committedSource source hown
  obtain ⟨held, hheld⟩ :=
    OrderedMap.contains_iff.1 (resolveTree_holdsSources h rel n hn source hsource)
  obtain ⟨_, -, hsound⟩ := resolveTree_sound h
  obtain ⟨m, hm, heq⟩ := hsound.copySources source held hheld
  have hcommitted : r.committed source = some m := committed_eq_some_iff.2 hm
  refine ⟨held, hheld, m, hcommitted, heq, ?_⟩
  rw [committed_of_hasRecord hrecord] at hcommitted
  cases hcommitted
  exact hrecorded.trans hkind

end TreeDelta
