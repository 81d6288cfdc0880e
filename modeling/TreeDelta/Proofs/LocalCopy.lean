import TreeDelta.Proofs.HiddenProperties
import TreeDelta.Proofs.Locality
import TreeDelta.Proofs.SummaryListing
set_option autoImplicit false

/-!
# Clean local copies

A local copy names for each node the committed one that it comes from. Where the copied
nodes are as they are committed, a comparison of the copy with its base shows nothing on
any of its sides: it lists the copied nodes that a walk gets to, each as a copy, and its
patch is empty (`compareTrees_copy`).
-/
namespace TreeDelta

open Repository WorkingNode

theorem Path.mem_ancestors_child_iff {p dir : Path} {name : Name} :
    p ∈ (dir.child name).ancestors ↔ p ∈ dir.ancestors ∨ p = dir := by
  rw [← Path.isAtOrBelow_iff_mem_ancestors, Path.mem_ancestors_iff, Path.isAtOrBelow_child_iff]
  constructor
  · rintro ⟨hne, heq | hbelow⟩
    · exact absurd heq.symm hne
    · exact hbelow
  · refine fun hbelow => ⟨?_, .inr hbelow⟩
    rintro rfl
    rw [Path.isAtOrBelow_child_self] at hbelow
    cases hbelow

namespace TreeWalk

variable {w : TreeWalk} {v : View}

theorem placed_workingCopy (h : w.origin = .workingCopy) (node : Node) (rel : Path)
    (inherited : Option CopySource) : w.placed v node rel inherited = w.placed v node rel none := by
  simp only [placed, attached, candidateSource, h]

/-- A walk without a limit reads what lies below directories only. -/
theorem reads_workingCopy_iff (h : w.origin = .workingCopy) {rel : Path} {m : Node} :
    w.Reads v .infinity rel m ↔
      (∀ dir ∈ rel.ancestors, ∃ node, v.nodes.get? (w.base.join dir) = some node ∧
        node.isDirectory = true) ∧
      ∃ node, v.nodes.get? (w.base.join rel) = some node ∧ m = w.placed v node rel none := by
  induction rel using Path.childInduction generalizing m with
  | root =>
    constructor
    · intro hreads
      obtain ⟨node, inherited, hnode, rfl⟩ := hreads.eq_placed
      refine ⟨fun dir hdir => ?_, node, hnode, placed_workingCopy h node _ _⟩
      simp [Path.ancestors, Path.depth, Path.root] at hdir
    · rintro ⟨-, node, hnode, rfl⟩
      rw [Path.join_root] at hnode
      exact .root hnode
  | child dir name ih =>
    constructor
    · intro hreads
      obtain ⟨parent, node, hparent, hkind, -, hnode, -, rfl⟩ := hreads.of_child
      obtain ⟨habove, parent', hparent', rfl⟩ := ih.1 hparent
      refine ⟨fun above hmem => ?_, node, hnode, placed_workingCopy h node _ _⟩
      rcases Path.mem_ancestors_child_iff.1 hmem with hmem | rfl
      · exact habove above hmem
      · exact ⟨parent', hparent', hkind⟩
    · rintro ⟨habove, node, hnode, rfl⟩
      obtain ⟨parent, hparent, hkind⟩ := habove dir (Path.mem_ancestors_child_iff.2 (.inr rfl))
      have habove' := fun above hmem => habove above (Path.mem_ancestors_child_iff.2 (.inl hmem))
      have hreads : w.Reads v .infinity dir (w.placed v parent dir none) :=
        ih.2 ⟨habove', parent, hparent, rfl⟩
      have hchild := Reads.child hreads hkind (.inr rfl) hnode rfl
      rwa [placed_workingCopy h] at hchild

end TreeWalk

/-- Every node of the tree has a source that decides, and the node held for it shows the same. -/
def NodeTree.IsCleanCopy (o : Options) (t : NodeTree) : Prop :=
  t.nodes.All fun _ n => ∃ source held, decidingSource o t none n = some (source, held) ∧
    held.state = n.state

variable {o : Options} {old new : NodeTree}

theorem matchTrees_cleanCopy (hold : old.nodes = .empty) (hnew : new.IsCleanCopy o) {p : NodePair}
    (hp : p ∈ matchTrees o old new) : p.change = .copied ∧ p.left.state = p.right.state := by
  have hnone : ∀ path, old.nodes.get? path = none := fun path => by rw [hold, OrderedMap.get?_empty]
  have hmem : p.path ∈ old.nodes.unionKeys new.nodes := by
    rw [← matchTrees_paths]
    exact List.mem_map.2 ⟨p, hp, rfl⟩
  obtain ⟨u, hverdict⟩ := verdict_of_mem_matchTrees hp
  generalize p.path = path at hverdict hmem
  cases hverdict with
  | absent ha hb =>
    rcases OrderedMap.mem_unionKeys_iff.1 hmem with hcontains | hcontains
    · exact absurd hcontains (OrderedMap.get?_eq_none_iff.1 ha)
    · exact absurd hcontains (OrderedMap.get?_eq_none_iff.1 hb)
  | added b ha hb hs =>
    obtain ⟨source, held, hdecides, -⟩ := hnew path b hb
    rw [hs] at hdecides
    cases hdecides
  | copied b source node ha hb hs =>
    obtain ⟨source', held, hdecides, hstate⟩ := hnew path b hb
    rw [hs] at hdecides
    cases hdecides
    exact ⟨rfl, hstate⟩
  | deleted a ha _ => simp [hnone] at ha
  | replacedByCopy a _ _ _ ha _ _ _ => simp [hnone] at ha
  | copiedOnto a _ _ _ ha _ _ _ => simp [hnone] at ha
  | replaced a _ ha _ _ _ => simp [hnone] at ha
  | modified a _ ha _ _ _ _ => simp [hnone] at ha
  | unchanged a _ ha _ _ _ _ => simp [hnone] at ha

theorem changedPairs_cleanCopy (hold : old.nodes = .empty) (hnew : new.IsCleanCopy o) :
    changedPairs o old new = matchTrees o old new := by
  have hexpand : ∀ p ∈ matchTrees o old new, p.changes = [p] := fun p hp => by
    simp [NodePair.changes, NodePair.expand, (matchTrees_cleanCopy hold hnew hp).1]
  rw [changedPairs_eq_flatMap, List.flatMap_congr hexpand, List.flatMap_singleton']

theorem PropDiff.between_self (props : Props) : between props props = .empty := by
  refine congrArg PropDiff.mk (List.filterMap_eq_nil_iff.2 fun name _ => ?_)
  rw [ValueChange.between?_eq_none_iff.2 rfl, Option.map_none]

theorem Frame.told_same (f : Frame) {p : NodePair} (h : p.left.state = p.right.state) :
    (f.told p).content = none ∧ (f.told p).propsChanged = false := by
  obtain ⟨hkind, hcontent, hprops⟩ := Node.state_eq_iff.1 h
  have hstyle : p.left.eolStyle = p.right.eolStyle := by rw [Node.eolStyle, Node.eolStyle, hprops]
  have hpropsOf : f.propsOf p = .empty := by
    rw [propsOf, hprops, PropDiff.between_self, ite_self]
  constructor
  · rw [told, contentOf_eq_none hkind hcontent hstyle]
    rfl
  · rw [told, PairResult.propsChanged, hpropsOf]
    rfl

theorem Frame.told_cleanCopy (f : Frame) (hold : f.old.nodes = .empty)
    (hnew : f.new.IsCleanCopy f.options) :
    ((changedPairs f.options f.old f.new).map f.told).map (fun x => (x.path, x.change)) =
        (f.old.nodes.unionKeys f.new.nodes).map (fun path => (path, .copied)) ∧
      ∀ x ∈ (changedPairs f.options f.old f.new).map f.told,
        x.change = .copied ∧ x.content = none ∧ x.propsChanged = false := by
  rw [changedPairs_cleanCopy hold hnew, ← matchTrees_paths f.options, List.map_map, List.map_map]
  refine ⟨List.map_congr_left fun p hp => ?_, fun x hx => ?_⟩
  · exact congrArg (Prod.mk p.path) (matchTrees_cleanCopy hold hnew hp).1
  · obtain ⟨p, hp, rfl⟩ := List.mem_map.1 hx
    obtain ⟨hchange, hstate⟩ := matchTrees_cleanCopy hold hnew hp
    exact ⟨hchange, f.told_same hstate⟩

/-- Everything above `rel` below `p` is a directory, so that a walk from `p` gets to `rel`. -/
def WorkingTree.reaches (w : WorkingTree) (p rel : Path) : Bool :=
  rel.ancestors.all fun dir => (w.get? (p.join dir)).any fun node => node.kind == .directory

def WorkingNode.IsUnmodified (r : Repository) (node : WorkingNode) : Prop :=
  ∃ b record, node.base = some b ∧ r.HasRecord b node.reposPath record ∧
    node.content = record.content ∧ node.props = record.props

theorem WorkingNode.isUnmodified_iff {r : Repository} {node : WorkingNode} : node.IsUnmodified r ↔
    (node.base.any fun b => (r.snapshot? b).any fun s => (s.get? node.reposPath).any fun record =>
      node.content == record.content && node.props == record.props) = true := by
  simp only [IsUnmodified, HasRecord, Option.any_eq_true, Bool.and_eq_true, beq_iff_eq]
  constructor
  · rintro ⟨b, record, hb, ⟨s, hs, hget⟩, hsame⟩
    exact ⟨b, hb, s, hs, record, hget, hsame⟩
  · rintro ⟨b, hb, s, hs, record, hget, hsame⟩
    exact ⟨b, record, hb, ⟨s, hs, hget⟩, hsame⟩

instance (r : Repository) (node : WorkingNode) : Decidable (node.IsUnmodified r) :=
  decidable_of_iff' _ WorkingNode.isUnmodified_iff

def Endpoint.IsAbsent (s : Store) (e : Endpoint) : Prop :=
  ∃ l, e.locate s = .ok l ∧ s.node? l.path l.origin = .ok none

theorem Endpoint.IsAbsent.resolveTree_eq {s : Store} {e : Endpoint} (h : e.IsAbsent s) (o : Options) :
    ∃ l, resolveTree s e o = .ok (.absent l) := by
  obtain ⟨l, hl, hnode⟩ := h
  refine ⟨l, ?_⟩
  rw [resolveTree, hl]
  simp only [bind, Except.bind, hnode]
  rfl

variable {r r' : Repository} {w : WorkingTree} {p q : Path}

theorem hasRecord_unique {n : Nat} {record record' : Record} (h : r.HasRecord n p record)
    (h' : r.HasRecord n p record') : record = record' := by
  obtain ⟨s, hs, hget⟩ := h
  obtain ⟨s', hs', hget'⟩ := h'
  obtain rfl : s = s' := Option.some.inj (hs.symm.trans hs')
  exact Option.some.inj (hget.symm.trans hget')

theorem copyOf_source {node : WorkingNode} (hbooks : ∀ b, node.base = some b → node.AtBase r b)
    (hclean : node.IsUnmodified r) (reposPath : Path) (replaced : Bool) :
    ∃ source m, (copyOf node reposPath replaced).copySource = some source ∧
      r.committed source = some m ∧ m.state = node.state := by
  obtain ⟨b, record, hbase, hrecord, hcontent, hprops⟩ := hclean
  obtain ⟨⟨record', hrecord', hkind, -, -⟩, -, -⟩ := hbooks b hbase
  obtain rfl := hasRecord_unique hrecord hrecord'
  refine ⟨⟨node.reposPath, b⟩, _, by rw [copyOf, hbase], committed_of_hasRecord hrecord, ?_⟩
  rw [Node.state, WorkingNode.state, NodeState.mk.injEq]
  exact ⟨hkind, hcontent.symm, hprops.symm⟩

def WorkingTree.IsCopyOf (w' w : WorkingTree) (q p : Path) : Prop :=
  ∃ (reposPath : Path) (replaced : Bool), ∀ rel, w'.get? (q.join rel) =
    (w.get? (p.join rel)).map fun node => copyOf node (reposPath.join rel) (replaced && rel.isRoot)

theorem copy_isCopyOf (hr : r.Arises) {source target : String} (h : r.copy source target = .ok r')
    (hsource : readPath source = .ok p) (htarget : readPath target = .ok q) :
    ∃ w w', r.working = some w ∧ w.contains p = true ∧ r'.working = some w' ∧
      r'.committed = r.committed ∧ w'.IsCopyOf w q p := by
  obtain ⟨p', q', w, reposPath, replaced, hsource', htarget', hw, -, hp, hplace, rfl⟩ := copy_eq_ok h
  obtain rfl : p' = p := Except.ok.inj (hsource'.symm.trans hsource)
  obtain rfl : q' = q := Except.ok.inj (htarget'.symm.trans htarget)
  have hfree := (newLocation_eq_ok hw hplace).1
  refine ⟨w, _, hw, hp, rfl, rfl, reposPath, replaced, fun rel => ?_⟩
  exact get?_copied_below (hr.isConnected.working hw) hfree rel

theorem WorkingTree.reaches_iff {rel : Path} : w.reaches p rel = true ↔
    ∀ dir ∈ rel.ancestors, ∃ node, w.get? (p.join dir) = some node ∧ node.kind = .directory := by
  simp [reaches, Option.any_eq_true]

section Copy

variable {w' : WorkingTree} {o : Options} {t : NodeTree}

/-- The nodes of a resolved copy are the copied nodes that a walk gets to, as far as the depth admits
them. -/
theorem contains_copy_iff (hcopy : w'.IsCopyOf w q p) (hworking : r'.working = some w')
    (ht : resolveTree r'.store ⟨.workingCopy q, .working⟩ o = .ok t) (rel : Path) :
    t.nodes.contains rel = true ↔ ∃ node, w.get? (p.join rel) = some node ∧
      o.depth.admits rel node.kind = true ∧ w.reaches p rel = true := by
  obtain ⟨reposPath, replaced, hcopy⟩ := hcopy
  obtain ⟨t', ht', hreads⟩ := resolveTree_reads (o := o) (e := ⟨.workingCopy q, .working⟩)
    (l := ⟨.workingCopy, q⟩) rfl (congrArg (Option.map _) hworking)
  obtain rfl : t' = t := Except.ok.inj (ht'.symm.trans ht)
  have hkinds : ∀ {k : NodeKind} {rel},
      (∃ m, (w'.map fun p node => node.node p).get? (q.join rel) = some m ∧ m.kind = k) ↔
        ∃ node, w.get? (p.join rel) = some node ∧ node.kind = k := by
    intro k rel
    simp only [OrderedMap.get?_map, hcopy, Option.map_map, Option.map_eq_some_iff]
    constructor
    · rintro ⟨_, ⟨node, hnode, rfl⟩, hkind⟩
      exact ⟨node, hnode, hkind⟩
    · rintro ⟨node, hnode, hkind⟩
      exact ⟨_, ⟨node, hnode, rfl⟩, hkind⟩
  have hread := fun n => (hreads rel n).trans <| TreeWalk.reads_depth_iff.trans <|
    and_congr_left' (TreeWalk.reads_workingCopy_iff (w := r'.walkAt ⟨.workingCopy, q⟩ o) rfl)
  rw [OrderedMap.contains_iff, WorkingTree.reaches_iff]
  constructor
  · rintro ⟨n, hn⟩
    obtain ⟨⟨habove, m, hm, rfl⟩, hadmits⟩ := (hread n).1 hn
    obtain ⟨node, hnode, hkind⟩ := hkinds.1 ⟨m, hm, rfl⟩
    refine ⟨node, hnode, hkind ▸ hadmits, fun dir hdir => ?_⟩
    obtain ⟨m', hm', hdirectory⟩ := habove dir hdir
    exact hkinds.1 ⟨m', hm', by simpa [Node.isDirectory] using hdirectory⟩
  · rintro ⟨node, hnode, hadmits, habove⟩
    obtain ⟨m, hm, hkind⟩ := hkinds.2 ⟨node, hnode, rfl⟩
    refine ⟨_, (hread _).2 ⟨⟨fun dir hdir => ?_, m, hm, rfl⟩, ?_⟩⟩
    · obtain ⟨m', hm', hdirectory⟩ := hkinds.2 (habove dir hdir)
      exact ⟨m', hm', by simp [Node.isDirectory, hdirectory]⟩
    · rw [← hkind] at hadmits
      exact hadmits

theorem get?_copy (hcopy : w'.IsCopyOf w q p) (hworking : r'.working = some w')
    (htracks : o.tracksCopies .workingCopy = true)
    (ht : resolveTree r'.store ⟨.workingCopy q, .working⟩ o = .ok t) {rel : Path} {n : Node}
    (hn : t.nodes.get? rel = some n) :
    ∃ node reposPath replaced, w.get? (p.join rel) = some node ∧ n.state = node.state ∧
      n.copySource = (copyOf node reposPath replaced).copySource.filter fun source =>
        (r'.committed source).isSome := by
  obtain ⟨reposPath, replaced, hcopy⟩ := hcopy
  obtain ⟨t', ht', hreads⟩ := resolveTree_reads (o := o) (e := ⟨.workingCopy q, .working⟩)
    (l := ⟨.workingCopy, q⟩) rfl (congrArg (Option.map _) hworking)
  obtain rfl : t' = t := Except.ok.inj (ht'.symm.trans ht)
  obtain ⟨m, inherited, hm, rfl⟩ := ((hreads rel n).1 hn).eq_placed
  simp only [walkAt, OrderedMap.get?_map, hcopy, Option.map_map] at hm
  obtain ⟨node, hnode, rfl⟩ := Option.map_eq_some_iff.1 hm
  refine ⟨node, reposPath.join rel, replaced && rel.isRoot, hnode, rfl, ?_⟩
  simp only [TreeWalk.placed, TreeWalk.attached, walkAt, htracks, if_true, TreeWalk.candidateSource,
    hcopy, hnode, Option.map_some, Option.bind_some]

theorem isCleanCopy_copy (hcopy : w'.IsCopyOf w q p) (hworking : r'.working = some w')
    (hcommitted : r'.committed = r.committed) (hbooks : w.All (Accounted r w))
    (hclean : ∀ rel node, w.get? (p.join rel) = some node → node.IsUnmodified r)
    (hadds : o.showCopiesAsAdds = false)
    (ht : resolveTree r'.store ⟨.workingCopy q, .working⟩ o = .ok t) : t.IsCleanCopy o := by
  have htracks : o.tracksCopies .workingCopy = true := by simp [Options.tracksCopies, hadds]
  intro rel n hn
  obtain ⟨node, reposPath, replaced, hnode, hstate, hattached⟩ := get?_copy hcopy hworking htracks ht hn
  obtain ⟨source, m, hsource, hm, hmstate⟩ :=
    copyOf_source (fun b => (hbooks _ node hnode).atBase) (hclean rel node hnode) reposPath replaced
  rw [← hcommitted] at hm
  have hown : n.copySource = some source := by
    rw [hattached, hsource, Option.filter_some, hm]
    rfl
  obtain ⟨held, hheld⟩ := OrderedMap.contains_iff.1 (resolveTree_holdsSources ht rel n hn source hown)
  obtain ⟨_, -, hsound⟩ := resolveTree_sound ht
  obtain ⟨m', hm', heq⟩ := hsound.copySources source held hheld
  obtain rfl : m' = m := Option.some.inj ((committed_eq_some_iff.2 hm').symm.trans hm)
  refine ⟨source, held, ?_, ?_⟩
  · have horigin : t.origin = .workingCopy :=
      (resolveTree_location (l := ⟨.workingCopy, q⟩) rfl ht).1
    rw [decidingSource_eq hown hheld, sourceDecides, horigin, htracks]
    rfl
  · rw [hstate, ← hmstate, heq]
    rfl

end Copy

theorem subtree_ascending {ν : Type} (tree : OrderedMap Path ν) (p : Path) :
    (subtree tree p).Pairwise fun e e' => compare e.1 e'.1 = .lt := by
  refine List.pairwise_filterMap.2 (tree.ascending.imp fun {e e'} hlt x hx x' hx' => ?_)
  obtain ⟨rel, hrel, rfl⟩ := Option.map_eq_some_iff.1 hx
  obtain ⟨rel', hrel', rfl⟩ := Option.map_eq_some_iff.1 hx'
  rw [Path.below?_eq_some_iff.1 hrel, Path.below?_eq_some_iff.1 hrel', Path.compare_join] at hlt
  exact hlt

theorem paths_copy {old new : NodeTree} {d : Depth} (hold : old.nodes = .empty)
    (hnew : ∀ rel, new.nodes.contains rel = true ↔ ∃ node, w.get? (p.join rel) = some node ∧
      d.admits rel node.kind = true ∧ w.reaches p rel = true) :
    old.nodes.unionKeys new.nodes =
      (((subtree w p).filter fun e => d.admits e.1 e.2.kind).filter fun e => w.reaches p e.1).map
        Prod.fst := by
  refine OrderedMap.eq_of_ascending (OrderedMap.unionKeys_ascending _ _)
    (List.pairwise_map.2 (((subtree_ascending w p).filter _).filter _)) fun rel => ?_
  have hnone : ¬ old.nodes.contains rel = true :=
    OrderedMap.get?_eq_none_iff.1 (by rw [hold, OrderedMap.get?_empty])
  rw [OrderedMap.mem_unionKeys_iff, or_iff_right hnone, hnew]
  constructor
  · rintro ⟨node, hnode, hadmits, hreaches⟩
    refine List.mem_map.2 ⟨(rel, node), ?_, rfl⟩
    exact List.mem_filter.2 ⟨List.mem_filter.2 ⟨mem_subtree_iff.2 hnode, hadmits⟩, hreaches⟩
  · intro hmem
    obtain ⟨⟨rel', node⟩, he, rfl⟩ := List.mem_map.1 hmem
    obtain ⟨he, hreaches⟩ := List.mem_filter.1 he
    obtain ⟨he, hadmits⟩ := List.mem_filter.1 he
    exact ⟨node, mem_subtree_iff.1 he, hadmits, hreaches⟩

theorem Patch.write_eq_nil {s : Store} {spec : ComparisonSpec} {results : List PairResult}
    (hvalid : spec.options.validate = .ok ()) (hsummary : spec.options.summarizeOnly = false)
    (hgit : spec.options.gitStyle = false) (hresults : compareTrees s spec = .ok results)
    (hrender : ∀ x ∈ results, (Unified.ofOptions spec.options).render x = []) :
    write s [spec] = ⟨[], .ok ()⟩ := by
  have hform : Form.ofOptions spec.options = .unified (.ofOptions spec.options) := by
    simp [Form.ofOptions, hsummary, hgit]
  have hentries : Form.entries (.unified (.ofOptions spec.options)) results = [] :=
    List.flatMap_eq_nil_iff.2 hrender
  have hvalidated : ([spec].forM fun spec => spec.options.validate) = .ok () := by
    change (spec.options.validate >>= fun _ => pure ()) = _
    rw [hvalid]
    rfl
  simp only [write, hvalidated, writeAll, hresults, hform, hentries]
  rfl

theorem map_filter_eq_map_iff {α β : Type} {f : α → β} {keeps : α → Bool} {xs : List α} :
    (xs.filter keeps).map f = xs.map f ↔ ∀ x ∈ xs, keeps x = true := by
  constructor
  · intro heq
    have hlength := congrArg List.length heq
    rw [List.length_map, List.length_map] at hlength
    exact List.length_filter_eq_length_iff.1 hlength
  · exact fun hall => congrArg (List.map f) (List.filter_eq_self.2 hall)

theorem copy_arises (hr : r.Arises) {source target : String} (h : r.copy source target = .ok r') :
    r'.Arises := by
  have hrun : ((Operation.edit (.copy source target)).run r).1.Arises :=
    hr.operation fun d hd => by cases hd
  rwa [Operation.run, edit, h] at hrun

theorem resolvePair_copy (hr : r.Arises) {source target : String} (h : r.copy source target = .ok r')
    (hsource : readPath source = .ok p) (htarget : readPath target = .ok q) (hw : r.working = some w)
    (hclean : ∀ rel node, w.get? (p.join rel) = some node → node.IsUnmodified r)
    (habsent : Endpoint.IsAbsent r'.store ⟨.workingCopy q, .base⟩) {o : Options}
    (hadds : o.showCopiesAsAdds = false) :
    ∃ l t, resolvePair r'.store ⟨.workingCopy q, .base⟩ ⟨.workingCopy q, .working⟩ o =
        .ok (.absent l, t) ∧ t.IsCleanCopy o ∧
      ∀ rel, t.nodes.contains rel = true ↔ ∃ node, w.get? (p.join rel) = some node ∧
        o.depth.admits rel node.kind = true ∧ w.reaches p rel = true := by
  obtain ⟨w₀, w', hw₀, hp, hworking, hcommitted, hcopy⟩ := copy_isCopyOf hr h hsource htarget
  obtain rfl : w₀ = w := Option.some.inj (hw₀.symm.trans hw)
  obtain ⟨l, hold⟩ := habsent.resolveTree_eq o
  obtain ⟨t, ht, -⟩ := resolveTree_reads (o := o) (e := ⟨.workingCopy q, .working⟩)
    (l := ⟨.workingCopy, q⟩) rfl (congrArg (Option.map _) hworking)
  have hmem := contains_copy_iff hcopy hworking ht
  have hpresent : t.isAbsent = false := by
    obtain ⟨node, hnode⟩ := OrderedMap.contains_iff.1 hp
    obtain ⟨n, hn⟩ := OrderedMap.contains_iff.1 <|
      (hmem .root).2 ⟨node, by rwa [Path.join_root], Depth.admits_root _ _, rfl⟩
    exact NodeTree.isAbsent_eq_false hn
  refine ⟨l, t, resolvePair_eq_ok_iff.2 ⟨hold, ht, by rw [hpresent, Bool.and_false]⟩, ?_, hmem⟩
  exact isCleanCopy_copy hcopy hworking hcommitted (hr.booksKept.working hw) hclean hadds ht

/-- A clean local copy prints nothing. The comparison lists the copied nodes that its walk gets to,
each as a copy; these are all within the depth unless one of them lies below a file. -/
theorem compareTrees_copy (hr : r.Arises) {source target : String} (h : r.copy source target = .ok r')
    (hsource : readPath source = .ok p) (htarget : readPath target = .ok q) (hw : r.working = some w)
    (hclean : ∀ rel node, w.get? (p.join rel) = some node → node.IsUnmodified r)
    (habsent : Endpoint.IsAbsent r'.store ⟨.workingCopy q, .base⟩) {o : Options}
    (hvalid : o.validate = .ok ()) (hadds : o.showCopiesAsAdds = false)
    (hsummary : o.summarizeOnly = false) (hgit : o.gitStyle = false) (root : Option String) :
    let spec : ComparisonSpec := ⟨⟨.workingCopy q, .base⟩, ⟨.workingCopy q, .working⟩, root, o⟩
    let copied := (subtree w p).filter fun e => o.depth.admits e.1 e.2.kind
    Patch.write r'.store [spec] = ⟨[], .ok ()⟩ ∧
      ∃ results, compareTrees r'.store spec = .ok results ∧
        results.map (fun x => (x.path, x.change)) =
          (copied.filter fun e => w.reaches p e.1).map (fun e => (e.1, .copied)) ∧
        (results.map (fun x => (x.path, x.change)) = copied.map (fun e => (e.1, .copied)) ↔
          ∀ e ∈ copied, w.reaches p e.1 = true) := by
  intro spec copied
  obtain ⟨l, t, hresolve, hclean', hmem⟩ :=
    resolvePair_copy hr h hsource htarget hw hclean habsent hadds
  have hresults : compareTrees r'.store spec = .ok _ :=
    (compareTrees_eq_ok_iff (copy_arises hr h).reachable.contentsHeld).2
      ⟨hvalid, .absent l, t, hresolve, rfl⟩
  obtain ⟨hpaths, htold⟩ := (spec.frame r'.store (.absent l) t).told_cleanCopy rfl hclean'
  have hempty : (NodeTree.absent l).nodes = .empty := rfl
  have hlisted := hpaths.trans (congrArg (List.map _) (paths_copy hempty hmem))
  rw [List.map_map (f := Prod.fst)] at hlisted
  refine ⟨Patch.write_eq_nil hvalid hsummary hgit hresults fun x hx => ?_, _, hresults, hlisted, ?_⟩
  · obtain ⟨hchange, hcontent, hprops⟩ := htold x hx
    exact Patch.Unified.render_eq_nil _ (.inr hchange) hcontent hprops
  · exact (iff_of_eq (congrArg (· = _) hlisted)).trans map_filter_eq_map_iff

namespace CleanCopy

def draft : Draft :=
  Draft.empty.applyAll [.file "d/a" [120], .directory "d/e", .directory "f", .setProp "f" "p" "1"]

def operations : List Operation := [.commit draft, .checkout 1, .edit (.switch "d/e" "f" 1)]

def repository : Repository := Repository.empty.runAll operations

theorem repository_arises : repository.Arises := by
  refine Repository.Arises.empty.runAll fun d hd => ?_
  obtain rfl : d = draft := by simpa [operations] using hd
  exact .new _

def copied : Repository := ((Operation.edit (.copy "d" "g")).run repository).1

theorem copy_eq : repository.copy "d" "g" = .ok copied := rfl

def source : Path := Path.root.child ⟨"d", Eq.refl true⟩

def target : Path := Path.root.child ⟨"g", Eq.refl true⟩

theorem source_unmodified : ∃ w, repository.working = some w ∧
    ∀ e ∈ subtree w source, e.2.IsUnmodified repository :=
  ⟨_, rfl, by decide +kernel⟩

theorem base_isAbsent : Endpoint.IsAbsent copied.store ⟨.workingCopy target, .base⟩ :=
  ⟨⟨.revision 1, target⟩, rfl, rfl⟩

def options : Options := { Options.default with depth := .immediates, noticeAncestry := true }

def spec : ComparisonSpec :=
  ⟨⟨.workingCopy target, .base⟩, ⟨.workingCopy target, .working⟩, none, options⟩

theorem listed : ∃ w, repository.working = some w ∧ ((((subtree w source).filter fun e =>
    options.depth.admits e.1 e.2.kind).filter fun e => w.reaches source e.1).map fun e =>
      (e.1.text, ChangeKind.copied)) = [("", .copied), ("a", .copied), ("e", .copied)] :=
  ⟨_, rfl, rfl⟩

end CleanCopy

open CleanCopy in
theorem compareTrees_copy_switched :
    repository.Arises ∧ repository.copy "d" "g" = .ok copied ∧
      (∃ w, repository.working = some w ∧ ∀ rel node, w.get? (source.join rel) = some node →
        node.IsUnmodified repository) ∧
      Endpoint.IsAbsent copied.store ⟨.workingCopy target, .base⟩ ∧ options.validate = .ok () ∧
      Patch.write copied.store [spec] = ⟨[], .ok ()⟩ ∧
      ∃ results, compareTrees copied.store spec = .ok results ∧
        results.map (fun x => (x.path.text, x.change)) =
          [("", .copied), ("a", .copied), ("e", .copied)] := by
  obtain ⟨w, hw, hclean⟩ := source_unmodified
  obtain ⟨w', hw', hlisted⟩ := listed
  obtain rfl : w' = w := Option.some.inj (hw'.symm.trans hw)
  have hclean' : ∀ rel node, w'.get? (source.join rel) = some node → node.IsUnmodified repository :=
    fun rel node hnode => hclean (rel, node) (mem_subtree_iff.2 hnode)
  obtain ⟨hwrite, results, hresults, hmap, -⟩ := compareTrees_copy repository_arises copy_eq
    (p := source) (q := target) rfl rfl hw hclean' base_isAbsent
    (o := options) rfl rfl rfl rfl none
  refine ⟨repository_arises, copy_eq, ⟨w', hw, hclean'⟩, base_isAbsent, rfl, hwrite, results, hresults,
    ?_⟩
  have htexts := congrArg (List.map fun e : Path × ChangeKind => (e.1.text, e.2)) hmap
  rw [List.map_map, List.map_map] at htexts
  exact htexts.trans hlisted

namespace BelowFile

def draft : Draft := Draft.empty.applyAll [.file "d/a/b" [121], .file "d/a" [120]]

def operations : List Operation := [.commit draft, .checkout 1]

def repository : Repository := Repository.empty.runAll operations

theorem repository_arises : repository.Arises := by
  refine Repository.Arises.empty.runAll fun d hd => ?_
  obtain rfl : d = draft := by simpa [operations] using hd
  exact .new _

def copied : Repository := ((Operation.edit (.copy "d" "e")).run repository).1

theorem copy_eq : repository.copy "d" "e" = .ok copied := rfl

def source : Path := Path.root.child ⟨"d", Eq.refl true⟩

def target : Path := Path.root.child ⟨"e", Eq.refl true⟩

theorem base_isAbsent : Endpoint.IsAbsent copied.store ⟨.workingCopy target, .base⟩ :=
  ⟨⟨.revision 1, target⟩, rfl, rfl⟩

def spec : ComparisonSpec :=
  ⟨⟨.workingCopy target, .base⟩, ⟨.workingCopy target, .working⟩, none, .default⟩

def count (x : Except DiffError (List PairResult)) : Option Nat := x.toOption.map List.length

theorem listed : ∃ w, repository.working = some w ∧
    (∀ e ∈ subtree w source, e.2.IsUnmodified repository) ∧ (subtree w source).length = 3 ∧
    count (compareTrees copied.store spec) = some 2 :=
  ⟨_, rfl, by decide +kernel, rfl, by decide +kernel⟩

end BelowFile

open BelowFile in
theorem compareTrees_copy_ne_copied :
    ¬ ∀ (r r' : Repository) (source target : String) (p q : Path) (w : WorkingTree), r.Arises →
      r.copy source target = .ok r' → readPath source = .ok p → readPath target = .ok q →
      r.working = some w → (∀ rel node, w.get? (p.join rel) = some node → node.IsUnmodified r) →
      Endpoint.IsAbsent r'.store ⟨.workingCopy q, .base⟩ →
      ∃ results, compareTrees r'.store
          ⟨⟨.workingCopy q, .base⟩, ⟨.workingCopy q, .working⟩, none, .default⟩ = .ok results ∧
        results.map (fun x => (x.path, x.change)) = (subtree w p).map fun e => (e.1, .copied) := by
  intro hcopied
  obtain ⟨w, hw, hclean, hlength, hcount⟩ := listed
  obtain ⟨results, hresults, hmap⟩ := hcopied repository copied "d" "e" source target w repository_arises
    copy_eq rfl rfl hw
    (fun rel node hnode => hclean (rel, node) (mem_subtree_iff.2 hnode)) base_isAbsent
  have hresults' : compareTrees copied.store spec = .ok results := hresults
  rw [hresults'] at hcount
  have hlengths := congrArg List.length hmap
  rw [List.length_map, List.length_map, hlength, Option.some.inj hcount] at hlengths
  cases hlengths

end TreeDelta
