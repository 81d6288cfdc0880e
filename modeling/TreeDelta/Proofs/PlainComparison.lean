import TreeDelta.Proofs.CleanCopy
import TreeDelta.Proofs.PlainAddition
set_option autoImplicit false

namespace TreeDelta

open Repository

def ComparisonSpec.frame (spec : ComparisonSpec) (s : Store) (old new : NodeTree) : Frame :=
  ⟨s, spec.options, old, new,
    spec.rootText (if new.rootKind = .nonexistent then old.rootKind else new.rootKind)⟩

/-- What is told of a pair. A content that cannot be read is left out. -/
def Frame.told (f : Frame) (pair : NodePair) : PairResult where
  path := pair.path
  displayPath := displayPath f.root pair.path
  change := pair.change
  nodeKind := pair.nodeKind
  oldLabel := pair.left.label
  newLabel := pair.right.label
  oldLocation := f.location? f.old pair.path
  newLocation := f.location? f.new pair.path
  oldReposPath := pair.left.reposPath.filter fun _ => pair.left.isPresent
  newReposPath := pair.right.reposPath.filter fun _ => pair.right.isPresent
  copiedFrom := pair.copiedFrom.map Prod.fst
  oldExecutable := pair.left.isExecutable
  newExecutable := pair.right.isExecutable
  textChanged := textDiffers pair.nodeKind pair.left pair.right
  content := (f.contentOf pair).toOption.join
  props := f.propsOf pair

variable {r : Repository} {f g : Frame} {o : Options} {old new : NodeTree} {p q : NodePair}

theorem Frame.result_told (hstore : f.store = r.store) (hp : p.SidesHeld r.blobs) :
    f.result p = .ok (f.told p) := by
  obtain ⟨result, hresult, -⟩ := Frame.result_eq_ok hstore hp
  obtain ⟨content, hcontent, htold⟩ := bind_eq_ok_iff.1 hresult
  cases htold
  rw [hresult, told, hcontent]
  rfl

theorem compareTrees_eq_told (hr : ContentsHeld r) (spec : ComparisonSpec) :
    compareTrees r.store spec = do
      spec.options.validate
      let (old, new) ← resolvePair r.store spec.old spec.new spec.options
      return (changedPairs spec.options old new).map (spec.frame r.store old new).told := by
  rw [compareTrees]
  cases hvalid : spec.options.validate with
  | error e => rfl
  | ok _ =>
    cases hresolve : resolvePair r.store spec.old spec.new spec.options with
    | error e => rfl
    | ok trees =>
      obtain ⟨hold, hnew⟩ := resolvePair_eq_ok hresolve
      obtain ⟨results, hresults, htold⟩ : ∃ results,
          (changedPairs spec.options trees.1 trees.2).mapM (spec.frame r.store trees.1 trees.2).result =
              .ok results ∧
            results.map id = (changedPairs spec.options trees.1 trees.2).map
              (spec.frame r.store trees.1 trees.2).told :=
        mapM_eq_ok _ fun q hq => ⟨_, Frame.result_told rfl <| changedPairs_sidesHeld
          (resolveTree_contentsHeld hr hold) (resolveTree_contentsHeld hr hnew) hq, rfl⟩
      rw [List.map_id] at htold
      exact hresults.trans (congrArg Except.ok htold)

theorem resolveTree_location {s : Store} {e : Endpoint} {l : Location} {t : NodeTree}
    (hl : e.locate s = .ok l) (h : resolveTree s e o = .ok t) :
    t.origin = l.origin ∧ t.location = l.path := by
  obtain ⟨l', hl', hsound⟩ := resolveTree_sound h
  obtain rfl : l' = l := Except.ok.inj (hl'.symm.trans hl)
  exact ⟨hsound.origin, hsound.location⟩

theorem resolveTree_isAbsent {e : Endpoint} {l : Location} {v : View} {t : NodeTree}
    (hl : e.locate r.store = .ok l) (hv : r.view? l.origin = some v)
    (h : resolveTree r.store e o = .ok t) : t.isAbsent = !v.nodes.contains l.path := by
  obtain ⟨t', ht', hreads⟩ := resolveTree_reads (o := o) hl hv
  obtain rfl : t' = t := Except.ok.inj (ht'.symm.trans h)
  cases hroot : v.nodes.get? l.path with
  | some node =>
    rw [OrderedMap.contains, hroot]
    exact NodeTree.isAbsent_eq_false ((hreads .root _).2 (.root hroot))
  | none =>
    rw [OrderedMap.contains, hroot]
    refine List.isEmpty_iff.2 (List.eq_nil_iff_forall_not_mem.2 fun e he => ?_)
    obtain ⟨rel, n⟩ := e
    have hread := (hreads rel n).1 (OrderedMap.get?_eq_some_iff.2 he)
    rw [← Path.root_join rel] at hread
    obtain ⟨_, habove⟩ := hread.above
    obtain ⟨node, _, hnode, -⟩ := habove.eq_placed
    rw [Path.join_root] at hnode
    exact absurd (hroot.symm.trans hnode) (Option.some_ne_none node).symm

theorem resolvePair_eq_ok_iff {s : Store} {e e' : Endpoint} {t t' : NodeTree} :
    resolvePair s e e' o = .ok (t, t') ↔ resolveTree s e o = .ok t ∧ resolveTree s e' o = .ok t' ∧
      (t.isAbsent && t'.isAbsent) = false := by
  constructor
  · intro h
    obtain ⟨ht, ht'⟩ := resolvePair_eq_ok h
    refine ⟨ht, ht', Bool.eq_false_iff.2 fun habsent => ?_⟩
    simp [resolvePair, ht, ht', habsent, bind, Except.bind] at h
  · rintro ⟨ht, ht', hpresent⟩
    simp [resolvePair, ht, ht', hpresent, bind, Except.bind, pure, Except.pure]

theorem compareTrees_eq_ok_iff (hr : ContentsHeld r) {spec : ComparisonSpec} {results : List PairResult} :
    compareTrees r.store spec = .ok results ↔ spec.options.validate = .ok () ∧
      ∃ old new, resolvePair r.store spec.old spec.new spec.options = .ok (old, new) ∧
        results = (changedPairs spec.options old new).map (spec.frame r.store old new).told := by
  rw [compareTrees_eq_told hr, bind_eq_ok_iff]
  constructor
  · rintro ⟨_, hvalid, h⟩
    obtain ⟨⟨old, new⟩, hresolve, h⟩ := bind_eq_ok_iff.1 h
    cases h
    exact ⟨hvalid, old, new, hresolve, rfl⟩
  · rintro ⟨hvalid, old, new, hresolve, rfl⟩
    exact ⟨(), hvalid, bind_eq_ok_iff.2 ⟨(old, new), hresolve, rfl⟩⟩

theorem diffContent_congr {s s' : Store} (hstore : s'.content? = s.content?) {a b a' b' : Node}
    (ha : a'.state = a.state) (hb : b'.state = b.state) (o : Options) (depth : Depth) :
    diffContent s' a' b' { o with depth := depth } = diffContent s a b o := by
  obtain ⟨_, kind, content, props, _⟩ := a
  obtain ⟨_, kind', content', props', _⟩ := b
  obtain ⟨_, _, _, _, _⟩ := a'
  obtain ⟨_, _, _, _, _⟩ := b'
  obtain ⟨rfl, rfl, rfl⟩ := Node.state_eq_iff.1 ha
  obtain ⟨rfl, rfl, rfl⟩ := Node.state_eq_iff.1 hb
  simp only [diffContent, shownBytes, hstore]
  rfl

/-- Pairs of nodes with the same states are told alike, except for the places of their nodes. The
depth does not matter once the nodes have been read. -/
theorem Frame.told_congr (hstore : g.store.content? = f.store.content?)
    (hoptions : g.options = { f.options with depth := g.options.depth }) (hchange : q.change = p.change)
    (hleft : q.left.state = p.left.state) (hright : q.right.state = p.right.state)
    (hcopied : q.copiedFrom.map Prod.fst = p.copiedFrom.map Prod.fst) :
    g.told q = { f.told p with
      path := q.path
      displayPath := displayPath g.root q.path
      oldLabel := q.left.label
      newLabel := q.right.label
      oldLocation := g.location? g.old q.path
      newLocation := g.location? g.new q.path
      oldReposPath := q.left.reposPath.filter fun _ => q.left.isPresent
      newReposPath := q.right.reposPath.filter fun _ => q.right.isPresent } := by
  obtain ⟨hlkind, hlcontent, hlprops⟩ := Node.state_eq_iff.1 hleft
  obtain ⟨hrkind, hrcontent, hrprops⟩ := Node.state_eq_iff.1 hright
  have hkind : q.nodeKind = p.nodeKind := by
    rw [NodePair.nodeKind, NodePair.nodeKind, Node.isPresent, Node.isPresent, hlkind, hrkind]
  have hcontent : g.contentOf q = f.contentOf p := by
    rw [contentOf, contentOf, hkind, hchange, hoptions, diffContent_congr hstore hleft hright]
    rfl
  have htext : textDiffers p.nodeKind q.left q.right = textDiffers p.nodeKind p.left p.right := by
    simp only [textDiffers, Node.eolStyle, hlkind, hlcontent, hlprops, hrkind, hrcontent, hrprops]
  have hpropsOf : g.propsOf q = f.propsOf p := by
    rw [propsOf, propsOf, hoptions, hlprops, hrprops]
  simp only [told, hchange, hkind, hcontent, htext, hpropsOf, hcopied, Node.isExecutable, hlprops,
    hrprops]

theorem Frame.location?_eq_none (h : f.tellsLocations = false) (t : NodeTree) (path : Path) :
    f.location? t path = none := by
  rw [location?, h]
  rfl

/-- The pairs that a path becomes once a replacement is split, as far as what lies above it does not
matter. -/
def changesAt (o : Options) (old new : NodeTree) (path : Path) : List NodePair :=
  ([classify o old new false path].filter fun p => p.change != .unchanged).flatMap NodePair.expand

theorem classify_plain (h : o.noticeAncestry = false) (u : Bool) (path : Path) :
    classify o old new u path = classify o old new false path := by
  simp only [classify, h, Bool.false_and]

theorem matchTrees_plain (h : o.noticeAncestry = false) :
    matchTrees o old new = (old.nodes.unionKeys new.nodes).map (classify o old new false) := by
  have hall : ∀ replaced paths,
      classifyAll o old new replaced paths = paths.map (classify o old new false) := by
    intro replaced paths
    induction paths generalizing replaced with
    | nil => rfl
    | cons path paths ih => rw [classifyAll, ih, classify_plain h, List.map_cons]
  exact hall [] _

theorem changedPairs_plain (h : o.noticeAncestry = false) :
    changedPairs o old new = (old.nodes.unionKeys new.nodes).flatMap (changesAt o old new) := by
  rw [changedPairs, matchTrees_plain h]
  induction old.nodes.unionKeys new.nodes with
  | nil => rfl
  | cons path paths ih =>
    rw [List.flatMap_cons, ← ih, changesAt, List.map_cons, ← List.flatMap_append, ← List.filter_append]
    rfl

def plainChanges (origin origin' : Origin) (path : Path) : Option Node → Option Node → List NodePair
  | none, none => []
  | some a, none => [⟨path, .deleted, a, .nonexistent path origin', none⟩]
  | none, some b => [⟨path, .added, .nonexistent path origin, b, none⟩]
  | some a, some b =>
    if a.kind ≠ b.kind then
      [⟨path, .deleted, a, .nonexistent path b.origin, none⟩,
        ⟨path, .added, .nonexistent path a.origin, b, none⟩]
    else if a.differs b then [⟨path, .modified, a, b, none⟩] else []

def NodePair.OneKind (p : NodePair) : Prop :=
  p.left.kind = .nonexistent ∨ p.right.kind = .nonexistent ∨ p.left.kind = p.right.kind

theorem plainChanges_sides {origin origin' : Origin} {path : Path} {a b : Option Node} :
    ∀ p ∈ plainChanges origin origin' path a b, p.path = path ∧ p.OneKind := by
  cases a with
  | none =>
    cases b with
    | none => simp [plainChanges]
    | some b => exact List.forall_mem_singleton.2 ⟨rfl, .inl rfl⟩
  | some a =>
    cases b with
    | none => exact List.forall_mem_singleton.2 ⟨rfl, .inr (.inl rfl)⟩
    | some b =>
      rw [plainChanges]
      split
      · exact List.forall_mem_cons.2
          ⟨⟨rfl, .inr (.inl rfl)⟩, List.forall_mem_singleton.2 ⟨rfl, .inl rfl⟩⟩
      · rename_i hkind
        split
        · exact List.forall_mem_singleton.2 ⟨rfl, .inr (.inr (not_not.1 hkind))⟩
        · simp

theorem changesAt_plain (h : o.noticeAncestry = false) {path : Path}
    (hplain : ∀ b, new.nodes.get? path = some b → b.copySource = none) :
    changesAt o old new path =
      plainChanges old.origin new.origin path (old.nodes.get? path) (new.nodes.get? path) := by
  have hsource : ∀ a b, new.nodes.get? path = some b → decidingSource o new a b = none := by
    intro a b hb
    rw [decidingSource, hplain b hb]
    rfl
  rw [changesAt]
  have hverdict := classify_verdict o old new false path
  generalize classify o old new false path = pair at hverdict
  cases hverdict with
  | absent ha hb => rw [ha, hb]; rfl
  | deleted a ha hb => rw [ha, hb]; rfl
  | added b ha hb _ => rw [ha, hb]; rfl
  | copied b source node _ hb hs => simp [hsource _ b hb] at hs
  | replacedByCopy a b source node _ hb hs => simp [hsource _ b hb] at hs
  | copiedOnto a b source node _ hb hs => simp [hsource _ b hb] at hs
  | replaced a b ha hb _ hr =>
    have hkind : a.kind ≠ b.kind := by simpa [Node.isReplacedBy, h] using hr
    rw [ha, hb, plainChanges, if_pos hkind]
    rfl
  | modified a b ha hb _ hr hd =>
    have hkind : a.kind = b.kind := by simpa [Node.isReplacedBy, h] using hr
    rw [ha, hb, plainChanges, if_neg (not_not.2 hkind), if_pos hd]
    rfl
  | unchanged a b ha hb _ hr hd =>
    have hkind : a.kind = b.kind := by simpa [Node.isReplacedBy, h] using hr
    rw [ha, hb, plainChanges, if_neg (not_not.2 hkind), hd]
    rfl

def NodeTree.IsPlain (t : NodeTree) : Prop := t.nodes.All fun _ n => n.copySource = none

theorem resolveTree_isPlain {e : Endpoint} {t : NodeTree} (h : resolveTree r.store e o = .ok t)
    (htracks : o.tracksCopies t.origin = false) : t.IsPlain := by
  obtain ⟨l, v, -, -, horigin, hreads⟩ := resolveTree_eq_ok h
  intro rel n hn
  rw [horigin] at htracks
  exact ((hreads rel n).1 hn).copySource_eq_none htracks

theorem changedPairs_isPlain (h : o.noticeAncestry = false) (hnew : new.IsPlain) :
    changedPairs o old new = (old.nodes.unionKeys new.nodes).flatMap fun path =>
      plainChanges old.origin new.origin path (old.nodes.get? path) (new.nodes.get? path) := by
  rw [changedPairs_plain h]
  exact congrArg (List.flatMap · _) (funext fun path => changesAt_plain h (hnew path))

theorem plainChanges_map_eq {γ : Type} {F G : NodePair → γ} {R : Node → Node → Prop} {path path' : Path}
    {origin₁ origin₁' origin₂ origin₂' : Origin} {a a' b b' : Option Node}
    (hstate : ∀ x x', R x x' → x'.state = x.state)
    (hnone : ∀ origin origin', R (.nonexistent path origin) (.nonexistent path' origin'))
    (hsame : ∀ change x x' y y', R x x' → R y y' →
      F ⟨path, change, x, y, none⟩ = G ⟨path', change, x', y', none⟩)
    (ha : Option.Rel R a a') (hb : Option.Rel R b b') :
    (plainChanges origin₁ origin₂ path a b).map F = (plainChanges origin₁' origin₂' path' a' b').map G := by
  cases ha with
  | none =>
    cases hb with
    | none => rfl
    | some hy => exact congrArg (fun x => [x]) (hsame _ _ _ _ _ (hnone _ _) hy)
  | @some x x' hx =>
    cases hb with
    | none => exact congrArg (fun x => [x]) (hsame _ _ _ _ _ hx (hnone _ _))
    | @some y y' hy =>
      obtain ⟨hkind, hcontent, hprops⟩ := Node.state_eq_iff.1 (hstate x x' hx)
      obtain ⟨hkind', hcontent', hprops'⟩ := Node.state_eq_iff.1 (hstate y y' hy)
      have hdiffers : x'.differs y' = x.differs y := by
        rw [Node.differs, Node.differs, hcontent, hcontent', hprops, hprops']
      rw [plainChanges, plainChanges, hkind, hkind', hdiffers]
      split
      · simp only [List.map_cons, List.map_nil, hsame _ _ _ _ _ hx (hnone _ y'.origin),
          hsame _ _ _ _ _ (hnone _ x'.origin) hy]
      · split
        · exact congrArg (fun x => [x]) (hsame _ _ _ _ _ hx hy)
        · rfl

end TreeDelta
