import TreeDelta.Proofs.HeldSource
import TreeDelta.Proofs.PlainComparison
set_option autoImplicit false

/-!
# A depth limit is a filter

Without ancestry a comparison of limited depth tells what the unlimited one tells, as far as
the depth admits the path and the kind (`compareTrees_depth`). A walk applies the same test
to the nodes of each side. At a path where the sides are not compared with each other, what
is told of one does not depend on the other (`changesAt_apart`); where they are compared they
are of one kind, so that the test takes both or neither.
-/
namespace TreeDelta

open Repository

/-- The depth takes in what is of this kind at this way down from the target. -/
def Depth.admits (d : Depth) (path : Path) (kind : NodeKind) : Bool :=
  match d with
  | .empty => path.isRoot
  | .files => path.isRoot || (path.depth == 1 && kind == .file)
  | .immediates => path.isRoot || path.depth == 1
  | .infinity => true

theorem Depth.admits_root (d : Depth) (kind : NodeKind) : d.admits .root kind = true := by
  cases d <;> rfl

theorem Depth.admits_child_iff {d : Depth} {dir : Path} {name : Name} {n : Node} :
    d.admits (dir.child name) n.kind = true ↔
      (dir = .root ∨ d = .infinity) ∧ TreeWalk.includes d n = true := by
  have hroot : (dir.child name).isRoot = false :=
    Bool.eq_false_iff.2 fun h => Path.child_ne_root dir name (Path.isRoot_iff.1 h)
  have hdepth : dir.depth = 0 ↔ dir = .root := by
    obtain ⟨names⟩ := dir
    simp [Path.depth, Path.root]
  cases d <;> simp [admits, TreeWalk.includes, Node.isFile, hroot, hdepth]

variable {w : TreeWalk} {v : View}

theorem TreeWalk.Reads.root_depth {d d' : Depth} {n : Node} (h : w.Reads v d .root n) :
    w.Reads v d' .root n := by
  generalize hrel : Path.root = rel at h
  cases h with
  | root hnode => exact .root hnode
  | child _ _ _ _ _ => exact absurd hrel.symm (Path.child_ne_root _ _)

theorem TreeWalk.reads_depth_iff {d : Depth} {rel : Path} {n : Node} :
    w.Reads v d rel n ↔ w.Reads v .infinity rel n ∧ d.admits rel n.kind = true := by
  constructor
  · intro h
    induction h with
    | root hnode => exact ⟨.root hnode, d.admits_root _⟩
    | child _ hkind hdepth hnode hincludes ih =>
      exact ⟨.child ih.1 hkind (.inr rfl) hnode rfl, Depth.admits_child_iff.2 ⟨hdepth, hincludes⟩⟩
  · rintro ⟨h, hadmits⟩
    cases h with
    | root hnode => exact .root hnode
    | @child dir name parent node hparent hkind _ hnode _ =>
      obtain ⟨hdepth, hincludes⟩ := Depth.admits_child_iff.1 hadmits
      refine .child ?_ hkind hdepth hnode hincludes
      rcases hdepth with rfl | rfl
      · exact hparent.root_depth
      · exact hparent

/-- `t'` is what a walk of depth `d` reads of `t`, with the same sources held. -/
structure NodeTree.LimitedTo (d : Depth) (t t' : NodeTree) : Prop where
  origin : t'.origin = t.origin
  location : t'.location = t.location
  get? : ∀ rel, t'.nodes.get? rel = (t.nodes.get? rel).filter fun n => d.admits rel n.kind
  held : ∀ rel n source, t'.nodes.get? rel = some n → n.copySource = some source →
    ∃ held held', t.copySources.get? source = some held ∧ t'.copySources.get? source = some held' ∧
      held' = { held with path := held'.path }

variable {r : Repository} {o : Options} {d : Depth}

theorem resolveTree_limitedTo (hr : r.Arises) (hplain : o.noticeAncestry = false) {e : Endpoint}
    {l : Location} {v : View} (hl : e.locate r.store = .ok l) (hv : r.view? l.origin = some v) (d : Depth) :
    ∃ t t', resolveTree r.store e { o with depth := .infinity } = .ok t ∧
      resolveTree r.store e { o with depth := d } = .ok t' ∧ t.LimitedTo d t' ∧
      t'.isAbsent = t.isAbsent := by
  obtain ⟨t, ht, hreads⟩ := resolveTree_reads (o := { o with depth := .infinity }) hl hv
  obtain ⟨t', ht', hreads'⟩ := resolveTree_reads (o := { o with depth := d }) hl hv
  have hget : ∀ rel n, t'.nodes.get? rel = some n ↔
      t.nodes.get? rel = some n ∧ d.admits rel n.kind = true := fun rel n =>
    (hreads' rel n).trans (TreeWalk.reads_depth_iff.trans (and_congr_left' (hreads rel n).symm))
  refine ⟨t, t', ht, ht', ⟨?_, ?_, fun rel => ?_, fun rel n source hn hsource => ?_⟩, ?_⟩
  · rw [(resolveTree_location hl ht).1, (resolveTree_location hl ht').1]
  · rw [(resolveTree_location hl ht).2, (resolveTree_location hl ht').2]
  · ext n
    rw [hget, Option.filter_eq_some_iff]
  · obtain ⟨held, hheld, m, hm, heq, -⟩ :=
      resolveTree_heldSource hr (o := { o with depth := .infinity }) hplain ht rel n
        ((hget rel n).1 hn).1 source hsource
    obtain ⟨held', hheld', m', hm', heq', -⟩ :=
      resolveTree_heldSource hr (o := { o with depth := d }) hplain ht' rel n hn source hsource
    obtain rfl : m' = m := Option.some.inj (hm'.symm.trans hm)
    refine ⟨held, held', hheld, hheld', ?_⟩
    rw [heq]
    exact heq'
  · rw [resolveTree_isAbsent hl hv ht, resolveTree_isAbsent hl hv ht']

section Paths

variable {old new old' new' : NodeTree} {path : Path}

/-- The source of `b`, which is held, decides on the pair of `a` and `b`. -/
def sourceDecides (o : Options) (origin : Origin) (a : Option Node) (b : Node) (source : CopySource) :
    Bool :=
  o.tracksCopies origin && a.all fun a =>
    !(a.copySource == some source ||
      (!o.noticeAncestry && a.kind == b.kind && !a.isCopySource source))

theorem decidingSource_eq {a : Option Node} {b held : Node} {source : CopySource}
    (hsource : b.copySource = some source) (hheld : new.copySources.get? source = some held) :
    decidingSource o new a b =
      if sourceDecides o new.origin a b source then some (source, held) else none := by
  simp only [decidingSource, hsource, hheld, sourceDecides, Option.bind_eq_bind, Option.bind_some]
  by_cases htracks : o.tracksCopies new.origin = true
  · cases a with
    | none => simp [htracks]
    | some a =>
      by_cases hsame : (a.copySource == some source ||
          (!o.noticeAncestry && a.kind == b.kind && !a.isCopySource source)) = true
      · simp only [htracks, Option.all_some, hsame]
        rfl
      · simp only [htracks, Option.all_some, Bool.eq_false_iff.2 hsame]
        rfl
  · simp [Bool.eq_false_iff.2 htracks]

theorem decidingSource_some_left {a b : Node} {s : CopySource × Node}
    (h : decidingSource o new (some a) b = some s) : decidingSource o new none b = some s := by
  obtain ⟨source, held⟩ := s
  obtain ⟨hsource, hheld⟩ := decidingSource_some h
  rw [decidingSource_eq hsource hheld] at h ⊢
  split at h
  · rename_i hdecides
    simp only [sourceDecides, Bool.and_eq_true] at hdecides
    simp [sourceDecides, hdecides.1]
  · cases h

theorem decidingSource_kind_ne {a b : Node} (h : decidingSource o new (some a) b = none)
    (hkind : a.kind ≠ b.kind) (hhistory : ∀ source, a.copySource = some source →
      b.copySource = some source → a.kind = b.kind) : decidingSource o new none b = none := by
  cases hs : decidingSource o new none b with
  | none => rfl
  | some s =>
    obtain ⟨source, held⟩ := s
    obtain ⟨hsource, hheld⟩ := decidingSource_some hs
    have hne : a.copySource ≠ some source := fun ha => hkind (hhistory source ha hsource)
    rw [decidingSource_eq hsource hheld] at h hs
    simp only [sourceDecides, Option.all_none, Bool.and_true] at hs
    split at hs
    · rename_i htracks
      simp [sourceDecides, htracks, hne, hkind] at h
    · cases hs

theorem NodeTree.LimitedTo.decidingSource (h : new.LimitedTo d new') {b : Node}
    (hb : new'.nodes.get? path = some b) (a : Option Node) :
    TreeDelta.decidingSource o new a b = none ∧ TreeDelta.decidingSource o new' a b = none ∨
      ∃ source held held', TreeDelta.decidingSource o new a b = some (source, held) ∧
        TreeDelta.decidingSource o new' a b = some (source, held') ∧
        held' = { held with path := held'.path } := by
  cases hsource : b.copySource with
  | none =>
    refine .inl ⟨?_, ?_⟩
    · rw [TreeDelta.decidingSource, hsource]
      rfl
    · rw [TreeDelta.decidingSource, hsource]
      rfl
  | some source =>
    obtain ⟨held, held', hheld, hheld', heq⟩ := h.held path b source hb hsource
    rw [decidingSource_eq hsource hheld, decidingSource_eq hsource hheld', h.origin]
    cases sourceDecides o new.origin a b source with
    | false => exact .inl ⟨rfl, rfl⟩
    | true => exact .inr ⟨source, held, held', rfl, rfl, heq⟩

def departure (origin : Origin) (path : Path) (a : Node) : NodePair :=
  ⟨path, .deleted, a, .nonexistent path origin, none⟩

def arrival (o : Options) (new : NodeTree) (origin : Origin) (path : Path) (b : Node) : NodePair :=
  match decidingSource o new none b with
  | some (source, node) => ⟨path, .copied, node, b, some (source, node)⟩
  | none => ⟨path, .added, .nonexistent path origin, b, none⟩

def encounter (o : Options) (new : NodeTree) (path : Path) (a b : Node) : List NodePair :=
  match decidingSource o new (some a) b with
  | some (source, node) => [⟨path, .copied, node, b, some (source, node)⟩]
  | none => if a.differs b then [⟨path, .modified, a, b, none⟩] else []

/-- The nodes are compared with each other: they are of one kind and neither replaces the other. -/
def Compared (o : Options) (new : NodeTree) (a b : Node) : Prop :=
  a.kind = b.kind ∧ ∀ s, decidingSource o new (some a) b = some s → a.isReplacedByCopy b s.1 = false

/-- What is attached to the nodes at a path: the source held for the new one is of its kind, and
nodes that share a source are of one kind. -/
structure SourcesMatch (old new : NodeTree) (path : Path) : Prop where
  held : ∀ b source held, new.nodes.get? path = some b → b.copySource = some source →
    new.copySources.get? source = some held → held.kind = b.kind
  shared : ∀ a b source, old.nodes.get? path = some a → new.nodes.get? path = some b →
    a.copySource = some source → b.copySource = some source → a.kind = b.kind

theorem Frame.told_arrival (f : Frame) (origin origin' : Origin) (path : Path) (b : Node) :
    f.told (arrival o new origin path b) = f.told (arrival o new origin' path b) := by
  unfold arrival
  split
  · rfl
  · rfl

theorem changesAt_compared (hplain : o.noticeAncestry = false) {a b : Node}
    (ha : old.nodes.get? path = some a) (hb : new.nodes.get? path = some b) (h : Compared o new a b) :
    changesAt o old new path = encounter o new path a b := by
  have hkind : (a.kind != b.kind) = false := by simpa using h.1
  simp only [changesAt, classify, ha, hb, encounter]
  cases hs : decidingSource o new (some a) b with
  | some s =>
    have hkept : (!a.isCopySource s.1 || a.kind != b.kind) = false := h.2 s hs
    simp only [hkept]
    rfl
  | none =>
    simp only [hkind, hplain, Bool.false_and, Bool.or_self]
    cases a.differs b with
    | false => rfl
    | true => rfl

/-- What is told of sides that are not compared with each other. -/
theorem Frame.told_changesAt_apart (hplain : o.noticeAncestry = false) (hsources : SourcesMatch old new path)
    (hapart : ∀ a b, old.nodes.get? path = some a → new.nodes.get? path = some b → ¬ Compared o new a b)
    (f : Frame) :
    (changesAt o old new path).map f.told =
      (old.nodes.get? path).toList.map (fun a => f.told (departure new.origin path a)) ++
        (new.nodes.get? path).toList.map fun b => f.told (arrival o new old.origin path b) := by
  have hverdict := classify_verdict o old new false path
  rw [changesAt]
  generalize classify o old new false path = pair at hverdict
  cases hverdict with
  | absent ha hb => rw [ha, hb]; rfl
  | deleted a ha hb => rw [ha, hb]; rfl
  | added b ha hb hs =>
    simp only [ha, hb, Option.toList_some, List.map_cons, arrival, hs]
    rfl
  | copied b source node ha hb hs =>
    simp only [ha, hb, Option.toList_some, List.map_cons, arrival, hs]
    rfl
  | replacedByCopy a b source node ha hb hs _ =>
    simp only [ha, hb, Option.toList_some, List.map_cons, arrival, decidingSource_some_left hs]
    rfl
  | copiedOnto a b source node ha hb hs hr =>
    have hkind : a.kind = b.kind := by
      simp only [Node.isReplacedByCopy, Bool.or_eq_false_iff] at hr
      simpa using hr.2
    refine absurd ⟨hkind, fun s hs' => ?_⟩ (hapart a b ha hb)
    rw [hs] at hs'
    cases hs'
    exact hr
  | replaced a b ha hb hs hr =>
    have hkind : a.kind ≠ b.kind := by simpa [Node.isReplacedBy, hplain] using hr
    have hnone := decidingSource_kind_ne hs hkind fun source => hsources.shared a b source ha hb
    simp only [ha, hb, Option.toList_some, List.map_cons, arrival, hnone]
    rfl
  | modified a b ha hb hs hr _ =>
    have hkind : a.kind = b.kind := by simpa [Node.isReplacedBy, hplain] using hr
    exact absurd ⟨hkind, by simp [hs]⟩ (hapart a b ha hb)
  | unchanged a b ha hb hs hr _ =>
    have hkind : a.kind = b.kind := by simpa [Node.isReplacedBy, hplain] using hr
    exact absurd ⟨hkind, by simp [hs]⟩ (hapart a b ha hb)

theorem NodeTree.LimitedTo.get?_eq_some_iff {t t' : NodeTree} (h : t.LimitedTo d t') {n : Node} :
    t'.nodes.get? path = some n ↔ t.nodes.get? path = some n ∧ d.admits path n.kind = true := by
  rw [h.get?, Option.filter_eq_some_iff]

theorem SourcesMatch.limited (h : SourcesMatch old new path) (hold : old.LimitedTo d old')
    (hnew : new.LimitedTo d new') : SourcesMatch old' new' path where
  held b source held' hb hsource hheld' := by
    obtain ⟨held, held'', hheld, hheld'', heq⟩ := hnew.held path b source hb hsource
    obtain rfl : held'' = held' := Option.some.inj (hheld''.symm.trans hheld')
    rw [heq]
    exact h.held b source held (hnew.get?_eq_some_iff.1 hb).1 hsource hheld
  shared a b source ha hb :=
    h.shared a b source (hold.get?_eq_some_iff.1 ha).1 (hnew.get?_eq_some_iff.1 hb).1

theorem compared_limited_iff (hnew : new.LimitedTo d new') {a b : Node}
    (hb : new'.nodes.get? path = some b) : Compared o new' a b ↔ Compared o new a b := by
  refine and_congr_right fun _ => ?_
  rcases hnew.decidingSource (o := o) hb (some a) with ⟨hs, hs'⟩ | ⟨source, held, held', hs, hs', -⟩
  · simp [hs, hs']
  · simp [hs, hs']

theorem Frame.told_encounter_limited (hnew : new.LimitedTo d new') {a b : Node}
    (hb : new'.nodes.get? path = some b) (f : Frame) :
    (encounter o new' path a b).map f.told = (encounter o new path a b).map f.told := by
  rcases hnew.decidingSource (o := o) hb (some a) with ⟨hs, hs'⟩ | ⟨source, held, held', hs, hs', heq⟩
  · rw [encounter, encounter, hs, hs']
  · rw [encounter, encounter, hs, hs', heq]
    rfl

theorem Frame.told_arrival_limited (hnew : new.LimitedTo d new') {b : Node}
    (hb : new'.nodes.get? path = some b) (origin origin' : Origin) (f : Frame) :
    f.told (arrival o new' origin' path b) = f.told (arrival o new origin path b) := by
  rw [told_arrival f origin' origin]
  rcases hnew.decidingSource (o := o) hb none with ⟨hs, hs'⟩ | ⟨source, held, held', hs, hs', heq⟩
  · rw [arrival, arrival, hs, hs']
  · rw [arrival, arrival, hs, hs', heq]
    rfl

theorem NodePair.nodeKind_of_kind_eq {p : NodePair} (h : p.left.kind = p.right.kind) :
    p.nodeKind = p.right.kind := by
  rw [nodeKind]
  split
  · rfl
  · exact h

theorem arrival_nodeKind (hsources : SourcesMatch old new path) {b : Node}
    (hb : new.nodes.get? path = some b) (origin : Origin) :
    (arrival o new origin path b).path = path ∧ (arrival o new origin path b).nodeKind = b.kind := by
  unfold arrival
  split
  · rename_i source held hs
    obtain ⟨hsource, hheld⟩ := decidingSource_some hs
    exact ⟨rfl, NodePair.nodeKind_of_kind_eq (hsources.held b source held hb hsource hheld)⟩
  · refine ⟨rfl, ?_⟩
    rw [NodePair.nodeKind]
    split
    · rfl
    · rename_i habsent
      simp only [Node.isPresent, bne_iff_ne, ne_eq, not_not] at habsent
      exact habsent.symm

theorem encounter_nodeKind (hsources : SourcesMatch old new path) {a b : Node} (hkind : a.kind = b.kind)
    (hb : new.nodes.get? path = some b) {p : NodePair} (hp : p ∈ encounter o new path a b) :
    p.path = path ∧ p.nodeKind = b.kind := by
  unfold encounter at hp
  split at hp
  · rename_i source held hs
    obtain ⟨hsource, hheld⟩ := decidingSource_some hs
    obtain rfl := List.mem_singleton.1 hp
    exact ⟨rfl, NodePair.nodeKind_of_kind_eq (hsources.held b source held hb hsource hheld)⟩
  · split at hp
    · obtain rfl := List.mem_singleton.1 hp
      exact ⟨rfl, NodePair.nodeKind_of_kind_eq hkind⟩
    · cases hp

theorem toList_filter_map {n? : Option Node} {q : Node → Bool} {F F' : Node → PairResult}
    {T : PairResult → Bool} (htest : ∀ n, n? = some n → T (F n) = q n)
    (hsame : ∀ n, n? = some n → q n = true → F' n = F n) :
    (n?.filter q).toList.map F' = (n?.toList.map F).filter T := by
  cases n? with
  | none => rfl
  | some n =>
    rw [Option.filter_some, Option.toList_some, List.map_singleton, List.filter_singleton, htest n rfl]
    cases hq : q n with
    | false => rfl
    | true => exact congrArg (fun x => [x]) (hsame n rfl hq)

theorem Frame.told_changesAt_limited (hplain : o.noticeAncestry = false) (hold : old.LimitedTo d old')
    (hnew : new.LimitedTo d new') (hsources : SourcesMatch old new path) (f : Frame) :
    (changesAt o old' new' path).map f.told =
      ((changesAt o old new path).map f.told).filter fun x => d.admits x.path x.nodeKind := by
  by_cases hcompared : ∃ a b, old.nodes.get? path = some a ∧ new.nodes.get? path = some b ∧
      Compared o new a b
  · obtain ⟨a, b, ha, hb, h⟩ := hcompared
    rw [changesAt_compared hplain ha hb h]
    have htest : ∀ x ∈ (encounter o new path a b).map f.told,
        d.admits x.path x.nodeKind = d.admits path b.kind := by
      intro x hx
      obtain ⟨p, hp, rfl⟩ := List.mem_map.1 hx
      obtain ⟨hpath, hkind⟩ := encounter_nodeKind hsources h.1 hb hp
      exact congrArg₂ d.admits hpath hkind
    cases hadmits : d.admits path b.kind with
    | true =>
      have ha' := hold.get?_eq_some_iff.2 ⟨ha, h.1 ▸ hadmits⟩
      have hb' := hnew.get?_eq_some_iff.2 ⟨hb, hadmits⟩
      rw [changesAt_compared hplain ha' hb' ((compared_limited_iff hnew hb').2 h),
        told_encounter_limited hnew hb', List.filter_eq_self.2 fun x hx => (htest x hx).trans hadmits]
    | false =>
      have ha' : old'.nodes.get? path = none := by
        rw [hold.get?, ha, Option.filter_some, h.1, hadmits]
        rfl
      have hb' : new'.nodes.get? path = none := by
        rw [hnew.get?, hb, Option.filter_some, hadmits]
        rfl
      rw [List.filter_eq_nil_iff.2 fun x hx => by simp [htest x hx, hadmits], changesAt, classify, ha', hb']
      rfl
  · have hapart : ∀ a b, old.nodes.get? path = some a → new.nodes.get? path = some b → ¬ Compared o new a b :=
      fun a b ha hb h => hcompared ⟨a, b, ha, hb, h⟩
    have hapart' : ∀ a b, old'.nodes.get? path = some a → new'.nodes.get? path = some b →
        ¬ Compared o new' a b := fun a b ha hb h =>
      hapart a b (hold.get?_eq_some_iff.1 ha).1 (hnew.get?_eq_some_iff.1 hb).1
        ((compared_limited_iff hnew hb).1 h)
    rw [told_changesAt_apart hplain (hsources.limited hold hnew) hapart',
      told_changesAt_apart hplain hsources hapart, List.filter_append]
    congr 1
    · rw [hold.get?]
      exact toList_filter_map (fun _ _ => rfl) fun _ _ _ => rfl
    · rw [hnew.get?]
      refine toList_filter_map (fun b hb => ?_) fun b hb hadmits =>
        told_arrival_limited hnew (hnew.get?_eq_some_iff.2 ⟨hb, hadmits⟩) _ _ f
      obtain ⟨hpath, hkind⟩ := arrival_nodeKind (o := o) hsources hb old.origin
      exact congrArg₂ d.admits hpath hkind

end Paths

theorem flatMap_filter_of_nil {α β : Type} {q : α → Bool} {F : α → List β} (l : List α)
    (h : ∀ a, q a = false → F a = []) : (l.filter q).flatMap F = l.flatMap F := by
  induction l with
  | nil => rfl
  | cons a l ih =>
    cases hq : q a with
    | true => rw [List.filter_cons_of_pos hq, List.flatMap_cons, List.flatMap_cons, ih]
    | false =>
      rw [List.filter_cons_of_neg (by simp [hq]), List.flatMap_cons, h a hq, ih]
      rfl

section Trees

variable {old new old' new' : NodeTree}

theorem Frame.told_changedPairs_limited (hplain : o.noticeAncestry = false) (hold : old.LimitedTo d old')
    (hnew : new.LimitedTo d new') (hsources : ∀ path, SourcesMatch old new path) (f : Frame) :
    (changedPairs o old' new').map f.told =
      ((changedPairs o old new).map f.told).filter fun x => d.admits x.path x.nodeKind := by
  have hcontains : ∀ {t t' : NodeTree}, t.LimitedTo d t' → ∀ path, t'.nodes.contains path = true →
      t.nodes.contains path = true := by
    intro t t' h path hpath
    obtain ⟨n, hn⟩ := OrderedMap.contains_iff.1 hpath
    exact OrderedMap.contains_iff.2 ⟨n, (h.get?_eq_some_iff.1 hn).1⟩
  have hkeys := OrderedMap.unionKeys_eq_filter (hcontains hold) (hcontains hnew)
  rw [changedPairs_plain hplain, changedPairs_plain hplain, hkeys, List.map_flatMap, List.map_flatMap,
    List.filter_flatMap, flatMap_filter_of_nil]
  · exact congrArg (List.flatMap · _) <| funext fun path =>
      told_changesAt_limited hplain hold hnew (hsources path) f
  · intro path habsent
    simp only [Bool.or_eq_false_iff, OrderedMap.contains, Option.isSome_eq_false_iff,
      Option.isNone_iff_eq_none] at habsent
    rw [changesAt, classify, habsent.1, habsent.2]
    rfl

theorem NodeTree.LimitedTo.rootKind_eq {t t' : NodeTree} (h : t.LimitedTo d t') :
    t'.rootKind = t.rootKind := by
  rw [rootKind, rootKind, h.get?]
  cases t.nodes.get? .root with
  | none => rfl
  | some n =>
    rw [Option.filter_some, d.admits_root]
    rfl

theorem told_frame_limited {s : Store} {e e' : Endpoint} {root : Option String}
    (hold : old.LimitedTo d old') (hnew : new.LimitedTo d new') :
    (ComparisonSpec.frame ⟨e, e', root, { o with depth := d }⟩ s old' new').told =
      (ComparisonSpec.frame ⟨e, e', root, { o with depth := .infinity }⟩ s old new).told := by
  funext p
  have htold := Frame.told_congr (p := p) (q := p)
    (f := ComparisonSpec.frame ⟨e, e', root, { o with depth := .infinity }⟩ s old new)
    (g := ComparisonSpec.frame ⟨e, e', root, { o with depth := d }⟩ s old' new') rfl rfl rfl rfl rfl rfl
  rw [htold]
  simp only [Frame.told, ComparisonSpec.frame, Frame.location?, Frame.tellsLocations, hold.location,
    hnew.location, hold.rootKind_eq, hnew.rootKind_eq]
  rfl

end Trees

theorem resolveTree_sourcesMatch (hr : r.Arises) (hplain : o.noticeAncestry = false) {e e' : Endpoint}
    {old new : NodeTree} (hold : resolveTree r.store e o = .ok old)
    (hnew : resolveTree r.store e' o = .ok new) (path : Path) : SourcesMatch old new path where
  held b source held hb hsource hheld := by
    obtain ⟨held', hheld', m, -, heq, hkind⟩ := resolveTree_heldSource hr hplain hnew path b hb source hsource
    obtain rfl : held' = held := Option.some.inj (hheld'.symm.trans hheld)
    rw [heq]
    exact hkind
  shared a b source ha hb hsource hsource' := by
    obtain ⟨-, -, m, hm, -, hkind⟩ := resolveTree_heldSource hr hplain hold path a ha source hsource
    obtain ⟨-, -, m', hm', -, hkind'⟩ := resolveTree_heldSource hr hplain hnew path b hb source hsource'
    obtain rfl : m' = m := Option.some.inj (hm'.symm.trans hm)
    exact hkind.symm.trans hkind'

/-- Either nothing that is asked of an endpoint depends on the options, as it fails before, or its
origin is there. -/
theorem resolveTree_error_or (r : Repository) (e : Endpoint) :
    (∃ err, ∀ o, resolveTree r.store e o = .error err) ∨
      ∃ l v, e.locate r.store = .ok l ∧ r.view? l.origin = some v := by
  cases hl : e.locate r.store with
  | error err => exact .inl ⟨err, fun o => by rw [resolveTree, hl]; rfl⟩
  | ok l =>
    cases hfound : r.node? l.path l.origin with
    | ok found =>
      obtain ⟨v, hv⟩ := view?_of_node?_eq_ok hfound
      exact .inr ⟨l, v, rfl, hv⟩
    | error err =>
      refine .inl ⟨.store err, fun o => ?_⟩
      have hnode : r.store.node? l.path l.origin = .error err := hfound
      rw [resolveTree, hl]
      simp only [bind, Except.bind, hnode]
      rfl

/-- A comparison of limited depth tells what the unlimited one tells and the depth admits, and it fails
as that one does. -/
theorem compareTrees_depth (hr : r.Arises) (e e' : Endpoint) (root : Option String)
    (hplain : o.noticeAncestry = false) (d : Depth) :
    compareTrees r.store ⟨e, e', root, { o with depth := d }⟩ =
      (compareTrees r.store ⟨e, e', root, { o with depth := .infinity }⟩).map
        (List.filter fun x => d.admits x.path x.nodeKind) := by
  rw [compareTrees_eq_told hr.reachable.contentsHeld, compareTrees_eq_told hr.reachable.contentsHeld]
  have hvalidate : Options.validate { o with depth := d } = Options.validate { o with depth := .infinity } :=
    rfl
  dsimp only
  rw [hvalidate]
  cases Options.validate { o with depth := .infinity } with
  | error err => rfl
  | ok _ =>
    rcases resolveTree_error_or r e with ⟨err, herr⟩ | ⟨l, v, hl, hv⟩
    · rw [resolvePair, resolvePair, herr, herr]
      rfl
    obtain ⟨old, old', ht, ht', hold, habsent⟩ := resolveTree_limitedTo hr hplain hl hv d
    rcases resolveTree_error_or r e' with ⟨err, herr⟩ | ⟨l', v', hl', hv'⟩
    · rw [resolvePair, resolvePair, ht, ht', herr, herr]
      rfl
    obtain ⟨new, new', htnew, htnew', hnew, habsent'⟩ := resolveTree_limitedTo hr hplain hl' hv' d
    rw [resolvePair, resolvePair, ht, ht', htnew, htnew']
    simp only [bind, Except.bind, habsent, habsent']
    cases old.isAbsent && new.isAbsent with
    | true => rfl
    | false =>
      have hsources := resolveTree_sourcesMatch hr (o := { o with depth := .infinity }) hplain ht htnew
      have hdepth : ∀ d t t', changedPairs { o with depth := d } t t' = changedPairs o t t' := fun d t t' => by
        rw [changedPairs_plain hplain, changedPairs_plain (o := { o with depth := d }) hplain]
        rfl
      refine congrArg Except.ok ?_
      rw [told_frame_limited hold hnew, hdepth d, hdepth .infinity]
      exact Frame.told_changedPairs_limited hplain hold hnew hsources _

namespace CopiedOver

def draft : Draft := Draft.empty.applyAll [.directory "d/e", .file "f" []]

def operations : List Operation :=
  [.commit draft, .checkout 1, .edit (.delete "d"), .edit (.copy "f" "d"), .edit (.makeDirectory "g")]

def repository : Repository := Repository.empty.runAll operations

theorem repository_arises : repository.Arises := by
  refine Repository.Arises.empty.runAll fun d hd => ?_
  obtain rfl : d = draft := by simpa [operations] using hd
  exact .new _

def comparison (d : Depth) : Except DiffError (List PairResult) :=
  compareTrees repository.store ⟨⟨.workingCopy .root, .base⟩, ⟨.workingCopy .root, .working⟩, none,
    { Options.default with depth := d }⟩

def told (d : Depth) : Option (List (String × ChangeKind)) :=
  (comparison d).toOption.map fun results => results.map fun x => (x.path.text, x.change)

end CopiedOver

open CopiedOver in
theorem compareTrees_depth_copiedOver :
    repository.Arises ∧
      comparison .files =
        (comparison .infinity).map (List.filter fun x => Depth.files.admits x.path x.nodeKind) ∧
      told .infinity = some [("d", .deleted), ("d", .copied), ("d/e", .deleted), ("g", .added)] ∧
      told .files = some [("d", .copied)] :=
  ⟨repository_arises, compareTrees_depth repository_arises _ _ none rfl .files, by decide +kernel,
    by decide +kernel⟩

end TreeDelta
