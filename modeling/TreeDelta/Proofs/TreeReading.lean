import TreeDelta.Proofs.LocalChange
import TreeDelta.Proofs.NodeState
import TreeDelta.Proofs.ResolvedTree
set_option autoImplicit false

/-!
# What a walk reads

What a walk makes of the answers of its store (`View`) is told from the root down by
`TreeWalk.Reads`: which nodes are read, and which source is attached to each. The
tree that an endpoint of a repository resolves to has these nodes and no others
(`resolveTree_reads`), so what is said of all that is read is shown by induction
on the way down.
-/
namespace TreeDelta

open Repository

theorem Path.childName?_eq_some_iff {p q : Path} {n : Name} :
    p.childName? q = some n ↔ q = p.child n := by
  have hbelow : q = p.child n ↔ q.below? p = some ⟨[n]⟩ := by
    rw [below?_eq_some_iff]
    rfl
  rw [hbelow, childName?]
  split
  · rename_i m hm
    rw [hm]
    simp
  · rename_i hne
    constructor
    · intro h
      cases h
    · intro h
      exact absurd h (hne n)

theorem mem_childNames_iff {ν : Type} {tree : OrderedMap Path ν} {p : Path} {n : Name} :
    n ∈ childNames tree p ↔ tree.contains (p.child n) = true := by
  simp only [childNames, List.mem_filterMap, Path.childName?_eq_some_iff, exists_eq_right,
    OrderedMap.mem_keys_iff]

theorem le_foldl_max {α : Type} (f : α → Nat) (l : List α) (b : Nat) :
    b ≤ l.foldl (fun h a => max h (f a)) b ∧ ∀ a ∈ l, f a ≤ l.foldl (fun h a => max h (f a)) b := by
  induction l generalizing b with
  | nil => simp
  | cons a l ih =>
    obtain ⟨hb, hl⟩ := ih (max b (f a))
    rw [List.foldl_cons]
    refine ⟨Nat.le_trans (Nat.le_max_left _ _) hb, fun c hc => ?_⟩
    rcases List.mem_cons.1 hc with rfl | hc
    · exact Nat.le_trans (Nat.le_max_right _ _) hb
    · exact hl c hc

theorem depth_le_treeHeight {ν : Type} {tree : OrderedMap Path ν} {p : Path}
    (h : tree.contains p = true) : p.depth ≤ treeHeight tree :=
  (le_foldl_max Path.depth tree.keys 0).2 p (OrderedMap.mem_keys_iff.2 h)

/-- What a store has at one origin, and the committed nodes that sources name. -/
structure View where
  nodes : OrderedMap Path Node
  recorded : Path → Option CopySource
  committed : CopySource → Option Node

namespace TreeWalk

structure Views (w : TreeWalk) (v : View) : Prop where
  node? : ∀ p, w.store.node? p w.origin = .ok (v.nodes.get? p)
  children : ∀ p, v.nodes.contains p = true →
    w.store.children p w.origin = .ok (childNames v.nodes p)
  copySource? : ∀ p, w.store.copySource? p w.origin = .ok (v.recorded p)
  sourceNode : ∀ source, w.sourceNode source = .ok (v.committed source)

/-- The source of the node at `rel`. A source that names nothing counts as none. -/
def attached (w : TreeWalk) (v : View) (rel : Path) (inherited : Option CopySource) :
    Option CopySource :=
  if w.tracksCopies then
    (w.candidateSource (v.recorded (w.base.join rel)) inherited).filter fun source =>
      (v.committed source).isSome
  else none

def placed (w : TreeWalk) (v : View) (node : Node) (rel : Path) (inherited : Option CopySource) :
    Node :=
  { node with path := rel, copySource := w.attached v rel inherited }

@[simp] theorem placed_isDirectory (w : TreeWalk) (v : View) (node : Node) (rel : Path)
    (inherited : Option CopySource) : (w.placed v node rel inherited).isDirectory = node.isDirectory :=
  rfl

/-- The nodes that are read, from the root down: at most one level is read below it
unless the depth is unlimited. -/
inductive Reads (w : TreeWalk) (v : View) (depth : Depth) : Path → Node → Prop
  | root {node : Node} (hnode : v.nodes.get? w.base = some node) :
    Reads w v depth .root (w.placed v node .root none)
  | child {dir : Path} {name : Name} {parent node : Node} (hparent : Reads w v depth dir parent)
      (hkind : parent.isDirectory = true) (hdepth : dir = .root ∨ depth = .infinity)
      (hnode : v.nodes.get? (w.base.join (dir.child name)) = some node)
      (hincludes : includes depth node = true) :
    Reads w v depth (dir.child name)
      (w.placed v node (dir.child name) (parent.copySource.map fun s => s.descend ⟨[name]⟩))

variable {w : TreeWalk} {v : View} {depth : Depth} {rel p : Path} {n m : Node}

namespace Reads

theorem eq_placed (h : w.Reads v depth rel n) :
    ∃ node inherited, v.nodes.get? (w.base.join rel) = some node ∧ n = w.placed v node rel inherited := by
  cases h with
  | root hnode => exact ⟨_, none, by rwa [Path.join_root], rfl⟩
  | child _ _ _ hnode _ => exact ⟨_, _, hnode, rfl⟩

theorem contains (h : w.Reads v depth rel n) : v.nodes.contains (w.base.join rel) = true := by
  obtain ⟨node, _, hnode, -⟩ := h.eq_placed
  exact OrderedMap.contains_iff.2 ⟨node, hnode⟩

theorem of_child {dir : Path} {name : Name} (h : w.Reads v depth (dir.child name) n) :
    ∃ parent node, w.Reads v depth dir parent ∧ parent.isDirectory = true ∧
      (dir = .root ∨ depth = .infinity) ∧
      v.nodes.get? (w.base.join (dir.child name)) = some node ∧ includes depth node = true ∧
      n = w.placed v node (dir.child name) (parent.copySource.map fun s => s.descend ⟨[name]⟩) := by
  generalize hpath : dir.child name = path at h
  cases h with
  | root _ => exact absurd hpath (Path.child_ne_root dir name)
  | @child dir' name' parent node hparent hkind hdepth hnode hincludes =>
    obtain ⟨rfl, rfl⟩ := Path.child_inj hpath
    exact ⟨parent, node, hparent, hkind, hdepth, hnode, hincludes, rfl⟩

theorem unique (h : w.Reads v depth rel n) (h' : w.Reads v depth rel m) : n = m := by
  induction h generalizing m with
  | root hnode =>
    generalize hpath : Path.root = path at h'
    cases h' with
    | root hnode' => rw [Option.some.inj (hnode.symm.trans hnode')]
    | child _ _ _ _ _ => exact absurd hpath.symm (Path.child_ne_root _ _)
  | child _ _ _ hnode _ ih =>
    obtain ⟨parent', node', hparent', -, -, hnode', -, rfl⟩ := h'.of_child
    rw [ih hparent', Option.some.inj (hnode.symm.trans hnode')]

theorem of_below {names : List Name} (h : w.Reads v depth (p.join ⟨names⟩) n) (hne : names ≠ []) :
    ∃ parent, w.Reads v depth p parent ∧ parent.isDirectory = true ∧
      (p = .root ∨ depth = .infinity) := by
  induction names using List.reverseRecOn generalizing n with
  | nil => exact absurd rfl hne
  | append_singleton names name ih =>
    have hpath : p.join ⟨names ++ [name]⟩ = (p.join ⟨names⟩).child name := Path.join_child p ⟨names⟩ name
    rw [hpath] at h
    obtain ⟨parent, _, hparent, hkind, hdepth, -⟩ := h.of_child
    by_cases hnames : names = []
    · subst hnames
      have hp : p.join ⟨[]⟩ = p := Path.join_root p
      rw [hp] at hparent hdepth
      exact ⟨parent, hparent, hkind, hdepth⟩
    · exact ih hparent hnames

theorem above {names : List Name} (h : w.Reads v depth (p.join ⟨names⟩) n) :
    ∃ parent, w.Reads v depth p parent := by
  by_cases hne : names = []
  · subst hne
    have hp : p.join ⟨[]⟩ = p := Path.join_root p
    rw [hp] at h
    exact ⟨n, h⟩
  · obtain ⟨parent, hparent, -⟩ := h.of_below hne
    exact ⟨parent, hparent⟩

end Reads

structure PartOf (w : TreeWalk) (v : View) (depth : Depth) (t : NodeTree) : Prop where
  nodes : t.nodes.All (w.Reads v depth)
  copySources : ∀ source, t.copySources.contains source = true → (v.committed source).isSome = true

end TreeWalk

def NodeTree.Within (t t' : NodeTree) : Prop :=
  ∀ rel n, t.nodes.get? rel = some n → t'.nodes.get? rel = some n

theorem NodeTree.Within.refl (t : NodeTree) : t.Within t := fun _ _ h => h

theorem NodeTree.Within.trans {t₁ t₂ t₃ : NodeTree} (h : t₁.Within t₂) (h' : t₂.Within t₃) :
    t₁.Within t₃ :=
  fun rel n hn => h' rel n (h rel n hn)

namespace TreeWalk

/-- The tree has all that is to be read at and below a place. -/
def Covers (w : TreeWalk) (v : View) (depth : Depth) (p : Path) (t : NodeTree) : Prop :=
  ∀ names n, w.Reads v depth (p.join ⟨names⟩) n → t.nodes.get? (p.join ⟨names⟩) = some n

variable {w : TreeWalk} {v : View} {depth : Depth} {t t' : NodeTree} {dir : Path} {n : Node}

theorem Covers.within {p : Path} (h : w.Covers v depth p t) (ht : t.Within t') :
    w.Covers v depth p t' :=
  fun names n hn => ht _ n (h names n hn)

theorem Covers.single {p : Path} (ht : w.PartOf v depth t) (hn : t.nodes.get? p = some n)
    (hnothing : ∀ names m, w.Reads v depth (p.join ⟨names⟩) m → names = []) :
    w.Covers v depth p t := by
  intro names m hm
  obtain rfl := hnothing names m hm
  have hp : p.join ⟨[]⟩ = p := Path.join_root p
  rw [hp] at hm ⊢
  rw [hn, (ht.nodes p n hn).unique hm]

theorem attachSource_eq (hv : w.Views v) (htracks : w.tracksCopies = true)
    (ht : ∀ source, t.copySources.contains source = true → (v.committed source).isSome = true)
    (rel : Path) (inherited : Option CopySource) :
    ∃ t', w.attachSource t rel inherited = .ok (t', w.attached v rel inherited) ∧ t'.nodes = t.nodes ∧
      ∀ source, t'.copySources.contains source = true → (v.committed source).isSome = true := by
  rw [attachSource, hv.copySource?, attached, if_pos htracks]
  simp only [asking, Except.mapError, bind, Except.bind]
  cases w.candidateSource (v.recorded (w.base.join rel)) inherited with
  | none => exact ⟨t, rfl, rfl, ht⟩
  | some source =>
    simp only [hv.sourceNode, Option.filter_some]
    split
    · rename_i hheld
      exact ⟨t, by rw [if_pos (ht source hheld)]; rfl, rfl, ht⟩
    · cases hfound : v.committed source with
      | none => exact ⟨t, rfl, rfl, ht⟩
      | some node =>
        refine ⟨{ t with copySources := t.copySources.insert source { node with path := rel } }, rfl, rfl,
          fun s hs => ?_⟩
        rcases OrderedMap.contains_insert_iff.1 hs with rfl | hs
        · rw [hfound]
          rfl
        · exact ht s hs

theorem visit_eq (hv : w.Views v) (ht : w.PartOf v depth t) {node : Node} {rel : Path}
    {inherited : Option CopySource} (hreads : w.Reads v depth rel (w.placed v node rel inherited)) :
    ∃ t', w.visit t node rel inherited = .ok t' ∧ w.PartOf v depth t' ∧ t.Within t' ∧
      t'.nodes.get? rel = some (w.placed v node rel inherited) := by
  obtain ⟨t₁, hsource, hnodes, hheld⟩ : ∃ t₁,
      (if w.tracksCopies then w.attachSource t rel inherited else .ok (t, none)) =
        .ok (t₁, w.attached v rel inherited) ∧ t₁.nodes = t.nodes ∧
      ∀ source, t₁.copySources.contains source = true → (v.committed source).isSome = true := by
    by_cases htracks : w.tracksCopies = true
    · rw [if_pos htracks]
      exact attachSource_eq hv htracks ht.copySources rel inherited
    · rw [if_neg htracks, attached, if_neg htracks]
      exact ⟨t, rfl, rfl, ht.copySources⟩
  refine ⟨{ t₁ with nodes := t₁.nodes.insert rel (w.placed v node rel inherited) }, ?_, ⟨?_, hheld⟩,
    ?_, OrderedMap.get?_insert_self _ _ _⟩
  · unfold visit
    split at hsource
    · rename_i htracks
      rw [if_pos htracks, hsource]
      rfl
    · rename_i htracks
      rw [if_neg htracks, hsource]
      rfl
  · refine OrderedMap.All.insert ?_ hreads
    rw [hnodes]
    exact ht.nodes
  · intro p n hn
    by_cases hp : p = rel
    · subst hp
      rw [(ht.nodes p n hn).unique hreads]
      exact OrderedMap.get?_insert_self _ _ _
    · rw [OrderedMap.get?_insert_ne _ _ hp, hnodes, hn]

def enter (w : TreeWalk) (depth : Depth) (levels : Nat) (dir : Path) (inherited : Option CopySource)
    (t : NodeTree) (name : Name) : Except DiffError NodeTree := do
  let rel := dir.child name
  match ← asking (w.store.node? (w.base.join rel) w.origin) with
  | none => return t
  | some node =>
    if includes depth node then do
      let t ← w.visit t node rel (inherited.map fun s => s.descend ⟨[name]⟩)
      if node.isDirectory && depth == .infinity then w.descend depth levels t rel else return t
    else return t

theorem descend_succ (w : TreeWalk) (depth : Depth) (levels : Nat) (t : NodeTree) (dir : Path) :
    w.descend depth (levels + 1) t dir = (do
      let names ← asking (w.store.children (w.base.join dir) w.origin)
      names.foldlM (w.enter depth levels dir ((t.nodes.get? dir).bind Node.copySource)) t) := rfl

def Completes (w : TreeWalk) (v : View) (depth : Depth) (p : Path) (t : NodeTree)
    (x : Except DiffError NodeTree) : Prop :=
  ∃ t', x = .ok t' ∧ w.PartOf v depth t' ∧ t.Within t' ∧ w.Covers v depth p t'

theorem enter_completes (hv : w.Views v) {levels : Nat} {parent : Node} {name : Name}
    (hparent : w.Reads v depth dir parent) (hkind : parent.isDirectory = true)
    (hdepth : dir = .root ∨ depth = .infinity) (ht : w.PartOf v depth t)
    (hbelow : ∀ x node, w.PartOf v depth x → x.nodes.get? (dir.child name) = some node →
      node.isDirectory = true → depth = .infinity →
      w.Completes v depth (dir.child name) x (w.descend depth levels x (dir.child name))) :
    w.Completes v depth (dir.child name) t (w.enter depth levels dir parent.copySource t name) := by
  have hfirst : ∀ names m, w.Reads v depth ((dir.child name).join ⟨names⟩) m →
      ∃ node, v.nodes.get? (w.base.join (dir.child name)) = some node ∧ includes depth node = true := by
    intro names m hm
    obtain ⟨_, habove⟩ := hm.above
    obtain ⟨_, node, -, -, -, hnode, hincludes, -⟩ := habove.of_child
    exact ⟨node, hnode, hincludes⟩
  rw [enter]
  simp only [hv.node?, asking, Except.mapError, bind, Except.bind]
  cases hnode : v.nodes.get? (w.base.join (dir.child name)) with
  | none =>
    refine ⟨t, rfl, ht, .refl t, fun names m hm => ?_⟩
    obtain ⟨node, hnode', -⟩ := hfirst names m hm
    rw [hnode] at hnode'
    cases hnode'
  | some node =>
    by_cases hincludes : includes depth node = true
    · have hchild := Reads.child hparent hkind hdepth hnode hincludes
      obtain ⟨x, hvisit, hx, htx, hxnode⟩ := visit_eq hv ht hchild
      simp only [hincludes, if_true, hvisit]
      by_cases hdeeper : (node.isDirectory && depth == .infinity) = true
      · rw [if_pos hdeeper]
        simp only [Bool.and_eq_true, beq_iff_eq] at hdeeper
        obtain ⟨y, hy, hpart, hxy, hcovers⟩ := hbelow x _ hx hxnode hdeeper.1 hdeeper.2
        exact ⟨y, hy, hpart, htx.trans hxy, hcovers⟩
      · rw [if_neg hdeeper]
        refine ⟨x, rfl, hx, htx, .single hx hxnode fun names m hm => ?_⟩
        by_contra hne
        obtain ⟨parent', hparent', hkind', hdepth'⟩ := hm.of_below hne
        rw [hparent'.unique hchild, placed_isDirectory] at hkind'
        have hinfinity := hdepth'.resolve_left (Path.child_ne_root dir name)
        exact hdeeper (by simp [hkind', hinfinity])
    · simp only [hincludes, Bool.false_eq_true, if_false]
      refine ⟨t, rfl, ht, .refl t, fun names m hm => ?_⟩
      obtain ⟨node', hnode', hincludes'⟩ := hfirst names m hm
      rw [hnode] at hnode'
      cases hnode'
      exact absurd hincludes' hincludes

theorem descend_completes (hv : w.Views v) {levels : Nat} {parent : Node} (ht : w.PartOf v depth t)
    (hparent : t.nodes.get? dir = some parent) (hkind : parent.isDirectory = true)
    (hdepth : dir = .root ∨ depth = .infinity)
    (hlevels : ∀ names, v.nodes.contains (w.base.join (dir.join ⟨names⟩)) = true →
      names.length ≤ levels) :
    w.Completes v depth dir t (w.descend depth levels t dir) := by
  induction levels generalizing t dir parent with
  | zero =>
    refine ⟨t, rfl, ht, .refl t, .single ht hparent fun names m hm => ?_⟩
    exact List.eq_nil_of_length_eq_zero (Nat.le_zero.1 (hlevels names hm.contains))
  | succ levels ih =>
    have hreads := ht.nodes dir parent hparent
    have hstep : ∀ name x, w.PartOf v depth x →
        w.Completes v depth (dir.child name) x (w.enter depth levels dir parent.copySource x name) := by
      intro name x hx
      refine enter_completes hv hreads hkind hdepth hx fun y node hy hnode hdirectory hinfinity => ?_
      refine ih hy hnode hdirectory (.inr hinfinity) fun names hnames => ?_
      rw [← Path.join_cons] at hnames
      exact Nat.le_of_succ_le_succ (hlevels (name :: names) hnames)
    obtain ⟨y, hfold, ⟨hy, hty⟩, hcovers, -⟩ := foldlM_reaches
      (P := fun x => w.PartOf v depth x ∧ t.Within x)
      (Q := fun name x => w.Covers v depth (dir.child name) x)
      (childNames v.nodes (w.base.join dir))
      (fun name _ x hx => by
        obtain ⟨y, hy, hpart, hxy, hcovers⟩ := hstep name x hx.1
        exact ⟨y, hy, ⟨hpart, hx.2.trans hxy⟩, hcovers, fun _ h => h.within hxy⟩)
      ⟨ht, NodeTree.Within.refl t⟩
    refine ⟨y, ?_, hy, hty, ?_⟩
    · rw [descend_succ, hv.children _ hreads.contains, hparent]
      exact hfold
    · intro names m hm
      cases names with
      | nil =>
        have hdir : dir.join ⟨[]⟩ = dir := Path.join_root dir
        rw [hdir] at hm ⊢
        rw [← hreads.unique hm]
        exact hty dir parent hparent
      | cons name names =>
        rw [Path.join_cons] at hm ⊢
        obtain ⟨_, habove⟩ := hm.above
        refine hcovers name (mem_childNames_iff.2 ?_) names m hm
        rw [← Path.join_child]
        exact habove.contains

end TreeWalk

namespace Repository

def committed (r : Repository) (source : CopySource) : Option Node :=
  (r.snapshot? source.revision).bind fun s =>
    (s.get? source.path).map fun record => record.node source.path source.revision

def view? (r : Repository) : Origin → Option View
  | .revision n => (r.snapshot? n).map fun s =>
      ⟨s.map fun p record => record.node p n, fun p => (s.get? p).bind Record.copySource, r.committed⟩
  | .workingCopy => r.working.map fun w =>
      ⟨w.map fun p node => node.node p, fun p => (w.get? p).bind WorkingNode.copySource, r.committed⟩

def walkAt (r : Repository) (l : Location) (o : Options) : TreeWalk :=
  ⟨r.store, l.origin, l.path, o.tracksCopies l.origin⟩

variable {r : Repository}

theorem childrenIn_map {ν μ : Type} (tree : OrderedMap Path ν) (f : Path → ν → μ) {p : Path}
    (hp : (tree.map f).contains p = true) : childrenIn tree p = .ok (childNames (tree.map f) p) := by
  rw [OrderedMap.contains_map] at hp
  rw [childrenIn, if_pos hp, childNames, childNames, OrderedMap.keys_map]

theorem sourceNode_eq (w : TreeWalk) (hstore : w.store = r.store) (source : CopySource) :
    w.sourceNode source = .ok (r.committed source) := by
  rw [TreeWalk.sourceNode, hstore, committed]
  simp only [store, node?, snapshot, bind, Except.bind]
  cases r.snapshot? source.revision with
  | none => rfl
  | some s => rfl

theorem view?_views {origin : Origin} {v : View} (hv : r.view? origin = some v) (base : Path)
    (tracks : Bool) : TreeWalk.Views ⟨r.store, origin, base, tracks⟩ v := by
  cases origin with
  | revision n =>
    obtain ⟨s, hs, rfl⟩ := Option.map_eq_some_iff.1 hv
    have hsnapshot := snapshot_eq_ok_iff.2 hs
    refine ⟨fun p => ?_, fun p hp => ?_, fun p => ?_, sourceNode_eq _ rfl⟩
    · simp only [store, node?, hsnapshot, bind, Except.bind, OrderedMap.get?_map]
      rfl
    · simp only [store, children, hsnapshot, bind, Except.bind]
      exact childrenIn_map s _ hp
    · simp only [store, copySource?, hsnapshot, bind, Except.bind]
      rfl
  | workingCopy =>
    obtain ⟨w, hw, rfl⟩ := Option.map_eq_some_iff.1 hv
    have hworking := workingTree_eq_ok_iff.2 hw
    refine ⟨fun p => ?_, fun p hp => ?_, fun p => ?_, sourceNode_eq _ rfl⟩
    · simp only [store, node?, hworking, bind, Except.bind, OrderedMap.get?_map]
      rfl
    · simp only [store, children, hworking, bind, Except.bind]
      exact childrenIn_map w _ hp
    · simp only [store, copySource?, hworking, bind, Except.bind]
      rfl

theorem depth_le_height {origin : Origin} {v : View} (hv : r.view? origin = some v) {p : Path}
    (hp : v.nodes.contains p = true) : p.depth ≤ r.store.height origin := by
  cases origin with
  | revision n =>
    obtain ⟨s, hs, rfl⟩ := Option.map_eq_some_iff.1 hv
    rw [OrderedMap.contains_map] at hp
    simpa [store, height, hs] using depth_le_treeHeight hp
  | workingCopy =>
    obtain ⟨w, hw, rfl⟩ := Option.map_eq_some_iff.1 hv
    rw [OrderedMap.contains_map] at hp
    simpa [store, height, hw] using depth_le_treeHeight hp

end Repository

theorem resolveTree_completes {r : Repository} {e : Endpoint} {o : Options} {l : Location} {v : View}
    (hl : e.locate r.store = .ok l) (hv : r.view? l.origin = some v) :
    (r.walkAt l o).Completes v o.depth .root (.absent l) (resolveTree r.store e o) := by
  have hviews : (r.walkAt l o).Views v := view?_views hv l.path (o.tracksCopies l.origin)
  have hempty : (r.walkAt l o).PartOf v o.depth (.absent l) :=
    ⟨OrderedMap.all_empty, fun source hsource => by cases hsource⟩
  have hnode : r.store.node? l.path l.origin = .ok (v.nodes.get? l.path) := hviews.node? l.path
  rw [resolveTree, hl]
  simp only [bind, Except.bind, hnode, asking, Except.mapError]
  cases hroot : v.nodes.get? l.path with
  | none =>
    refine ⟨.absent l, rfl, hempty, .refl _, fun names m hm => ?_⟩
    obtain ⟨_, habove⟩ := hm.above
    obtain ⟨node, _, hnode', -⟩ := habove.eq_placed
    rw [Path.join_root] at hnode'
    exact absurd (hroot.symm.trans hnode') (Option.some_ne_none node).symm
  | some root =>
    obtain ⟨t, hvisit, ht, habsent, htroot⟩ := TreeWalk.visit_eq hviews hempty (.root hroot)
    change (r.walkAt l o).visit (.absent l) root .root none = .ok t at hvisit
    unfold walkAt at hvisit
    simp only [hvisit]
    by_cases hkind : root.isDirectory = true
    · rw [if_pos hkind]
      have hlevels : ∀ names, v.nodes.contains (l.path.join (Path.root.join ⟨names⟩)) = true →
          names.length ≤ r.store.height l.origin + 1 := fun names hnames => by
        have hdepth := depth_le_height hv hnames
        simp only [Path.depth, Path.join, Path.root, List.length_append, List.length_nil] at hdepth
        omega
      obtain ⟨t', ht', hpart, hwithin, hcovers⟩ :=
        TreeWalk.descend_completes hviews ht htroot hkind (.inl rfl) hlevels
      exact ⟨t', ht', hpart, habsent.trans hwithin, hcovers⟩
    · rw [if_neg hkind]
      refine ⟨t, rfl, ht, habsent, .single ht htroot fun names m hm => ?_⟩
      by_contra hne
      obtain ⟨parent, hparent, hkind', -⟩ := hm.of_below hne
      rw [hparent.unique (.root hroot)] at hkind'
      exact hkind hkind'

theorem resolveTree_reads {r : Repository} {e : Endpoint} {o : Options} {l : Location} {v : View}
    (hl : e.locate r.store = .ok l) (hv : r.view? l.origin = some v) :
    ∃ t, resolveTree r.store e o = .ok t ∧
      ∀ rel n, t.nodes.get? rel = some n ↔ (r.walkAt l o).Reads v o.depth rel n := by
  obtain ⟨t, ht, hpart, -, hcovers⟩ := resolveTree_completes (o := o) hl hv
  refine ⟨t, ht, fun rel n => ⟨hpart.nodes rel n, fun h => ?_⟩⟩
  have hrel : Path.root.join ⟨rel.names⟩ = rel := Path.root_join rel
  rw [← hrel] at h ⊢
  exact hcovers rel.names n h

theorem view?_of_node?_eq_ok {r : Repository} {p : Path} {origin : Origin} {found : Option Node}
    (h : r.node? p origin = .ok found) : ∃ v, r.view? origin = some v := by
  cases origin with
  | revision n =>
    obtain ⟨s, hs, -⟩ := bind_eq_ok_iff.1 h
    rw [snapshot_eq_ok_iff] at hs
    exact ⟨_, congrArg (Option.map _) hs⟩
  | workingCopy =>
    obtain ⟨w, hw, -⟩ := bind_eq_ok_iff.1 h
    rw [workingTree_eq_ok_iff] at hw
    exact ⟨_, congrArg (Option.map _) hw⟩

theorem resolveTree_eq_ok {r : Repository} {e : Endpoint} {o : Options} {t : NodeTree}
    (h : resolveTree r.store e o = .ok t) :
    ∃ l v, e.locate r.store = .ok l ∧ r.view? l.origin = some v ∧ t.origin = l.origin ∧
      ∀ rel n, t.nodes.get? rel = some n ↔ (r.walkAt l o).Reads v o.depth rel n := by
  obtain ⟨l, hl, hsound⟩ := resolveTree_sound h
  obtain ⟨l', hl', hrest⟩ := bind_eq_ok_iff.1 h
  rw [hl] at hl'
  cases hl'
  obtain ⟨found, hfound, -⟩ := bind_eq_ok_iff.1 hrest
  obtain ⟨v, hv⟩ := view?_of_node?_eq_ok (asking_eq_ok_iff.1 hfound)
  obtain ⟨t', ht', hreads⟩ := resolveTree_reads (o := o) hl hv
  rw [h] at ht'
  cases ht'
  exact ⟨l, v, hl, hv, hsound.origin, hreads⟩

theorem Node.isDirectory_eq_of_state {a b : Node} (h : a.state = b.state) :
    a.isDirectory = b.isDirectory := by
  have hkind : a.kind = b.kind := congrArg NodeState.kind h
  rw [isDirectory, isDirectory, hkind]

theorem TreeWalk.includes_eq_of_state {depth : Depth} {a b : Node} (h : a.state = b.state) :
    includes depth a = includes depth b := by
  have hkind : a.kind = b.kind := congrArg NodeState.kind h
  cases depth <;> simp only [includes, Node.isFile, hkind]

/-- Where two views show the same states below the bases of two walks, both walks read the same
places. -/
theorem TreeWalk.Reads.transfer {w w' : TreeWalk} {v v' : View} {depth : Depth} {rel : Path} {n : Node}
    (hsame : ∀ rel, (v.nodes.get? (w.base.join rel)).map Node.state =
      (v'.nodes.get? (w'.base.join rel)).map Node.state)
    (h : w.Reads v depth rel n) : ∃ n', w'.Reads v' depth rel n' ∧ n'.state = n.state := by
  have hstep : ∀ rel {node}, v.nodes.get? (w.base.join rel) = some node →
      ∃ node', v'.nodes.get? (w'.base.join rel) = some node' ∧ node'.state = node.state := by
    intro rel node hnode
    have hrel := hsame rel
    rw [hnode, Option.map_some] at hrel
    obtain ⟨node', hnode', hstate⟩ := Option.map_eq_some_iff.1 hrel.symm
    exact ⟨node', hnode', hstate⟩
  induction h with
  | root hnode =>
    obtain ⟨node', hnode', hstate⟩ := hstep .root (by rwa [Path.join_root])
    rw [Path.join_root] at hnode'
    exact ⟨_, .root hnode', hstate⟩
  | child _ hkind hdepth hnode hincludes ih =>
    obtain ⟨parent', hparent', hstate'⟩ := ih
    obtain ⟨node', hnode', hstate⟩ := hstep _ hnode
    have hkind' : parent'.isDirectory = true := (Node.isDirectory_eq_of_state hstate').trans hkind
    rw [← TreeWalk.includes_eq_of_state hstate] at hincludes
    exact ⟨_, .child hparent' hkind' hdepth hnode' hincludes, hstate⟩

end TreeDelta
