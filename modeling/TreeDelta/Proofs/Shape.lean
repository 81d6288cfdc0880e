import TreeDelta.Proofs.Operation
set_option autoImplicit false

/-!
# The shape of a tree

Which kinds of nodes stand where. A tree is *grounded* in some kinds if its root
is there and everything else stands right below a node of such a kind
(`Shape.Grounded`): in a connected tree a node of any kind, in a proper tree a
directory. No operation on a repository leaves a working copy or a revision less
grounded than the drafts that were committed (`Step.grounded`).
-/
namespace TreeDelta

open Repository

abbrev Shape := Path → Option NodeKind

def Snapshot.shape (s : Snapshot) : Shape := fun p => (s.get? p).map Record.kind

def WorkingTree.shape (w : WorkingTree) : Shape := fun p => (w.get? p).map WorkingNode.kind

def Draft.shape (d : Draft) : Shape :=
  fun p => ((d.nodes.insertIfNew .root .directory).get? p).map DraftNode.kind

namespace Shape

/-- The root is there and the parent of every other node, of a kind that `admits` them. -/
structure Grounded (admits : NodeKind → Prop) (s : Shape) : Prop where
  root : ∃ k, s .root = some k ∧ admits k
  parent : ∀ p n, s (p.child n) ≠ none → ∃ k, s p = some k ∧ admits k

def IsConnected (s : Shape) : Prop := s.Grounded fun _ => True

def IsProper (s : Shape) : Prop := s.Grounded fun k => k = .directory

variable {admits : NodeKind → Prop} {s t u : Shape}

theorem Grounded.connected (h : s.Grounded admits) : s.IsConnected where
  root := let ⟨k, hk, _⟩ := h.root; ⟨k, hk, trivial⟩
  parent p n hp := let ⟨k, hk, _⟩ := h.parent p n hp; ⟨k, hk, trivial⟩

theorem Grounded.free_below {p : Path} (h : s.Grounded admits) (hp : s p = none) (rel : Path) :
    s (p.join rel) = none := by
  induction rel using Path.childInduction with
  | root => rwa [Path.join_root]
  | child rel n ih =>
    by_contra hne
    obtain ⟨k, hk, -⟩ := h.parent (p.join rel) n (by rwa [← Path.join_child])
    rw [ih] at hk
    cases hk

/-- A subtree put into a tree leaves it grounded if the subtree is and if its top has a place to
stand. -/
theorem Grounded.graft {p q : Path} (hs : s.Grounded admits)
    (ht : ∀ rel n, t (p.join (rel.child n)) ≠ none → ∃ k, t (p.join rel) = some k ∧ admits k)
    (hbelow : ∀ rel, u (q.join rel) = t (p.join rel))
    (houtside : ∀ k, k.isAtOrBelow q = false → u k = s k)
    (htop : q = .root → ∃ k, t p = some k ∧ admits k)
    (hdir : ∀ dir n, q = dir.child n → ∃ k, s dir = some k ∧ admits k) : u.Grounded admits where
  root := by
    rcases q.eq_root_or_child with rfl | ⟨dir, n, rfl⟩
    · have hroot := hbelow .root
      rw [Path.join_root, Path.join_root] at hroot
      rw [hroot]
      exact htop rfl
    · rw [houtside .root (Path.root_isAtOrBelow_child dir n)]
      exact hs.root
  parent := by
    intro dir n hn
    by_cases hdirq : dir.isAtOrBelow q = true
    · obtain ⟨rel, rfl⟩ := Path.isAtOrBelow_iff.1 hdirq
      rw [← Path.join_child, hbelow] at hn
      rw [hbelow]
      exact ht rel n hn
    · rw [houtside dir (by simpa using hdirq)]
      by_cases hq : dir.child n = q
      · exact hdir dir n hq.symm
      · have houter : (dir.child n).isAtOrBelow q = false := by
          rw [Bool.eq_false_iff, ne_eq, Path.isAtOrBelow_child_iff]
          exact not_or.2 ⟨hq, hdirq⟩
        rw [houtside _ houter] at hn
        exact hs.parent dir n hn

theorem Grounded.add {dir : Path} {n : Name} {k : NodeKind} (hs : s.Grounded admits)
    (hdir : ∃ k, s dir = some k ∧ admits k) (hfree : s (dir.child n) = none)
    (hnew : u (dir.child n) = some k) (hrest : ∀ p, p ≠ dir.child n → u p = s p) :
    u.Grounded admits := by
  refine hs.graft (p := .root) (q := dir.child n) (t := fun rel => if rel = .root then some k else none)
    ?_ ?_ ?_ ?_ ?_
  · intro rel m hm
    rw [Path.root_join, if_neg (Path.child_ne_root rel m)] at hm
    exact absurd rfl hm
  · intro rel
    by_cases hrel : rel = .root
    · rw [Path.root_join, if_pos hrel, hrel, Path.join_root, hnew]
    · have hne : (dir.child n).join rel ≠ dir.child n := fun h =>
        hrel (Path.join_left_cancel (h.trans (Path.join_root _).symm))
      rw [Path.root_join, if_neg hrel, hrest _ hne]
      exact hs.free_below hfree rel
  · intro p hp
    refine hrest p ?_
    rintro rfl
    rw [Path.isAtOrBelow_self] at hp
    cases hp
  · intro h
    exact absurd h (Path.child_ne_root dir n)
  · intro dir' m h
    obtain ⟨rfl, -⟩ := Path.child_inj h
    exact hdir

theorem Grounded.cut {q : Path} (hs : s.Grounded admits) (hroot : u .root = s .root)
    (hbelow : ∀ p, p.isAtOrBelow q = true → p ≠ .root → u p = none)
    (houtside : ∀ p, p.isAtOrBelow q = false → u p = s p) : u.Grounded admits where
  root := by
    rw [hroot]
    exact hs.root
  parent p n hn := by
    have hout : (p.child n).isAtOrBelow q = false := by
      rw [Bool.eq_false_iff]
      exact fun h => hn (hbelow _ h (Path.child_ne_root p n))
    have hp : p.isAtOrBelow q = false := by
      rw [Bool.eq_false_iff]
      intro h
      rw [Path.isAtOrBelow_child_iff.2 (.inr h)] at hout
      cases hout
    rw [houtside _ hout] at hn
    rw [houtside _ hp]
    exact hs.parent p n hn

end Shape

theorem map_get?_insert_of_kind {ν : Type} {tree : OrderedMap Path ν} {kind : ν → NodeKind} {p : Path}
    {x y : ν} (hx : tree.get? p = some x) (hkind : kind y = kind x) (q : Path) :
    ((tree.insert p y).get? q).map kind = (tree.get? q).map kind := by
  by_cases hq : q = p
  · rw [hq, OrderedMap.get?_insert_self, hx, Option.map_some, Option.map_some, hkind]
  · rw [OrderedMap.get?_insert_ne tree y hq]

theorem WorkingTree.shape_eq_of_get? {w : WorkingTree} {p : Path} {node : WorkingNode}
    (h : w.get? p = some node) : w.shape p = some node.kind := by
  rw [shape, h, Option.map_some]

theorem WorkingTree.shape_eq_none {w : WorkingTree} {p : Path} (h : w.get? p = none) :
    w.shape p = none := by
  rw [shape, h, Option.map_none]

theorem WorkingTree.exists_parent {admits : NodeKind → Prop} {w : WorkingTree} {p : Path} {n : Name}
    {node : WorkingNode} (h : w.shape.Grounded admits) (hnode : w.get? (p.child n) = some node) :
    ∃ parent, w.get? p = some parent := by
  obtain ⟨k, hk, -⟩ := h.parent p n (by rw [shape_eq_of_get? hnode]; exact Option.some_ne_none _)
  obtain ⟨parent, hparent, -⟩ := Option.map_eq_some_iff.1 hk
  exact ⟨parent, hparent⟩

theorem shape_ofSnapshot (s : Snapshot) (n : Nat) : (WorkingTree.ofSnapshot s n).shape = s.shape := by
  funext p
  rw [WorkingTree.shape, WorkingTree.ofSnapshot, OrderedMap.get?_map, Option.map_map]
  rfl

theorem shape_map_recordOf (r : Repository) (w : WorkingTree) :
    Snapshot.shape (w.map r.recordOf) = w.shape := by
  funext p
  rw [Snapshot.shape, OrderedMap.get?_map, Option.map_map]
  exact congrArg (Option.map · (w.get? p)) (funext fun node => (Record.carry_fields _ _).1)

theorem shape_snapshotOf (r : Repository) (d : Draft) : (r.snapshotOf d).shape = d.shape := by
  funext p
  rw [Snapshot.shape, snapshotOf, OrderedMap.get?_map, Option.map_map]
  exact congrArg (Option.map · _) (funext fun node => (Record.carry_fields _ _).1)

theorem bare_isProper : Snapshot.bare.shape.IsProper where
  root := ⟨.directory, rfl, rfl⟩
  parent p n h := by
    refine absurd ?_ h
    rw [Snapshot.shape, Snapshot.bare, OrderedMap.get?_insert_ne _ _ (Path.child_ne_root p n)]
    rfl

theorem isProper_iff_entries {ν : Type} (tree : OrderedMap Path ν) (kind : ν → NodeKind) :
    (∀ dir ∈ Path.root :: tree.entries.filterMap fun e => e.1.parent?,
        (tree.get? dir).map kind = some .directory) ↔
      Shape.IsProper fun p => (tree.get? p).map kind := by
  simp only [List.forall_mem_cons, List.mem_filterMap, Path.parent?_eq_some_iff]
  constructor
  · rintro ⟨hroot, hparent⟩
    refine ⟨⟨_, hroot, rfl⟩, fun p n hn => ⟨_, hparent p ?_, rfl⟩⟩
    obtain ⟨x, hx⟩ := Option.ne_none_iff_exists'.1 (mt Option.map_eq_none_iff.2 hn)
    exact ⟨(p.child n, x), OrderedMap.get?_eq_some_iff.1 hx, n, rfl⟩
  · rintro ⟨⟨k, hroot, rfl⟩, hparent⟩
    refine ⟨hroot, ?_⟩
    rintro dir ⟨⟨p, x⟩, hmem, n, rfl⟩
    have hx := OrderedMap.get?_eq_some_iff.2 hmem
    obtain ⟨k, hk, rfl⟩ := hparent dir n (by rw [hx]; exact Option.some_ne_none _)
    exact hk

instance (s : Snapshot) : Decidable s.shape.IsProper :=
  decidable_of_iff _ (isProper_iff_entries s Record.kind)

instance (w : WorkingTree) : Decidable w.shape.IsProper :=
  decidable_of_iff _ (isProper_iff_entries w WorkingNode.kind)

instance (d : Draft) : Decidable d.shape.IsProper :=
  decidable_of_iff _ (isProper_iff_entries (d.nodes.insertIfNew .root .directory) DraftNode.kind)

variable {admits : NodeKind → Prop} {r r' : Repository} {w w' : WorkingTree}

theorem newLocation_shape {p reposPath : Path} {replaced : Bool} (hw : r.working = some w)
    (h : r.newLocation p = .ok (reposPath, replaced)) :
    w.shape p = none ∧ ∃ dir name, p = Path.child dir name ∧ w.shape dir = some .directory := by
  obtain ⟨hfree, dir, name, parent, hp, hparent, hkind, -⟩ := newLocation_eq_ok hw h
  exact ⟨WorkingTree.shape_eq_none hfree, dir, name, hp,
    (WorkingTree.shape_eq_of_get? hparent).trans (congrArg some hkind)⟩

theorem shape_insert_of_kind {p : Path} {node node' : WorkingNode} (hnode : w.get? p = some node)
    (hkind : node'.kind = node.kind) : WorkingTree.shape (w.insert p node') = w.shape :=
  funext (map_get?_insert_of_kind hnode hkind)

theorem insert_grounded {p reposPath : Path} {replaced : Bool} (node : WorkingNode)
    (hadmits : admits .directory) (hw : r.working = some w) (hwell : w.shape.Grounded admits)
    (hplace : r.newLocation p = .ok (reposPath, replaced)) :
    (WorkingTree.shape (w.insert p node)).Grounded admits := by
  obtain ⟨hfree, dir, name, rfl, hdir⟩ := newLocation_shape hw hplace
  have hnew : WorkingTree.shape (w.insert (dir.child name) node) (dir.child name) = some node.kind := by
    rw [WorkingTree.shape, OrderedMap.get?_insert_self, Option.map_some]
  refine hwell.add ⟨_, hdir, hadmits⟩ hfree hnew fun k hk => ?_
  rw [WorkingTree.shape, OrderedMap.get?_insert_ne w node hk]
  rfl

theorem withoutSubtree_grounded {p : Path} (hwell : w.shape.Grounded admits) (hroot : p.isRoot = false) :
    (WorkingTree.shape (withoutSubtree w p)).Grounded admits := by
  have houtside : ∀ k, k.isAtOrBelow p = false →
      WorkingTree.shape (withoutSubtree w p) k = w.shape k := by
    intro k hk
    rw [WorkingTree.shape, get?_withoutSubtree_outside hk]
    rfl
  refine hwell.cut (q := p) (houtside _ ?_) (fun k hk _ => ?_) houtside
  · rcases p.eq_root_or_child with rfl | ⟨dir, n, rfl⟩
    · cases hroot
    · exact Path.root_isAtOrBelow_child dir n
  · exact WorkingTree.shape_eq_none (get?_withoutSubtree_below hk)

theorem get?_copied_outside {p q reposPath k : Path} {replaced : Bool} (hk : k.isAtOrBelow q = false) :
    (w.insertMany (copiedNodes w p q reposPath replaced)).get? k = w.get? k := by
  rw [insertMany_copiedNodes, get?_graft_outside hk]

theorem get?_copied_below {p q reposPath : Path} {replaced : Bool} (hwell : w.shape.Grounded admits)
    (hfree : w.get? q = none) (rel : Path) :
    (w.insertMany (copiedNodes w p q reposPath replaced)).get? (q.join rel) =
      (w.get? (p.join rel)).map fun node =>
        copyOf node (reposPath.join rel) (replaced && rel.isRoot) := by
  have hnone := hwell.free_below (WorkingTree.shape_eq_none hfree) rel
  rw [WorkingTree.shape, Option.map_eq_none_iff] at hnone
  rw [insertMany_copiedNodes, get?_graft_below, hnone, Option.or_none]

theorem get?_switched_outside {p q k : Path} {n : Nat} {s : Snapshot} (hk : k.isAtOrBelow p = false) :
    ((withoutSubtree w p).insertMany (switchedNodes s p q n)).get? k = w.get? k := by
  rw [insertMany_switchedNodes, get?_graft_outside hk, get?_withoutSubtree_outside hk]

theorem get?_switched_below {p q : Path} {n : Nat} {s : Snapshot} (rel : Path) :
    ((withoutSubtree w p).insertMany (switchedNodes s p q n)).get? (p.join rel) =
      (s.get? (q.join rel)).map fun record => .ofRecord record (q.join rel) n := by
  have hcut : (withoutSubtree w p).get? (p.join rel) = none :=
    get?_withoutSubtree_below (Path.isAtOrBelow_join p rel)
  rw [insertMany_switchedNodes, get?_graft_below, hcut, Option.or_none]

theorem copied_grounded {p q reposPath : Path} {replaced : Bool} (hadmits : admits .directory)
    (hw : r.working = some w) (hwell : w.shape.Grounded admits)
    (hplace : r.newLocation q = .ok (reposPath, replaced)) :
    (WorkingTree.shape (w.insertMany (copiedNodes w p q reposPath replaced))).Grounded admits := by
  have hfree := (newLocation_eq_ok hw hplace).1
  obtain ⟨-, dir, name, rfl, hdir⟩ := newLocation_shape hw hplace
  refine hwell.graft (t := w.shape) (p := p) (q := dir.child name) ?_ (fun rel => ?_) (fun k hk => ?_)
    (fun h => absurd h (Path.child_ne_root dir name)) ?_
  · intro rel n hn
    rw [Path.join_child] at hn
    exact hwell.parent _ n hn
  · rw [WorkingTree.shape, get?_copied_below hwell hfree, Option.map_map]
    rfl
  · rw [WorkingTree.shape, get?_copied_outside hk]
    rfl
  · intro dir' m h
    obtain ⟨rfl, -⟩ := Path.child_inj h
    exact ⟨_, hdir, hadmits⟩

theorem switched_grounded {p q : Path} {n : Nat} {s : Snapshot} {here : WorkingNode} {there : Record}
    (hwell : w.shape.Grounded admits) (hs : s.shape.Grounded admits) (hp : w.get? p = some here)
    (hq : s.get? q = some there) (hkind : here.kind = there.kind) :
    (WorkingTree.shape ((withoutSubtree w p).insertMany (switchedNodes s p q n))).Grounded admits := by
  have hhere := WorkingTree.shape_eq_of_get? hp
  refine hwell.graft (t := s.shape) (p := q) (q := p) ?_ (fun rel => ?_) (fun k hk => ?_) ?_ ?_
  · intro rel m hm
    rw [Path.join_child] at hm
    exact hs.parent _ m hm
  · rw [WorkingTree.shape, get?_switched_below, Option.map_map]
    rfl
  · rw [WorkingTree.shape, get?_switched_outside hk]
    rfl
  · rintro rfl
    obtain ⟨k, hk, hadm⟩ := hwell.root
    rw [hhere] at hk
    cases hk
    exact ⟨there.kind, by rw [Snapshot.shape, hq, Option.map_some], hkind ▸ hadm⟩
  · rintro dir m rfl
    exact hwell.parent dir m (by rw [hhere]; exact Option.some_ne_none _)

/-- Every tree of the repository is grounded. -/
structure Repository.Grounded (admits : NodeKind → Prop) (r : Repository) : Prop where
  snapshot : ∀ {n s}, r.snapshot? n = some s → s.shape.Grounded admits
  working : ∀ {w}, r.working = some w → w.shape.Grounded admits

theorem LocalChange.grounded (h : LocalChange r w w') (hadmits : admits .directory)
    (hr : r.Grounded admits) (hw : r.working = some w) : w'.shape.Grounded admits := by
  have hwell := hr.working hw
  cases h with
  | setContent hnode _ _ =>
    rw [shape_insert_of_kind hnode]
    · exact hwell
    · rfl
  | setProps _ hnode =>
    rw [shape_insert_of_kind hnode]
    · exact hwell
    · rfl
  | addFile hplace _ => exact insert_grounded _ hadmits hw hwell hplace
  | addDirectory hplace => exact insert_grounded _ hadmits hw hwell hplace
  | delete hroot _ => exact withoutSubtree_grounded hwell hroot
  | copy _ _ hplace => exact copied_grounded hadmits hw hwell hplace
  | switch hs hp hq hkind => exact switched_grounded hwell (hr.snapshot hs) hp hq hkind

theorem Repository.Grounded.withWorking (h : r.Grounded admits) (hw : w.shape.Grounded admits) :
    Grounded admits { r with working := some w } where
  snapshot := h.snapshot
  working heq := Option.some.inj heq ▸ hw

theorem Repository.Grounded.append {s : Snapshot} (h : r.Grounded admits) (hs : s.shape.Grounded admits)
    (hrevisions : r'.revisions = r.revisions ++ [s]) (hworking : r'.working = r.working) :
    r'.Grounded admits where
  snapshot ht := by
    rcases (snapshot?_append hrevisions).1 ht with ht | ⟨-, rfl⟩
    · exact h.snapshot ht
    · exact hs
  working hw := h.working (hworking ▸ hw)

theorem LocalChanges.grounded (h : LocalChanges r r') (hadmits : admits .directory)
    (hr : r.Grounded admits) : r'.Grounded admits := by
  induction h with
  | refl => exact hr
  | step hw hchange _ ih => exact ih (hr.withWorking (hchange.grounded hadmits hr hw))

/-- No operation leaves a tree less grounded than the draft that it commits, if it commits one. -/
theorem Step.grounded {op : Operation} {out : Outcome} (h : Step r op out) (hadmits : admits .directory)
    (hr : r.Grounded admits) (hdraft : ∀ d, op = .commit d → d.shape.Grounded admits) :
    out.1.Grounded admits := by
  have hkeep : ∀ data, (r.keep data).Grounded admits := fun data => ⟨hr.snapshot, hr.working⟩
  cases h with
  | failed data _ => exact hkeep data
  | keptContent data => exact hkeep [data]
  | edited data hchanges => exact hchanges.grounded hadmits (hkeep data)
  | @checkedOut n s hs =>
    refine hr.withWorking ?_
    rw [shape_ofSnapshot]
    exact hr.snapshot hs
  | @committed d _ _ =>
    refine hr.append (s := r.snapshotOf d) ?_ rfl rfl
    rw [shape_snapshotOf]
    exact hdraft d rfl
  | @committedWorkingCopy w hw _ =>
    have hs : (Snapshot.shape (w.map r.recordOf)).Grounded admits := by
      rw [shape_map_recordOf]
      exact hr.working hw
    have hrevisions : Grounded admits { r with revisions := r.revisions ++ [w.map r.recordOf] } :=
      hr.append hs rfl rfl
    refine hrevisions.withWorking ?_
    rw [shape_ofSnapshot]
    exact hs

theorem empty_grounded_proper : Repository.empty.Grounded fun k => k = .directory where
  snapshot {n s} hs := by
    cases n with
    | zero =>
      cases hs
      exact bare_isProper
    | succ n => cases hs
  working hw := by cases hw

theorem runAll_grounded {ops : List Operation} (hadmits : admits .directory) (hr : r.Grounded admits)
    (hdrafts : ∀ d, .commit d ∈ ops → d.shape.Grounded admits) : (r.runAll ops).Grounded admits := by
  induction ops generalizing r with
  | nil => exact hr
  | cons op ops ih =>
    have hstep : (op.run r).1.Grounded admits :=
      (step_run r op).grounded hadmits hr fun d hd => hdrafts d (hd ▸ List.mem_cons_self)
    exact ih hstep fun d hd => hdrafts d (List.mem_cons_of_mem _ hd)

/-- As long as only proper trees are committed as drafts, every revision is a proper tree, and so is
every working copy on the way. -/
theorem runAll_isProper {ops : List Operation} (hdrafts : ∀ d, .commit d ∈ ops → d.shape.IsProper) :
    (∀ w, (Repository.empty.runAll ops).working = some w → w.shape.IsProper) ∧
      ∀ n s, (Repository.empty.runAll ops).snapshot? n = some s → s.shape.IsProper := by
  have hall : (Repository.empty.runAll ops).Grounded fun k => k = .directory :=
    runAll_grounded rfl empty_grounded_proper hdrafts
  exact ⟨fun _ hw => hall.working hw, fun _ _ hs => hall.snapshot hs⟩

namespace Rearrangement

def draft : Draft := Draft.empty.applyAll [.file "d/f" [97], .setProp "d" "p" "1"]

def operations : List Operation :=
  [.commit draft, .checkout 1, .edit (.copy "d" "e"), .edit (.move "d/f" "g"), .edit (.delete "d"),
   .edit (.makeDirectory "d"), .commitWorkingCopy, .edit (.switch "e" "^/d" 1)]

theorem draft_isProper {d : Draft} (hd : .commit d ∈ operations) : d.shape.IsProper := by
  obtain rfl : d = draft := by simpa [operations] using hd
  decide

end Rearrangement

open Rearrangement in
theorem runAll_isProper_rearrangement :
    (∀ d, .commit d ∈ operations → d.shape.IsProper) ∧
      (∃ w, (Repository.empty.runAll operations).working = some w ∧
        w.keys.map Path.text = ["", "d", "e", "e/f", "g"] ∧ w.shape.IsProper) ∧
      ∃ s, (Repository.empty.runAll operations).snapshot? 2 = some s ∧
        s.keys.map Path.text = ["", "d", "e", "e/f", "g"] ∧ s.shape.IsProper := by
  have hproper := runAll_isProper fun _ => draft_isProper
  refine ⟨fun _ => draft_isProper, ?_, ?_⟩
  · exact ⟨_, rfl, by decide +kernel, hproper.1 _ rfl⟩
  · exact ⟨_, rfl, by decide +kernel, hproper.2 2 _ rfl⟩

end TreeDelta
