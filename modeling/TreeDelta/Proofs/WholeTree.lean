import TreeDelta.Proofs.ContentFree
import TreeDelta.Proofs.NearestRecord
import TreeDelta.Proofs.TargetAncestry
set_option autoImplicit false

namespace TreeDelta

open Repository

def Store.HasParents (s : Store) (origin : Origin) : Prop :=
  ∀ dir name node, s.node? (Path.child dir name) origin = .ok (some node) →
    ∃ parent, s.node? dir origin = .ok (some parent) ∧ parent.isDirectory = true

/-- The tree has each node that the store has at or below the place, once, and no others. Of what
the store says of a node, its path and its copy source are told anew. -/
structure NodeTree.IsWholeAt (s : Store) (l : Location) (t : NodeTree) : Prop where
  once : t.nodes.keys.Nodup
  keys : ∀ rel, rel ∈ t.nodes.keys ↔ ∃ node, s.node? (l.path.join rel) l.origin = .ok (some node)
  nodes : t.nodes.All fun rel n => ∃ node, s.node? (l.path.join rel) l.origin = .ok (some node) ∧
    n = { node with path := rel, copySource := n.copySource }

variable {r : Repository}

theorem Repository.Grounded.store_hasParents (h : r.Grounded fun k => k = .directory) (origin : Origin) :
    r.store.HasParents origin := by
  intro dir name node hnode
  cases origin with
  | revision n =>
    obtain ⟨s, hs, hnode⟩ := bind_eq_ok_iff.1 hnode
    obtain ⟨record, hrecord, -⟩ := Option.map_eq_some_iff.1 (Except.ok.inj hnode)
    obtain ⟨k, hk, rfl⟩ := (h.snapshot (snapshot_eq_ok_iff.1 hs)).parent dir name <| by
      rw [Snapshot.shape, hrecord]
      exact Option.some_ne_none _
    obtain ⟨parent, hparent, hkind⟩ := Option.map_eq_some_iff.1 hk
    refine ⟨parent.node dir n, ?_, by simp [Node.isDirectory, Record.node, hkind]⟩
    simp only [store, node?, hs, bind, Except.bind, hparent]
    rfl
  | workingCopy =>
    obtain ⟨w, hw, hnode⟩ := bind_eq_ok_iff.1 hnode
    obtain ⟨entry, hentry, -⟩ := Option.map_eq_some_iff.1 (Except.ok.inj hnode)
    obtain ⟨k, hk, rfl⟩ := (h.working (workingTree_eq_ok_iff.1 hw)).parent dir name <| by
      rw [WorkingTree.shape, hentry]
      exact Option.some_ne_none _
    obtain ⟨parent, hparent, hkind⟩ := Option.map_eq_some_iff.1 hk
    refine ⟨parent.node dir, ?_, by simp [Node.isDirectory, WorkingNode.node, hkind]⟩
    simp only [store, node?, hw, bind, Except.bind, hparent]
    rfl

theorem asking_ne_notFound {α : Type} (x : Except StoreError α) (text : String) :
    asking x ≠ .error (.notFound text) := by
  intro h
  cases x with
  | error e => cases h
  | ok a => cases h

theorem recorded_ne_notFound (hr : r.Arises) (path : Path) (text : String) :
    recorded r.store path ≠ .error (.notFound text) := by
  intro h
  cases hw : r.working with
  | some w =>
    obtain ⟨known, hknown, -⟩ := recorded_eq_ok hr hw path
    rw [hknown] at h
    cases h
  | none =>
    rcases bind_eq_error_iff.1 h with h | ⟨info, hinfo, -⟩
    · exact asking_ne_notFound _ text h
    · obtain ⟨w, hsome, -⟩ := bind_eq_ok_iff.1 (asking_eq_ok_iff.1 hinfo)
      rw [workingTree_eq_ok_iff, hw] at hsome
      cases hsome

theorem locate_ne_notFound (hr : r.Arises) (e : Endpoint) (text : String) :
    e.locate r.store ≠ .error (.notFound text) := by
  obtain ⟨target, revision⟩ := e
  intro h
  cases target with
  | repository path => cases revision <;> cases h
  | workingCopy path =>
    unfold Endpoint.locate at h
    dsimp only at h
    split at h
    · cases h
    · rcases bind_eq_error_iff.1 h with h | ⟨known, -, h⟩
      · exact recorded_ne_notFound hr path text h
      · rcases bind_eq_error_iff.1 h with h | ⟨n, -, h⟩
        · unfold Endpoint.recordedRevision at h
          dsimp only at h
          split at h
          · cases h
          · cases h
          · cases h
          · cases h
          · cases h
          · split at h <;> cases h
        · cases h

def TreeWalk.run (w : TreeWalk) (depth : Depth) (levels : Nat) (root : Node) :
    Except DiffError NodeTree := do
  let t ← w.visit (.absent ⟨w.origin, w.base⟩) root .root none
  if root.isDirectory then w.descend depth levels t .root else return t

theorem resolveTree_eq_run {e : Endpoint} {o : Options} {l : Location} {root : Node}
    (hl : e.locate r.store = .ok l) (hroot : r.store.node? l.path l.origin = .ok (some root)) :
    resolveTree r.store e o = (r.walkAt l o).run o.depth (r.store.height l.origin + 1) root := by
  rw [resolveTree, hl]
  simp only [bind, Except.bind, hroot]
  rfl

/-- All numbers of levels that reach below the deepest node give the same walk. -/
theorem TreeWalk.run_levels (o : Options) (depth : Depth) {l : Location} {root : Node}
    (hroot : r.store.node? l.path l.origin = .ok (some root)) {levels : Nat}
    (hlevels : r.store.height l.origin < levels) :
    (r.walkAt l o).run depth levels root =
      (r.walkAt l o).run depth (r.store.height l.origin + 1) root := by
  have hsame : r.store.SameTrees r.store := ⟨rfl, rfl, rfl, rfl, rfl⟩
  have hdepth := r.store_heightBounds l.path l.origin root hroot
  rw [← Path.join_root l.path] at hdepth
  have hdescend : ∀ t, (r.walkAt l o).descend depth levels t .root =
      (r.walkAt l o).descend depth (r.store.height l.origin + 1) t .root := fun t =>
    descend_sameTrees hsame (fun p n hn => r.store_heightBounds p l.origin n hn) t hdepth
      (by omega) (by omega)
  simp only [run, hdescend]

theorem node?_eq_ok_iff {l : Location} {v : View} (hv : r.view? l.origin = some v) {p : Path}
    {found : Option Node} : r.store.node? p l.origin = .ok found ↔ v.nodes.get? p = found := by
  have hnode : r.store.node? p l.origin = .ok (v.nodes.get? p) := (view?_views hv .root false).node? p
  rw [hnode, Except.ok.injEq]

theorem resolveTree_of_node? {e : Endpoint} (o : Options) {l : Location} {found : Option Node}
    (hl : e.locate r.store = .ok l) (hfound : r.store.node? l.path l.origin = .ok found) :
    ∃ t, resolveTree r.store e o = .ok t ∧ t.isAbsent = found.isNone := by
  obtain ⟨v, hv⟩ := view?_of_node?_eq_ok hfound
  obtain ⟨t, ht, -⟩ := resolveTree_reads (o := o) hl hv
  refine ⟨t, ht, ?_⟩
  rw [resolveTree_isAbsent hl hv ht, OrderedMap.contains, (node?_eq_ok_iff hv).1 hfound]
  cases found with
  | none => rfl
  | some node => rfl

theorem resolveTree_ne_notFound (hr : r.Arises) (e : Endpoint) (o : Options) (text : String) :
    resolveTree r.store e o ≠ .error (.notFound text) := by
  intro h
  rcases bind_eq_error_iff.1 h with hlocate | ⟨l, hl, hrest⟩
  · exact locate_ne_notFound hr e text hlocate
  · rcases bind_eq_error_iff.1 hrest with hask | ⟨found, hfound, -⟩
    · exact asking_ne_notFound _ text hask
    · obtain ⟨t, ht, -⟩ := resolveTree_of_node? o hl (asking_eq_ok_iff.1 hfound)
      rw [ht] at h
      cases h

theorem resolve_eq_notFound_iff (hr : r.Arises) {e : Endpoint} {o : Options} {text : String} :
    resolve r.store e o = .error (.notFound text) ↔ text = e.target.text ∧
      ∃ l, e.locate r.store = .ok l ∧ r.store.node? l.path l.origin = .ok none := by
  constructor
  · intro h
    rcases bind_eq_error_iff.1 h with h | ⟨t, ht, h⟩
    · exact absurd h (resolveTree_ne_notFound hr e o text)
    · split at h
      · rename_i habsent
        cases h
        obtain ⟨l, v, hl, hv, -⟩ := resolveTree_eq_ok ht
        refine ⟨rfl, l, hl, (node?_eq_ok_iff hv).2 (OrderedMap.get?_eq_none_iff.2 ?_)⟩
        rw [resolveTree_isAbsent hl hv ht] at habsent
        simpa using habsent
      · cases h
  · rintro ⟨rfl, l, hl, hnone⟩
    obtain ⟨t, ht, habsent⟩ := resolveTree_of_node? o hl hnone
    rw [resolve, ht]
    simp only [bind, Except.bind, habsent, Option.isNone_none, if_true]

theorem resolveTree_isWholeAt {e : Endpoint} {o : Options} (hdepth : o.depth = .infinity) {l : Location}
    (hl : e.locate r.store = .ok l) (hparents : r.store.HasParents l.origin) {t : NodeTree}
    (ht : resolveTree r.store e o = .ok t) : t.IsWholeAt r.store l := by
  obtain ⟨l', v, hl', hv, -, hreads⟩ := resolveTree_eq_ok ht
  obtain rfl : l = l' := Except.ok.inj (hl.symm.trans hl')
  obtain ⟨l', hl', hsound⟩ := resolveTree_sound ht
  obtain rfl : l = l' := Except.ok.inj (hl.symm.trans hl')
  have hview : v.HasParents := by
    intro dir name hchild
    obtain ⟨node, hnode⟩ := OrderedMap.contains_iff.1 hchild
    obtain ⟨parent, hparent, hkind⟩ := hparents dir name node ((node?_eq_ok_iff hv).2 hnode)
    exact ⟨parent, (node?_eq_ok_iff hv).1 hparent, hkind⟩
  refine ⟨OrderedMap.keys_nodup _, fun rel => ?_, hsound.nodes⟩
  rw [OrderedMap.mem_keys_iff, OrderedMap.contains_iff]
  constructor
  · rintro ⟨n, hn⟩
    obtain ⟨node, hnode, -⟩ := hsound.nodes rel n hn
    exact ⟨node, hnode⟩
  · rintro ⟨node, hnode⟩
    have hcontains : v.nodes.contains (l.path.join rel) = true :=
      OrderedMap.contains_iff.2 ⟨node, (node?_eq_ok_iff hv).1 hnode⟩
    obtain ⟨m, hm⟩ := TreeWalk.exists_reads (w := r.walkAt l o) hview rel hcontains
    exact ⟨m, (hreads rel m).2 (hdepth ▸ hm)⟩

/-- An endpoint without a limit is not found exactly if nothing stands at its place. If something
does, and every node at its origin stands in a directory, it has the whole tree there, which walks
of all sufficient numbers of levels come to. -/
theorem resolve_whole (hr : r.Arises) (e : Endpoint) {o : Options} (hdepth : o.depth = .infinity) :
    (∀ text, resolve r.store e o = .error (.notFound text) ↔ text = e.target.text ∧
      ∃ l, e.locate r.store = .ok l ∧ r.store.node? l.path l.origin = .ok none) ∧
    ∀ l root, e.locate r.store = .ok l → r.store.HasParents l.origin →
      r.store.node? l.path l.origin = .ok (some root) →
      ∃ t, resolve r.store e o = .ok t ∧ t.IsWholeAt r.store l ∧
        ∀ levels, r.store.height l.origin < levels →
          (r.walkAt l o).run .infinity levels root = .ok t := by
  refine ⟨fun text => resolve_eq_notFound_iff hr, fun l root hl hparents hroot => ?_⟩
  obtain ⟨t, ht, hpresent⟩ := resolveTree_of_node? o hl hroot
  refine ⟨t, ?_, resolveTree_isWholeAt hdepth hl hparents ht, fun levels hlevels => ?_⟩
  · rw [resolve, ht]
    simp only [bind, Except.bind, hpresent, Option.isNone_some, Bool.false_eq_true, if_false]
    rfl
  · rw [TreeWalk.run_levels o .infinity hroot hlevels, ← hdepth, ← resolveTree_eq_run hl hroot, ht]

namespace CopiedDirectory

def draft : Draft := Draft.empty.applyAll [.directory "d/e", .file "f" []]

def operations : List Operation :=
  [.commit draft, .checkout 1, .edit (.copy "d" "g"), .edit (.makeDirectory "g/e/h")]

def repository : Repository := Repository.empty.runAll operations

theorem repository_arises : repository.Arises := by
  refine Repository.Arises.empty.runAll fun d hd => ?_
  obtain rfl : d = draft := by simpa [operations] using hd
  exact .new _

theorem repository_isProper : repository.Grounded fun k => k = .directory := by
  refine runAll_grounded rfl empty_grounded_proper fun d hd => ?_
  obtain rfl : d = draft := by simpa [operations] using hd
  change draft.shape.IsProper
  decide

def copy : Path := Path.root.child ⟨"g", Eq.refl true⟩

def free : Path := Path.root.child ⟨"h", Eq.refl true⟩

end CopiedDirectory

open CopiedDirectory in
theorem resolve_whole_copiedDirectory :
    repository.Arises ∧ repository.store.HasParents .workingCopy ∧
      (∃ t, resolve repository.store ⟨.workingCopy copy, .working⟩ .default = .ok t ∧
        t.IsWholeAt repository.store ⟨.workingCopy, copy⟩ ∧
        t.nodes.keys.map Path.text = ["", "e", "e/h"]) ∧
      resolve repository.store ⟨.workingCopy free, .working⟩ .default = .error (.notFound "h") := by
  have hparents : repository.store.HasParents .workingCopy := repository_isProper.store_hasParents _
  obtain ⟨root, hroot⟩ : ∃ root, repository.store.node? copy .workingCopy = .ok (some root) := ⟨_, rfl⟩
  obtain ⟨t, ht, hwhole, -⟩ := (resolve_whole repository_arises ⟨.workingCopy copy, .working⟩
    (o := .default) rfl).2 ⟨.workingCopy, copy⟩ root rfl hparents hroot
  have hkeys : (resolve repository.store ⟨.workingCopy copy, .working⟩ .default).toOption.map
      (fun t => t.nodes.keys.map Path.text) = some ["", "e", "e/h"] := by decide +kernel
  rw [ht] at hkeys
  refine ⟨repository_arises, hparents, ⟨t, ht, hwhole, Option.some.inj hkeys⟩, ?_⟩
  exact ((resolve_whole repository_arises ⟨.workingCopy free, .working⟩ (o := .default) rfl).1 "h").2
    ⟨rfl, ⟨.workingCopy, free⟩, rfl, rfl⟩

end TreeDelta
