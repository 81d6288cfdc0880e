import TreeDelta.Proofs.PathOrder
import TreeDelta.Proofs.PlainComparison
set_option autoImplicit false

namespace TreeDelta

open Repository

theorem filterMap_below_ascending {l : List Path} (h : l.Pairwise fun p q => compare p q = .lt) (d : Path) :
    (l.filterMap fun p => p.below? d).Pairwise fun p q => compare p q = .lt := by
  refine List.pairwise_filterMap.2 (h.imp fun {p q} hlt rel hrel rel' hrel' => ?_)
  rw [Path.below?_eq_some_iff.1 hrel, Path.below?_eq_some_iff.1 hrel', Path.compare_join] at hlt
  exact hlt

theorem flatMap_below {α : Type} {d : Path} {F G : Path → List α} (l : List Path)
    (hbelow : ∀ rel, F (d.join rel) = G rel) (helse : ∀ p, p.below? d = none → F p = []) :
    l.flatMap F = (l.filterMap fun p => p.below? d).flatMap G := by
  induction l with
  | nil => rfl
  | cons p l ih =>
    rw [List.flatMap_cons, ih, List.filterMap_cons]
    cases hp : p.below? d with
    | none => rw [helse p hp, List.nil_append]
    | some rel => rw [Path.below?_eq_some_iff.1 hp, hbelow, List.flatMap_cons]

def View.HasParents (v : View) : Prop :=
  ∀ p name, v.nodes.contains (p.child name) = true →
    ∃ parent, v.nodes.get? p = some parent ∧ parent.isDirectory = true

theorem View.HasParents.contains_root {v : View} (h : v.HasParents) (p : Path) :
    v.nodes.contains p = true → v.nodes.contains .root = true := by
  induction p using Path.childInduction with
  | root => exact id
  | child dir name ih =>
    intro hp
    obtain ⟨parent, hparent, -⟩ := h dir name hp
    exact ih (OrderedMap.contains_iff.2 ⟨parent, hparent⟩)

section Walk

variable {w : TreeWalk} {v : View}

theorem TreeWalk.placed_untracked (htracks : w.tracksCopies = false) (node : Node) (rel : Path)
    (inherited : Option CopySource) :
    w.placed v node rel inherited = { node with path := rel, copySource := none } := by
  rw [placed, attached, htracks]
  rfl

theorem TreeWalk.reads_of_contains (htracks : w.tracksCopies = false) (hv : v.HasParents) (rel : Path) :
    ∀ node, v.nodes.get? (w.base.join rel) = some node →
      w.Reads v .infinity rel { node with path := rel, copySource := none } := by
  induction rel using Path.childInduction with
  | root =>
    intro node hnode
    rw [Path.join_root] at hnode
    have hread : w.Reads v .infinity .root _ := .root hnode
    rwa [placed_untracked htracks] at hread
  | child dir name ih =>
    intro node hnode
    obtain ⟨parent, hparent, hkind⟩ := hv (w.base.join dir) name <| by
      rw [← Path.join_child]
      exact OrderedMap.contains_iff.2 ⟨node, hnode⟩
    have hread := Reads.child (ih parent hparent) hkind (.inr rfl) hnode rfl
    rwa [placed_untracked htracks] at hread

theorem TreeWalk.reads_iff_of_hasParents (htracks : w.tracksCopies = false) (hv : v.HasParents) {rel : Path}
    {n : Node} : w.Reads v .infinity rel n ↔ ((v.nodes.get? (w.base.join rel)).map fun node =>
      { node with path := rel, copySource := none }) = some n := by
  rw [Option.map_eq_some_iff]
  constructor
  · intro h
    obtain ⟨node, inherited, hnode, rfl⟩ := h.eq_placed
    exact ⟨node, hnode, (placed_untracked htracks node rel inherited).symm⟩
  · rintro ⟨node, hnode, rfl⟩
    exact reads_of_contains htracks hv rel node hnode

end Walk

variable {r : Repository} {o : Options}

theorem resolveTree_of_hasParents {e : Endpoint} {l : Location} {v : View} (hl : e.locate r.store = .ok l)
    (hv : r.view? l.origin = some v) (hparents : v.HasParents) (hdepth : o.depth = .infinity)
    (htracks : o.tracksCopies l.origin = false) :
    ∃ t, resolveTree r.store e o = .ok t ∧ ∀ rel, t.nodes.get? rel =
      (v.nodes.get? (l.path.join rel)).map fun node => { node with path := rel, copySource := none } := by
  obtain ⟨t, ht, hreads⟩ := resolveTree_reads (o := o) hl hv
  refine ⟨t, ht, fun rel => Option.ext fun n => ?_⟩
  rw [hreads, hdepth]
  exact TreeWalk.reads_iff_of_hasParents (w := r.walkAt l o) htracks hparents

/-- The nodes are told alike, wherever they are in their trees. -/
structure Node.LooksLike (a a' : Node) : Prop where
  state : a'.state = a.state
  label : a'.label = a.label
  place : (a'.reposPath.filter fun _ => a'.isPresent) = a.reposPath.filter fun _ => a.isPresent

namespace PairResult

def undisplayed (x : PairResult) : PairResult := { x with displayPath := "" }

def below? (d : Path) (x : PairResult) : Option PairResult :=
  (x.path.below? d).map fun rel => { x with path := rel }

end PairResult

theorem Frame.told_below {f g : Frame} (hstore : g.store = f.store) (hoptions : g.options = f.options)
    (hf : f.tellsLocations = false) (hg : g.tellsLocations = false) (d rel : Path) (change : ChangeKind)
    {x x' y y' : Node} (hx : x.LooksLike x') (hy : y.LooksLike y') :
    ((f.told ⟨d.join rel, change, x, y, none⟩).below? d).map PairResult.undisplayed =
      some (g.told ⟨rel, change, x', y', none⟩).undisplayed := by
  have hbelow : (d.join rel).below? d = some rel := Path.below?_eq_some_iff.2 rfl
  have htold := Frame.told_congr (f := f) (g := g) (p := ⟨d.join rel, change, x, y, none⟩)
    (q := ⟨rel, change, x', y', none⟩) (by rw [hstore]) (by rw [hoptions]) rfl hx.state hy.state rfl
  rw [htold]
  simp only [PairResult.below?, PairResult.undisplayed, told, hbelow, Option.map_some,
    location?_eq_none hf, location?_eq_none hg, hx.label, hy.label, hx.place, hy.place]

section Trees

variable {f g : Frame} {d : Path}

theorem unionKeys_below
    (holds : ∀ rel, Option.Rel Node.LooksLike (f.old.nodes.get? (d.join rel)) (g.old.nodes.get? rel))
    (hnews : ∀ rel, Option.Rel Node.LooksLike (f.new.nodes.get? (d.join rel)) (g.new.nodes.get? rel)) :
    (f.old.nodes.unionKeys f.new.nodes).filterMap (fun p => p.below? d) =
      g.old.nodes.unionKeys g.new.nodes := by
  refine OrderedMap.eq_of_ascending (filterMap_below_ascending (OrderedMap.unionKeys_ascending _ _) d)
    (OrderedMap.unionKeys_ascending _ _) fun rel => ?_
  rw [OrderedMap.mem_unionKeys_iff, OrderedMap.contains_eq_of_rel (holds rel),
    OrderedMap.contains_eq_of_rel (hnews rel),
    ← OrderedMap.mem_unionKeys_iff, List.mem_filterMap]
  constructor
  · rintro ⟨p, hp, hrel⟩
    rwa [← Path.below?_eq_some_iff.1 hrel]
  · exact fun hp => ⟨d.join rel, hp, Path.below?_eq_some_iff.2 rfl⟩

/-- Where the trees of one comparison are those of another below `d`, it tells the part below `d`. -/
theorem Frame.told_changedPairs_below (hstore : g.store = f.store) (hoptions : g.options = f.options)
    (hf : f.tellsLocations = false) (hg : g.tellsLocations = false)
    (hplain : f.options.noticeAncestry = false) (hnew : f.new.IsPlain) (hnew' : g.new.IsPlain)
    (holds : ∀ rel, Option.Rel Node.LooksLike (f.old.nodes.get? (d.join rel)) (g.old.nodes.get? rel))
    (hnews : ∀ rel, Option.Rel Node.LooksLike (f.new.nodes.get? (d.join rel)) (g.new.nodes.get? rel)) :
    ((changedPairs g.options g.old g.new).map g.told).map PairResult.undisplayed =
      (((changedPairs f.options f.old f.new).map f.told).filterMap (PairResult.below? d)).map
        PairResult.undisplayed := by
  rw [changedPairs_isPlain hplain hnew, changedPairs_isPlain (by rw [hoptions]; exact hplain) hnew',
    List.map_flatMap, List.map_flatMap, List.map_flatMap, List.filterMap_flatMap, List.map_flatMap,
    ← unionKeys_below holds hnews]
  refine (flatMap_below _ (fun rel => ?_) fun p hp => ?_).symm
  · have hchanges :
        (plainChanges f.old.origin f.new.origin (d.join rel) (f.old.nodes.get? (d.join rel))
            (f.new.nodes.get? (d.join rel))).map
            (fun q => ((f.told q).below? d).map PairResult.undisplayed) =
          (plainChanges g.old.origin g.new.origin rel (g.old.nodes.get? rel) (g.new.nodes.get? rel)).map
            fun q => some (g.told q).undisplayed :=
      plainChanges_map_eq (R := Node.LooksLike) (fun _ _ h => h.state) (fun _ _ => ⟨rfl, rfl, rfl⟩)
        (fun change x x' y y' hx hy => told_below hstore hoptions hf hg d rel change hx hy) (holds rel)
        (hnews rel)
    have htold := congrArg (List.filterMap id) hchanges
    simpa only [List.filterMap_map, List.map_filterMap, List.map_map, Function.comp_def,
      id_eq, List.filterMap_eq_map', Option.map_map] using htold
  · have hnone : ∀ q ∈ plainChanges f.old.origin f.new.origin p (f.old.nodes.get? p) (f.new.nodes.get? p),
        (PairResult.below? d ∘ f.told) q = none := by
      intro q hq
      have hpath : (f.told q).path = p := (plainChanges_sides q hq).1
      rw [Function.comp_apply, PairResult.below?, hpath, hp]
      rfl
    rw [List.filterMap_map, List.filterMap_eq_nil_iff.2 hnone]
    rfl

end Trees

def Snapshot.HasParents (s : Snapshot) : Prop :=
  ∀ p name, s.contains (p.child name) = true → ∃ parent, s.get? p = some parent ∧ parent.kind = .directory

theorem Snapshot.hasParents_of_isProper {s : Snapshot} (h : s.shape.IsProper) : s.HasParents := by
  intro p name hp
  obtain ⟨record, hrecord⟩ := OrderedMap.contains_iff.1 hp
  obtain ⟨k, hk, hkind⟩ := h.parent p name (by rw [Snapshot.shape, hrecord]; exact Option.some_ne_none _)
  obtain ⟨parent, hparent, rfl⟩ := Option.map_eq_some_iff.1 hk
  exact ⟨parent, hparent, hkind⟩

theorem view?_hasParents {n : Nat} {s : Snapshot} (hs : r.snapshot? n = some s) (h : s.HasParents) :
    ∃ v, r.view? (.revision n) = some v ∧ v.HasParents ∧ ∀ p, v.nodes.contains p = s.contains p := by
  refine ⟨_, congrArg (Option.map _) hs, fun p name hp => ?_, fun p => OrderedMap.contains_map _ s p⟩
  rw [OrderedMap.contains_map] at hp
  obtain ⟨parent, hparent, hkind⟩ := h p name hp
  refine ⟨parent.node p n, ?_, ?_⟩
  · rw [OrderedMap.get?_map]
    exact congrArg (Option.map _) hparent
  · simp [Node.isDirectory, Record.node, hkind]

theorem resolveTree_below {n : UInt64} {v : View} (hv : r.view? (.revision n.toNat) = some v)
    (hparents : v.HasParents) (hplain : o.noticeAncestry = false) (hdepth : o.depth = .infinity) (d : Path) :
    ∃ t t', resolveTree r.store ⟨.repository .root, .number n⟩ o = .ok t ∧
      resolveTree r.store ⟨.repository d, .number n⟩ o = .ok t' ∧ t.IsPlain ∧ t'.IsPlain ∧
      ∀ rel, Option.Rel Node.LooksLike (t.nodes.get? (d.join rel)) (t'.nodes.get? rel) := by
  have htracks : o.tracksCopies (.revision n.toNat) = false := by simp [Options.tracksCopies, hplain]
  obtain ⟨t, ht, hget⟩ := resolveTree_of_hasParents (e := ⟨.repository .root, .number n⟩)
    (l := ⟨.revision n.toNat, .root⟩) rfl hv hparents hdepth htracks
  obtain ⟨t', ht', hget'⟩ := resolveTree_of_hasParents (e := ⟨.repository d, .number n⟩)
    (l := ⟨.revision n.toNat, d⟩) rfl hv hparents hdepth htracks
  refine ⟨t, t', ht, ht', ?_, ?_, fun rel => ?_⟩
  · refine resolveTree_isPlain ht ?_
    rwa [(resolveTree_location (l := ⟨.revision n.toNat, .root⟩) rfl ht).1]
  · refine resolveTree_isPlain ht' ?_
    rwa [(resolveTree_location (l := ⟨.revision n.toNat, d⟩) rfl ht').1]
  · rw [hget, hget', Path.root_join]
    cases v.nodes.get? (d.join rel) with
    | none => exact .none
    | some node => exact .some ⟨rfl, rfl, rfl⟩

/-- A comparison of two revisions tells below `d` what the comparison of `d` tells. -/
theorem compareTrees_below (hr : r.Reachable) {m n : UInt64} {s s' : Snapshot}
    (hs : r.snapshot? m.toNat = some s) (hs' : r.snapshot? n.toNat = some s') (hparents : s.HasParents)
    (hparents' : s'.HasParents) {d : Path} (hd : s.contains d = true ∨ s'.contains d = true)
    (hvalid : o.validate = .ok ()) (hplain : o.noticeAncestry = false) (hdepth : o.depth = .infinity)
    (root root' : Option String) :
    ∃ results below,
      compareTrees r.store ⟨⟨.repository .root, .number m⟩, ⟨.repository .root, .number n⟩, root, o⟩ =
        .ok results ∧
      compareTrees r.store ⟨⟨.repository d, .number m⟩, ⟨.repository d, .number n⟩, root', o⟩ =
        .ok below ∧
      below.map PairResult.undisplayed =
        (results.filterMap (PairResult.below? d)).map PairResult.undisplayed := by
  obtain ⟨v, hv, hv_parents, hv_contains⟩ := view?_hasParents hs hparents
  obtain ⟨v', hv', hv_parents', hv_contains'⟩ := view?_hasParents hs' hparents'
  obtain ⟨old, old', hold, hold', -, -, holds⟩ := resolveTree_below hv hv_parents hplain hdepth d
  obtain ⟨new, new', hnew, hnew', hnew_plain, hnew_plain', hnews⟩ :=
    resolveTree_below hv' hv_parents' hplain hdepth d
  have hroot : v.nodes.contains .root = true ∨ v'.nodes.contains .root = true := by
    rw [← hv_contains, ← hv_contains'] at hd
    exact hd.imp (hv_parents.contains_root d) (hv_parents'.contains_root d)
  have hresolve := resolvePair_eq_ok_iff.2 ⟨hold, hnew, by
    rw [resolveTree_isAbsent (l := ⟨.revision m.toNat, .root⟩) rfl hv hold,
      resolveTree_isAbsent (l := ⟨.revision n.toNat, .root⟩) rfl hv' hnew]
    simpa only [Bool.and_eq_false_iff, Bool.not_eq_false'] using hroot⟩
  have hresolve' := resolvePair_eq_ok_iff.2 ⟨hold', hnew', by
    rw [resolveTree_isAbsent (l := ⟨.revision m.toNat, d⟩) rfl hv hold',
      resolveTree_isAbsent (l := ⟨.revision n.toNat, d⟩) rfl hv' hnew', hv_contains, hv_contains']
    simpa only [Bool.and_eq_false_iff, Bool.not_eq_false'] using hd⟩
  refine ⟨_, _, (compareTrees_eq_ok_iff hr.contentsHeld).2 ⟨hvalid, old, new, hresolve, rfl⟩,
    (compareTrees_eq_ok_iff hr.contentsHeld).2 ⟨hvalid, old', new', hresolve', rfl⟩, ?_⟩
  refine Frame.told_changedPairs_below rfl rfl ?_ ?_ hplain hnew_plain hnew_plain' holds hnews
  · simp [Frame.tellsLocations, ComparisonSpec.frame,
      (resolveTree_location (l := ⟨.revision m.toNat, .root⟩) rfl hold).2,
      (resolveTree_location (l := ⟨.revision n.toNat, .root⟩) rfl hnew).2]
  · simp [Frame.tellsLocations, ComparisonSpec.frame,
      (resolveTree_location (l := ⟨.revision m.toNat, d⟩) rfl hold').2,
      (resolveTree_location (l := ⟨.revision n.toNat, d⟩) rfl hnew').2]

namespace TwoRevisions

def before : Draft := Draft.empty.applyAll [.directory "d/e", .directory "f"]

def after : Draft := Draft.empty.applyAll [.directory "d/g", .setProp "d" "p" "1", .directory "f/h"]

def operations : List Operation := [.commit before, .commit after]

def repository : Repository := Repository.empty.runAll operations

theorem repository_isProper : repository.Grounded fun k => k = .directory := by
  refine runAll_grounded rfl empty_grounded_proper fun d hd => ?_
  obtain rfl | rfl : d = before ∨ d = after := by simpa [operations] using hd
  · change before.shape.IsProper
    decide
  · change after.shape.IsProper
    decide

def directory : Path := Path.root.child ⟨"d", Eq.refl true⟩

def comparison (p : Path) : Except DiffError (List PairResult) :=
  compareTrees repository.store ⟨⟨.repository p, .number 1⟩, ⟨.repository p, .number 2⟩, none, .default⟩

def told (x : Except DiffError (List PairResult)) : Option (List (String × ChangeKind)) :=
  x.toOption.map fun results => results.map fun x => (x.path.text, x.change)

end TwoRevisions

open TwoRevisions in
theorem compareTrees_below_twoRevisions :
    repository.Reachable ∧ (∃ s s', repository.snapshot? 1 = some s ∧ repository.snapshot? 2 = some s' ∧
      s.HasParents ∧ s'.HasParents ∧ s.contains directory = true) ∧
      ∃ results below, comparison .root = .ok results ∧ comparison directory = .ok below ∧
        below.map PairResult.undisplayed =
          (results.filterMap (PairResult.below? directory)).map PairResult.undisplayed ∧
        told (.ok below) = some [("", .modified), ("e", .deleted), ("g", .added)] := by
  have hreachable : repository.Reachable := Reachable.empty.runAll operations
  obtain ⟨s, hs⟩ : ∃ s, repository.snapshot? 1 = some s := ⟨_, rfl⟩
  obtain ⟨s', hs'⟩ : ∃ s, repository.snapshot? 2 = some s := ⟨_, rfl⟩
  have hparents := Snapshot.hasParents_of_isProper (repository_isProper.snapshot hs)
  have hparents' := Snapshot.hasParents_of_isProper (repository_isProper.snapshot hs')
  have hd : s.contains directory = true := by
    cases hs
    decide +kernel
  obtain ⟨results, below, hresults, hbelow, hsame⟩ := compareTrees_below hreachable (m := 1) (n := 2) hs hs'
    hparents hparents' (.inl hd) (o := .default) rfl rfl rfl none none
  have htold : told (comparison directory) = some [("", .modified), ("e", .deleted), ("g", .added)] := by
    decide +kernel
  have hcomparison : comparison directory = .ok below := hbelow
  rw [hcomparison] at htold
  exact ⟨hreachable, ⟨s, s', hs, hs', hparents, hparents', hd⟩, results, below, hresults, hbelow, hsame,
    htold⟩

end TreeDelta
