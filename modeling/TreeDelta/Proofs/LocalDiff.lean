import TreeDelta.Proofs.PlainComparison
set_option autoImplicit false

namespace TreeDelta

open Repository

def PairResult.unlabelled (x : PairResult) : PairResult := { x with oldLabel := "", newLabel := "" }

/-- Two nodes of one state at one place of the repository. -/
structure Node.SamePlace (a a' : Node) : Prop where
  state : a'.state = a.state
  reposPath : a'.reposPath = a.reposPath

section SamePlaces

variable {o : Options} {old new old' new' : NodeTree}

theorem changedPairs_map_eq {γ : Type} {F G : NodePair → γ} {R : Node → Node → Prop}
    (hplain : o.noticeAncestry = false) (hnew : new.IsPlain) (hnew' : new'.IsPlain)
    (hstate : ∀ x x', R x x' → x'.state = x.state)
    (hnone : ∀ path origin origin', R (.nonexistent path origin) (.nonexistent path origin'))
    (hsame : ∀ path change x x' y y', R x x' → R y y' →
      F ⟨path, change, x, y, none⟩ = G ⟨path, change, x', y', none⟩)
    (holds : ∀ path, Option.Rel R (old.nodes.get? path) (old'.nodes.get? path))
    (hnews : ∀ path, Option.Rel R (new.nodes.get? path) (new'.nodes.get? path)) :
    (changedPairs o old new).map F = (changedPairs o old' new').map G := by
  rw [changedPairs_isPlain hplain hnew, changedPairs_isPlain hplain hnew', List.map_flatMap,
    List.map_flatMap, OrderedMap.unionKeys_congr (fun path => OrderedMap.contains_eq_of_rel (holds path))
      fun path => OrderedMap.contains_eq_of_rel (hnews path)]
  exact congrArg (List.flatMap · _) <| funext fun path =>
    plainChanges_map_eq hstate (hnone path) (hsame path) (holds path) (hnews path)

/-- Comparisons below the root of the store tell no locations, and the same of nodes of one state at
one place, up to their labels. -/
theorem Frame.told_unlabelled {f g : Frame} (hstore : g.store.content? = f.store.content?)
    (hoptions : g.options = f.options) (hroot : displayPath g.root = displayPath f.root)
    (hf : f.tellsLocations = false) (hg : g.tellsLocations = false) (path : Path) (change : ChangeKind)
    {x x' y y' : Node} (hx : x.SamePlace x') (hy : y.SamePlace y') :
    (f.told ⟨path, change, x, y, none⟩).unlabelled = (g.told ⟨path, change, x', y', none⟩).unlabelled := by
  have hpresent : ∀ {a a' : Node}, a.SamePlace a' →
      (a'.reposPath.filter fun _ => a'.isPresent) = a.reposPath.filter fun _ => a.isPresent := by
    intro a a' h
    rw [h.reposPath, Node.isPresent, Node.isPresent, (Node.state_eq_iff.1 h.state).1]
  have htold := Frame.told_congr (f := f) (g := g) (p := ⟨path, change, x, y, none⟩)
    (q := ⟨path, change, x', y', none⟩) hstore (by rw [hoptions]) rfl hx.state hy.state rfl
  rw [htold]
  simp only [PairResult.unlabelled, hroot, hpresent hx, hpresent hy, told, location?_eq_none hf,
    location?_eq_none hg]

theorem Frame.told_changedPairs {f g : Frame} (hstore : g.store.content? = f.store.content?)
    (hoptions : g.options = f.options) (hroot : displayPath g.root = displayPath f.root)
    (hf : f.tellsLocations = false) (hg : g.tellsLocations = false)
    (hplain : f.options.noticeAncestry = false) (hnew : f.new.IsPlain) (hnew' : g.new.IsPlain)
    (holds : ∀ path, Option.Rel Node.SamePlace (f.old.nodes.get? path) (g.old.nodes.get? path))
    (hnews : ∀ path, Option.Rel Node.SamePlace (f.new.nodes.get? path) (g.new.nodes.get? path)) :
    ((changedPairs f.options f.old f.new).map f.told).map PairResult.unlabelled =
      ((changedPairs g.options g.old g.new).map g.told).map PairResult.unlabelled := by
  rw [List.map_map, List.map_map, hoptions]
  exact changedPairs_map_eq hplain hnew hnew' (fun _ _ h => h.state) (fun _ _ _ => ⟨rfl, rfl⟩)
    (fun path change _ _ _ _ hx hy => told_unlabelled hstore hoptions hroot hf hg path change hx hy)
    holds hnews

end SamePlaces

variable {r r' : Repository} {w : WorkingTree}

theorem resolveTree_samePlace {e e' : Endpoint} {l l' : Location} {v v' : View}
    (hl : e.locate r.store = .ok l) (hl' : e'.locate r'.store = .ok l') (hpath : l'.path = l.path)
    (hv : r.view? l.origin = some v) (hv' : r'.view? l'.origin = some v')
    (hsame : ∀ p, (v.nodes.get? p).map Node.state = (v'.nodes.get? p).map Node.state)
    (hplaces : v.nodes.All fun p n => n.reposPath = some p)
    (hplaces' : v'.nodes.All fun p n => n.reposPath = some p) (o : Options) :
    ∃ t t', resolveTree r.store e o = .ok t ∧ resolveTree r'.store e' o = .ok t' ∧
      ∀ rel, Option.Rel Node.SamePlace (t.nodes.get? rel) (t'.nodes.get? rel) := by
  obtain ⟨t, ht, hreads⟩ := resolveTree_reads (o := o) hl hv
  obtain ⟨t', ht', hreads'⟩ := resolveTree_reads (o := o) hl' hv'
  refine ⟨t, t', ht, ht', fun rel => ?_⟩
  have hstates := states_eq_of_reads hreads hreads'
    (fun rel => by rw [walkAt, walkAt, hpath]; exact hsame _) rel
  cases hm : t.nodes.get? rel with
  | none =>
    rw [hm, Option.map_none] at hstates
    rw [Option.map_eq_none_iff.1 hstates.symm]
    exact .none
  | some m =>
    rw [hm, Option.map_some] at hstates
    obtain ⟨m', hm', hstate⟩ := Option.map_eq_some_iff.1 hstates.symm
    rw [hm']
    refine .some ⟨hstate, ?_⟩
    obtain ⟨node, inherited, hnode, rfl⟩ := ((hreads rel m).1 hm).eq_placed
    obtain ⟨node', inherited', hnode', rfl⟩ := ((hreads' rel m').1 hm').eq_placed
    have hplace : node'.reposPath = node.reposPath := by
      rw [hplaces _ _ hnode, hplaces' _ _ hnode', walkAt, walkAt, hpath]
    exact hplace

theorem blobs_commitWorkingCopy (h : r.commitWorkingCopy = .ok r') : r'.blobs = r.blobs := by
  obtain ⟨w, -, h⟩ := bind_eq_ok_iff.1 h
  split at h
  · cases h
  · cases h
    rfl

theorem locate_base_root (hr : r.Arises) (hw : r.working = some w) {node : WorkingNode} {b : Nat}
    (hnode : w.get? .root = some node) (hbase : node.base = some b) (hplace : node.reposPath = .root) :
    Endpoint.locate r.store ⟨.workingCopy .root, .base⟩ = .ok ⟨.revision b, .root⟩ := by
  obtain ⟨record, -, -, hchanged, -⟩ := ((hr.booksKept.working hw .root node hnode).atBase hbase).record
  have hlocate : Endpoint.locate r.store ⟨.workingCopy .root, .base⟩ =
      .ok ⟨.revision b, node.reposPath⟩ :=
    locate_recorded hw hnode hbase hchanged (by decide) rfl
  rwa [hplace] at hlocate

theorem view?_working_places (hw : r.working = some w)
    (hplace : ∀ p node, w.get? p = some node → node.reposPath = p) {v : View}
    (hv : r.view? .workingCopy = some v) : v.nodes.All fun p node => node.reposPath = some p := by
  obtain ⟨w', hw', rfl⟩ := Option.map_eq_some_iff.1 hv
  obtain rfl : w' = w := Option.some.inj (hw'.symm.trans hw)
  exact OrderedMap.all_map_iff.2 fun p node hnode => congrArg some (hplace p node hnode)

theorem states_base_commit {s : Snapshot} (hrevisions : r'.revisions = r.revisions ++ [s]) :
    ∃ v v', r.view? (.revision r.youngest) = some v ∧ r'.view? (.revision r.youngest) = some v' ∧
      ∀ p, (v.nodes.get? p).map Node.state = (v'.nodes.get? p).map Node.state := by
  have hold : r'.snapshot? r.youngest = some r.youngestSnapshot :=
    (snapshot?_append hrevisions).2 (.inl r.snapshot?_youngest)
  exact ⟨_, _, congrArg (Option.map _) r.snapshot?_youngest, congrArg (Option.map _) hold, fun _ => rfl⟩

theorem states_working_commit (hw : r.working = some w)
    (hrevisions : r'.revisions = r.revisions ++ [w.map r.recordOf]) :
    ∃ v v', r.view? .workingCopy = some v ∧ r'.view? (.revision r'.youngest) = some v' ∧
      (∀ p, (v.nodes.get? p).map Node.state = (v'.nodes.get? p).map Node.state) ∧
      ∀ p, v.nodes.contains p = w.contains p ∧ v'.nodes.contains p = w.contains p := by
  refine ⟨_, _, congrArg (Option.map _) hw,
    congrArg (Option.map _) (snapshot?_commitWorkingCopy hrevisions), fun p => ?_, fun p => ?_⟩
  · simp only [OrderedMap.get?_map, Option.map_map]
    exact congrArg (Option.map · (w.get? p))
      (funext fun node => (state_ofRecord_recordOf r p p 0 node).symm)
  · simp only [OrderedMap.contains_map, and_self]

theorem view?_revision_places {n : Nat} {v : View} (hv : r.view? (.revision n) = some v) :
    v.nodes.All fun p node => node.reposPath = some p := by
  obtain ⟨s, -, rfl⟩ := Option.map_eq_some_iff.1 hv
  exact OrderedMap.all_map_iff.2 fun p record _ => rfl

theorem displayPath_dot (path : Path) : displayPath "." path = displayPath "" path := by
  have hdot : trimSlashes "." = "." := rfl
  have hempty : trimSlashes "" = "" := rfl
  rw [displayPath, displayPath, hdot, hempty]
  simp

/-- The root text that a target of the working copy has by default prints the paths that the root of
the repository prints. -/
theorem displayPath_rootText (root : Option String) (o : Options) (e e' : Endpoint)
    (revision revision' : RevisionSpec) (kind kind' : NodeKind) :
    displayPath (ComparisonSpec.rootText ⟨e', ⟨.repository .root, revision'⟩, root, o⟩ kind') =
      displayPath (ComparisonSpec.rootText ⟨e, ⟨.workingCopy .root, revision⟩, root, o⟩ kind) := by
  funext path
  cases root with
  | some root => rfl
  | none =>
    have hworking : ComparisonSpec.rootText ⟨e, ⟨.workingCopy .root, revision⟩, none, o⟩ kind = "." := rfl
    rw [hworking, displayPath_dot]
    by_cases hfile : kind' = .file
    · rw [← displayPath_dot]
      simp only [ComparisonSpec.rootText, hfile, if_true]
      rfl
    · simp only [ComparisonSpec.rootText, hfile, if_false]

theorem compareTrees_samePlace (hr : ContentsHeld r) (hr' : ContentsHeld r') (hblobs : r'.blobs = r.blobs)
    {o : Options} (hvalid : o.validate = .ok ()) (hadds : o.showCopiesAsAdds = true)
    (hplain : o.noticeAncestry = false) {e₀ e₁ e₀' e₁' : Endpoint} {t₀ t₁ t₀' t₁' : NodeTree}
    (ht₀ : resolveTree r.store e₀ o = .ok t₀) (ht₁ : resolveTree r.store e₁ o = .ok t₁)
    (ht₀' : resolveTree r'.store e₀' o = .ok t₀') (ht₁' : resolveTree r'.store e₁' o = .ok t₁')
    (hpresent : t₁.isAbsent = false) (hpresent' : t₁'.isAbsent = false)
    (hlocation : t₀.location = t₁.location) (hlocation' : t₀'.location = t₁'.location)
    (holds : ∀ path, Option.Rel Node.SamePlace (t₀.nodes.get? path) (t₀'.nodes.get? path))
    (hnews : ∀ path, Option.Rel Node.SamePlace (t₁.nodes.get? path) (t₁'.nodes.get? path))
    {root : Option String} (hroot : ∀ kind kind',
      displayPath (ComparisonSpec.rootText ⟨e₀', e₁', root, o⟩ kind') =
        displayPath (ComparisonSpec.rootText ⟨e₀, e₁, root, o⟩ kind)) :
    ∃ results results', compareTrees r.store ⟨e₀, e₁, root, o⟩ = .ok results ∧
      compareTrees r'.store ⟨e₀', e₁', root, o⟩ = .ok results' ∧
      results.map PairResult.unlabelled = results'.map PairResult.unlabelled := by
  have hresolve := resolvePair_eq_ok_iff.2 ⟨ht₀, ht₁, by rw [hpresent, Bool.and_false]⟩
  have hresolve' := resolvePair_eq_ok_iff.2 ⟨ht₀', ht₁', by rw [hpresent', Bool.and_false]⟩
  have htracks : ∀ origin, o.tracksCopies origin = false := by simp [Options.tracksCopies, hadds]
  refine ⟨_, _, (compareTrees_eq_ok_iff hr).2 ⟨hvalid, t₀, t₁, hresolve, rfl⟩,
    (compareTrees_eq_ok_iff hr').2 ⟨hvalid, t₀', t₁', hresolve', rfl⟩, ?_⟩
  refine Frame.told_changedPairs ?_ rfl (hroot _ _) ?_ ?_ hplain (resolveTree_isPlain ht₁ (htracks _))
    (resolveTree_isPlain ht₁' (htracks _)) holds hnews
  · simp only [ComparisonSpec.frame, store, hblobs]
  · simp [Frame.tellsLocations, ComparisonSpec.frame, hlocation]
  · simp [Frame.tellsLocations, ComparisonSpec.frame, hlocation']

/-- A comparison of the working copy with its base shows what the commit then records, if nothing was
committed since the checkout. -/
theorem compareTrees_commitWorkingCopy (hr : r.Arises) (h : r.commitWorkingCopy = .ok r')
    (hw : r.working = some w) {node : WorkingNode} (hnode : w.get? .root = some node)
    (hbase : node.base = some r.youngest) {m n : UInt64} (hm : m.toNat = r.youngest)
    (hn : n.toNat = r'.youngest) {o : Options} (hvalid : o.validate = .ok ())
    (hadds : o.showCopiesAsAdds = true) (hplain : o.noticeAncestry = false) (root : Option String) :
    ∃ results results',
      compareTrees r.store ⟨⟨.workingCopy .root, .base⟩, ⟨.workingCopy .root, .working⟩, root, o⟩ =
        .ok results ∧
      compareTrees r'.store ⟨⟨.repository .root, .number m⟩, ⟨.repository .root, .number n⟩, root, o⟩ =
        .ok results' ∧
      results.map PairResult.unlabelled = results'.map PairResult.unlabelled := by
  obtain ⟨w', hw', hplace, hrevisions, -⟩ := commitWorkingCopy_eq_ok h
  obtain rfl : w = w' := Option.some.inj (hw.symm.trans hw')
  have hr' : r'.Reachable := by
    have hrun : (Operation.commitWorkingCopy.run r).1.Reachable := hr.reachable.run .commitWorkingCopy
    rwa [Operation.run, h] at hrun
  obtain ⟨v₀, v₀', hv₀, hv₀', hbases⟩ := states_base_commit hrevisions
  obtain ⟨v₁, v₁', hv₁, hv₁', hworkings, hplaces⟩ := states_working_commit hw hrevisions
  have hm' : Endpoint.locate r'.store ⟨.repository .root, .number m⟩ =
      .ok ⟨.revision r.youngest, .root⟩ := by
    rw [← hm]
    rfl
  have hn' : Endpoint.locate r'.store ⟨.repository .root, .number n⟩ =
      .ok ⟨.revision r'.youngest, .root⟩ := by
    rw [← hn]
    rfl
  obtain ⟨t₀, t₀', ht₀, ht₀', holds⟩ := resolveTree_samePlace
    (locate_base_root hr hw hnode hbase (hplace .root node hnode)) hm' rfl hv₀ hv₀' hbases
    (view?_revision_places hv₀) (view?_revision_places hv₀') o
  obtain ⟨t₁, t₁', ht₁, ht₁', hnews⟩ := resolveTree_samePlace (e := ⟨.workingCopy .root, .working⟩)
    (l := ⟨.workingCopy, .root⟩) rfl hn' rfl hv₁ hv₁' hworkings (view?_working_places hw hplace hv₁)
    (view?_revision_places hv₁') o
  have hroot : w.contains .root = true := OrderedMap.contains_iff.2 ⟨node, hnode⟩
  refine compareTrees_samePlace hr.reachable.contentsHeld hr'.contentsHeld (blobs_commitWorkingCopy h) hvalid
    hadds hplain ht₀ ht₁ ht₀' ht₁' ?_ ?_ ?_ ?_ holds hnews
    fun _ _ => displayPath_rootText _ _ _ _ _ _ _ _
  · rw [resolveTree_isAbsent (l := ⟨.workingCopy, .root⟩) rfl hv₁ ht₁, (hplaces .root).1, hroot]
    rfl
  · rw [resolveTree_isAbsent hn' hv₁' ht₁', (hplaces .root).2, hroot]
    rfl
  · rw [(resolveTree_location (l := ⟨.workingCopy, .root⟩) rfl ht₁).2,
      (resolveTree_location (locate_base_root hr hw hnode hbase (hplace .root node hnode)) ht₀).2]
  · rw [(resolveTree_location hm' ht₀').2, (resolveTree_location hn' ht₁').2]

namespace Rearranged

def operations : List Operation :=
  [.commit (Draft.empty.applyAll [.directory "d/e", .directory "f"]), .checkout 1,
   .edit (.copy "d" "g"), .edit (.delete "f"), .edit (.setProp "d" "p" "1")]

def repository : Repository := Repository.empty.runAll operations

theorem repository_arises : repository.Arises := by
  refine Repository.Arises.empty.runAll fun d hd => ?_
  obtain rfl : d = Draft.empty.applyAll [.directory "d/e", .directory "f"] := by
    simpa [operations] using hd
  exact .new _

def committed : Repository := (Operation.commitWorkingCopy.run repository).1

theorem commitWorkingCopy_eq : repository.commitWorkingCopy = .ok committed := rfl

def root : WorkingNode := ⟨.directory, none, .empty, .root, some 1, some 0, none, false⟩

theorem working_get? : ∃ w, repository.working = some w ∧ w.get? .root = some root :=
  ⟨_, rfl, rfl⟩

def options : Options := { Options.default with showCopiesAsAdds := true }

def before : ComparisonSpec := ⟨⟨.workingCopy .root, .base⟩, ⟨.workingCopy .root, .working⟩, none, options⟩

def after : ComparisonSpec := ⟨⟨.repository .root, .number 1⟩, ⟨.repository .root, .number 2⟩, none, options⟩

def told (x : Except DiffError (List PairResult)) : Option (List (String × ChangeKind)) :=
  x.toOption.map fun results => results.map fun x => (x.path.text, x.change)

end Rearranged

open Rearranged in
theorem compareTrees_commitWorkingCopy_rearranged :
    repository.Arises ∧ repository.commitWorkingCopy = .ok committed ∧
      (∃ w, repository.working = some w ∧ w.get? .root = some root) ∧
      ∃ results results', compareTrees repository.store before = .ok results ∧
        compareTrees committed.store after = .ok results' ∧
        results.map PairResult.unlabelled = results'.map PairResult.unlabelled ∧
        results.map (fun x => (x.path.text, x.change)) =
          [("d", .modified), ("f", .deleted), ("g", .added), ("g/e", .added)] := by
  obtain ⟨w, hw, hroot⟩ := working_get?
  obtain ⟨results, results', hresults, hresults', hsame⟩ := compareTrees_commitWorkingCopy
    repository_arises commitWorkingCopy_eq hw hroot rfl (m := 1) (n := 2) rfl rfl (o := options) rfl rfl rfl
    none
  refine ⟨repository_arises, commitWorkingCopy_eq, ⟨w, hw, hroot⟩, results, results', hresults, hresults',
    hsame, ?_⟩
  have htold : told (compareTrees repository.store before) =
      some [("d", .modified), ("f", .deleted), ("g", .added), ("g/e", .added)] := by decide +kernel
  have hbefore : compareTrees repository.store before = .ok results := hresults
  rw [hbefore] at htold
  exact Option.some.inj htold

end TreeDelta
