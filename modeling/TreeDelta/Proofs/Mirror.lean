import TreeDelta.Proofs.MirroredHunk
import TreeDelta.Proofs.PlainComparison
set_option autoImplicit false

namespace TreeDelta

open Repository

def ValueChange.mirror : ValueChange → ValueChange
  | added value => deleted value
  | deleted value => added value
  | modified old new => modified new old

def PropChange.mirror (c : PropChange) : PropChange := ⟨c.name, c.change.mirror⟩

def PropDiff.mirror (d : PropDiff) : PropDiff := ⟨d.changes.map PropChange.mirror⟩

def ContentDiff.mirror : ContentDiff → ContentDiff
  | text diff => text diff.mirror
  | binary old new => binary new old

def ChangeKind.mirror : ChangeKind → ChangeKind
  | added => deleted
  | deleted => added
  | change => change

def PairResult.mirror (x : PairResult) : PairResult where
  path := x.path
  displayPath := x.displayPath
  change := x.change.mirror
  nodeKind := x.nodeKind
  oldLabel := x.newLabel
  newLabel := x.oldLabel
  oldLocation := x.newLocation
  newLocation := x.oldLocation
  oldReposPath := x.newReposPath
  newReposPath := x.oldReposPath
  copiedFrom := x.copiedFrom
  oldExecutable := x.newExecutable
  newExecutable := x.oldExecutable
  textChanged := x.textChanged
  content := x.content.map ContentDiff.mirror
  props := x.props.mirror

/-- The mirror images, path by path. A deletion and an addition at one path trade places. -/
def mirrorAll : List PairResult → List PairResult
  | x :: y :: rest =>
    if x.path = y.path then y.mirror :: x.mirror :: mirrorAll rest
    else x.mirror :: mirrorAll (y :: rest)
  | [x] => [x.mirror]
  | [] => []

def NodePair.mirror (p : NodePair) : NodePair :=
  { p with change := p.change.mirror, left := p.right, right := p.left }

def Frame.mirror (f : Frame) : Frame := { f with old := f.new, new := f.old }

theorem ValueChange.between?_comm (old new : Option String) :
    between? new old = (between? old new).map mirror := by
  cases old with
  | none => cases new <;> rfl
  | some v =>
    cases new with
    | none => rfl
    | some w =>
      by_cases h : v = w
      · simp [between?, h]
      · simp [between?, h, Ne.symm h, mirror]

theorem PropDiff.between_comm (old new : Props) : between new old = (between old new).mirror := by
  rw [between, between, mirror, OrderedMap.unionKeys_comm, List.map_filterMap]
  refine congrArg PropDiff.mk (List.filterMap_congr fun name _ => ?_)
  rw [ValueChange.between?_comm, Option.map_map, Option.map_map]
  rfl

variable {o : Options}

theorem diffContent_mirror (hspace : o.ignoreSpace = .none) (heol : o.ignoreEolStyle = false) (s : Store)
    (a b : Node) :
    (diffContent s b a o).toOption.join = ((diffContent s a b o).toOption.join).map ContentDiff.mirror := by
  have hequal : (b.isFile && a.isFile && b.content == a.content && b.eolStyle == a.eolStyle) =
      (a.isFile && b.isFile && a.content == b.content && a.eolStyle == b.eolStyle) := by
    rw [Bool.and_comm b.isFile, BEq.comm (a := b.content), BEq.comm (a := b.eolStyle)]
  rw [diffContent, diffContent, hequal, Bool.and_comm (!b.isFile), Bool.or_comm b.isBinary]
  split
  · rfl
  split
  · rfl
  split
  · rfl
  cases shownBytes s a with
  | error e => cases shownBytes s b <;> rfl
  | ok old =>
    cases shownBytes s b with
    | error e => rfl
    | ok new =>
      have hempty : (diffLines o old new).mirror.isEmpty = (diffLines o old new).isEmpty := by
        simp [TextDiff.mirror, TextDiff.isEmpty]
      simp only [bind, Except.bind, diffLines_mirror hspace heol old new, hempty, Bool.and_assoc,
        Bool.and_comm b.isFile]
      split <;> rfl

theorem textDiffers_comm (kind : NodeKind) (a b : Node) :
    textDiffers kind b a = textDiffers kind a b := by
  rw [textDiffers, textDiffers, bne_comm, bne_comm (a := b.content), bne_comm (a := b.eolStyle)]

theorem Node.differs_comm (a b : Node) : b.differs a = a.differs b := by
  rw [differs, differs, bne_comm, bne_comm (a := b.props)]

theorem NodePair.OneKind.nodeKind_mirror {p : NodePair} (h : p.OneKind) :
    p.mirror.nodeKind = p.nodeKind := by
  have hkinds : ∀ k k' : NodeKind, k = .nonexistent ∨ k' = .nonexistent ∨ k = k' →
      (if k != .nonexistent then k else k') = if k' != .nonexistent then k' else k := by
    rintro (_ | _ | _) (_ | _ | _) <;> simp
  exact hkinds _ _ h

theorem Frame.mirror_options (f : Frame) : f.mirror.options = f.options := rfl

theorem Frame.told_mirror {f : Frame} (hspace : f.options.ignoreSpace = .none)
    (heol : f.options.ignoreEolStyle = false) (hadded : f.options.noDiffAdded = false)
    (hdeleted : f.options.noDiffDeleted = false) {p : NodePair} (h : p.OneKind) :
    f.mirror.told p.mirror = (f.told p).mirror := by
  have hlocation : ∀ t, f.mirror.location? t p.path = f.location? t p.path := by
    intro t
    rw [location?, location?, tellsLocations, tellsLocations, bne_comm]
    rfl
  have hsuppresses : ∀ change, f.options.suppresses change = false := by
    intro change
    rw [Options.suppresses, hadded, hdeleted, Bool.and_false, Bool.and_false]
    rfl
  have hcontent : (f.mirror.contentOf p.mirror).toOption.join =
      ((f.contentOf p).toOption.join).map ContentDiff.mirror := by
    rw [contentOf, contentOf, mirror_options, h.nodeKind_mirror, hsuppresses, hsuppresses]
    split
    · rfl
    · exact diffContent_mirror hspace heol f.store p.left p.right
  have hprops : f.mirror.propsOf p.mirror = (f.propsOf p).mirror := by
    rw [propsOf, propsOf, mirror_options]
    split
    · rfl
    · exact PropDiff.between_comm _ _
  rw [told, h.nodeKind_mirror, hcontent, hprops]
  simp only [told, PairResult.mirror, NodePair.mirror, textDiffers_comm _ p.left]
  rw [← hlocation, ← hlocation]
  rfl

theorem length_plainChanges_le (origin origin' : Origin) (path : Path) (a b : Option Node) :
    (plainChanges origin origin' path a b).length ≤ 2 := by
  fun_cases plainChanges <;> simp

theorem plainChanges_mirror (origin origin' : Origin) (path : Path) (a b : Option Node) :
    plainChanges origin' origin path b a =
      ((plainChanges origin origin' path a b).map NodePair.mirror).reverse := by
  cases a with
  | none => cases b <;> rfl
  | some a =>
    cases b with
    | none => rfl
    | some b =>
      rw [plainChanges, plainChanges, Node.differs_comm]
      by_cases hkind : a.kind = b.kind
      · rw [if_neg (not_not.2 hkind), if_neg (not_not.2 hkind.symm)]
        split <;> rfl
      · rw [if_pos hkind, if_pos (Ne.symm hkind)]
        rfl

theorem mirrorAll_append {path : Path} {l rest : List PairResult} (hlen : l.length ≤ 2)
    (hl : ∀ x ∈ l, x.path = path) (hrest : ∀ x ∈ rest, x.path ≠ path) :
    mirrorAll (l ++ rest) = (l.map PairResult.mirror).reverse ++ mirrorAll rest := by
  -- A path has one result or the two of a replacement; what follows belongs to other paths.
  rcases l with _ | ⟨x, _ | ⟨y, _ | ⟨z, l⟩⟩⟩
  · rfl
  · cases rest with
    | nil => rfl
    | cons y rest =>
      have hne : x.path ≠ y.path := by
        rw [hl x List.mem_cons_self]
        exact (hrest y List.mem_cons_self).symm
      rw [List.singleton_append, mirrorAll, if_neg hne]
      rfl
  · have heq : x.path = y.path :=
      (hl x List.mem_cons_self).trans (hl y (List.mem_cons_of_mem _ List.mem_cons_self)).symm
    rw [List.cons_append, List.singleton_append, mirrorAll, if_pos heq]
    rfl
  · simp at hlen

theorem mirrorAll_flatMap {paths : List Path} (hpaths : paths.Nodup) {g : Path → List PairResult}
    (hlen : ∀ path, (g path).length ≤ 2) (hg : ∀ path, ∀ x ∈ g path, x.path = path) :
    mirrorAll (paths.flatMap g) = paths.flatMap fun path => ((g path).map PairResult.mirror).reverse := by
  induction paths with
  | nil => rfl
  | cons path paths ih =>
    obtain ⟨hpath, hpaths⟩ := List.nodup_cons.1 hpaths
    rw [List.flatMap_cons, List.flatMap_cons, ← ih hpaths]
    refine mirrorAll_append (hlen path) (hg path) fun x hx heq => ?_
    obtain ⟨path', hpath', hx⟩ := List.mem_flatMap.1 hx
    exact hpath (heq ▸ (hg path' x hx).symm ▸ hpath')

theorem told_changedPairs_mirror {f : Frame} (hspace : f.options.ignoreSpace = .none)
    (heol : f.options.ignoreEolStyle = false) (hadded : f.options.noDiffAdded = false)
    (hdeleted : f.options.noDiffDeleted = false) (hancestry : f.options.noticeAncestry = false)
    (hold : f.old.IsPlain) (hnew : f.new.IsPlain) :
    (changedPairs f.options f.new f.old).map f.mirror.told =
      mirrorAll ((changedPairs f.options f.old f.new).map f.told) := by
  rw [changedPairs_isPlain hancestry hold, changedPairs_isPlain hancestry hnew, List.map_flatMap,
    List.map_flatMap, OrderedMap.unionKeys_comm f.old.nodes f.new.nodes, mirrorAll_flatMap]
  · refine congrArg (List.flatMap · _) (funext fun path => ?_)
    rw [plainChanges_mirror, List.map_reverse, List.map_map, List.map_map]
    refine congrArg List.reverse (List.map_congr_left fun p hp => ?_)
    exact Frame.told_mirror hspace heol hadded hdeleted (plainChanges_sides p hp).2
  · exact OrderedMap.unionKeys_nodup _ _
  · intro path
    rw [List.length_map]
    exact length_plainChanges_le _ _ _ _ _
  · intro path x hx
    obtain ⟨p, hp, rfl⟩ := List.mem_map.1 hx
    exact (plainChanges_sides p hp).1

variable {r : Repository}

theorem compareTrees_mirrored (hr : r.Reachable) (hcopies : o.showCopiesAsAdds = true)
    (hancestry : o.noticeAncestry = false) (hadded : o.noDiffAdded = false)
    (hdeleted : o.noDiffDeleted = false) (hspace : o.ignoreSpace = .none)
    (heol : o.ignoreEolStyle = false) {a b : Endpoint} {root : String} {results : List PairResult}
    (h : compareTrees r.store ⟨a, b, some root, o⟩ = .ok results) :
    compareTrees r.store ⟨b, a, some root, o⟩ = .ok (mirrorAll results) := by
  obtain ⟨hvalid, old, new, hresolve, rfl⟩ := (compareTrees_eq_ok_iff hr.contentsHeld).1 h
  obtain ⟨hold, hnew, hpresent⟩ := resolvePair_eq_ok_iff.1 hresolve
  have htracks : ∀ origin, o.tracksCopies origin = false := by simp [Options.tracksCopies, hcopies]
  have hresolve' : resolvePair r.store b a o = .ok (new, old) :=
    resolvePair_eq_ok_iff.2 ⟨hnew, hold, by rwa [Bool.and_comm]⟩
  refine (compareTrees_eq_ok_iff hr.contentsHeld).2 ⟨hvalid, new, old, hresolve', ?_⟩
  exact (told_changedPairs_mirror hspace heol hadded hdeleted hancestry
    (resolveTree_isPlain hold (htracks _)) (resolveTree_isPlain hnew (htracks _))).symm

/-- The comparison with its endpoints swapped succeeds alike and tells the mirror images. -/
theorem compareTrees_swap (hr : r.Reachable) (hcopies : o.showCopiesAsAdds = true)
    (hancestry : o.noticeAncestry = false) (hadded : o.noDiffAdded = false)
    (hdeleted : o.noDiffDeleted = false) (hspace : o.ignoreSpace = .none)
    (heol : o.ignoreEolStyle = false) (a b : Endpoint) (root : String) :
    ((∃ results, compareTrees r.store ⟨a, b, some root, o⟩ = .ok results) ↔
        ∃ results, compareTrees r.store ⟨b, a, some root, o⟩ = .ok results) ∧
      ∀ results, compareTrees r.store ⟨a, b, some root, o⟩ = .ok results →
        compareTrees r.store ⟨b, a, some root, o⟩ = .ok (mirrorAll results) := by
  have hmirror : ∀ (a b : Endpoint) (results : List PairResult),
      compareTrees r.store ⟨a, b, some root, o⟩ = .ok results →
        compareTrees r.store ⟨b, a, some root, o⟩ = .ok (mirrorAll results) := fun a b results h =>
    compareTrees_mirrored hr hcopies hancestry hadded hdeleted hspace heol h
  exact ⟨⟨fun ⟨_, h⟩ => ⟨_, hmirror a b _ h⟩, fun ⟨_, h⟩ => ⟨_, hmirror b a _ h⟩⟩, hmirror a b⟩

namespace Exchanged

def before : Draft := Draft.empty.applyAll [.file "a" [120, 10], .setProp "a" "p" "1", .directory "b"]

def after : Draft := Draft.empty.applyAll [.file "a" [121, 10], .file "b" [], .directory "c"]

def operations : List Operation := [.commit before, .commit after]

def repository : Repository := Repository.empty.runAll operations

def options : Options := { Options.default with showCopiesAsAdds := true }

def comparison (m n : UInt64) : Except DiffError (List PairResult) :=
  compareTrees repository.store
    ⟨⟨.repository .root, .number m⟩, ⟨.repository .root, .number n⟩, some "", options⟩

def told (x : Except DiffError (List PairResult)) : Option (List (String × ChangeKind)) :=
  x.toOption.map fun results => results.map fun x => (x.path.text, x.change)

def lines (x : PairResult) : List HunkLine :=
  match x.content with
  | some (.text diff) => diff.hunks.flatMap Hunk.lines
  | _ => []

def linesTold (x : Except DiffError (List PairResult)) : Option (List HunkLine) :=
  x.toOption.map fun results => results.flatMap lines

end Exchanged

open Exchanged in
theorem compareTrees_swap_exchanged :
    repository.Reachable ∧ (∃ results, comparison 1 2 = .ok results ∧
        comparison 2 1 = .ok (mirrorAll results)) ∧
      told (comparison 1 2) = some [("a", .modified), ("b", .deleted), ("b", .added), ("c", .added)] ∧
      told (comparison 2 1) = some [("a", .modified), ("b", .deleted), ("b", .added), ("c", .deleted)] ∧
      linesTold (comparison 1 2) = some [⟨.deleted, ⟨[120], some .lf⟩⟩, ⟨.added, ⟨[121], some .lf⟩⟩] ∧
      linesTold (comparison 2 1) = some [⟨.deleted, ⟨[121], some .lf⟩⟩, ⟨.added, ⟨[120], some .lf⟩⟩] := by
  have hreachable : repository.Reachable := Reachable.empty.runAll operations
  have hswap := compareTrees_swap hreachable (o := options) rfl rfl rfl rfl rfl rfl
    ⟨.repository .root, .number 1⟩ ⟨.repository .root, .number 2⟩ ""
  have htold : told (comparison 1 2) =
      some [("a", .modified), ("b", .deleted), ("b", .added), ("c", .added)] := by decide +kernel
  refine ⟨hreachable, ?_, htold, by decide +kernel, by decide +kernel, by decide +kernel⟩
  cases hresults : comparison 1 2 with
  | error e =>
    rw [hresults] at htold
    cases htold
  | ok results => exact ⟨results, rfl, hswap.2 results hresults⟩

end TreeDelta
