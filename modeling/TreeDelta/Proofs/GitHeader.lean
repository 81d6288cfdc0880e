import TreeDelta.Proofs.PairPaths
import TreeDelta.Proofs.PrintedPath
import TreeDelta.Proofs.SummaryListing
set_option autoImplicit false

/-!
# The paths in a git header

The first line of a header names both sides by their places in the repository, a copy by the
place of its source. The lines before the hunks name them as they are printed. The two agree
exactly if the way down leads to that place from where the root text says (`git_header`): not
below a target that is printed without its own place, and not for what a copy was made from.
-/
namespace TreeDelta

open Repository

/-- If there is a node at all, it was read from a place in the repository. -/
def Node.HasPlace (n : Node) : Prop := n.isPresent = true → ∃ p, n.reposPath = some p

theorem Node.nonexistent_hasPlace (path : Path) (origin : Origin) : (nonexistent path origin).HasPlace := by
  intro h
  cases h

variable {r : Repository} {o : Options}

theorem node?_hasPlace {p : Path} {origin : Origin} {n : Node} (h : r.node? p origin = .ok (some n)) :
    n.HasPlace := by
  intro _
  cases origin with
  | revision k =>
    obtain ⟨s, -, h⟩ := bind_eq_ok_iff.1 h
    obtain ⟨record, -, rfl⟩ := Option.map_eq_some_iff.1 (Except.ok.inj h)
    exact ⟨_, rfl⟩
  | workingCopy =>
    obtain ⟨w, -, h⟩ := bind_eq_ok_iff.1 h
    obtain ⟨node, -, rfl⟩ := Option.map_eq_some_iff.1 (Except.ok.inj h)
    exact ⟨_, rfl⟩

theorem resolveTree_hasPlaces {e : Endpoint} {t : NodeTree} (h : resolveTree r.store e o = .ok t) :
    (t.nodes.All fun _ n => n.HasPlace) ∧ t.copySources.All fun _ n => n.HasPlace := by
  obtain ⟨l, -, hsound⟩ := resolveTree_sound h
  constructor
  · intro rel n hn
    obtain ⟨m, hm, heq⟩ := hsound.nodes rel n hn
    have hplace : m.HasPlace := node?_hasPlace hm
    rw [heq]
    exact hplace
  · intro source n hn
    obtain ⟨m, hm, heq⟩ := hsound.copySources source n hn
    change r.node? source.path (.revision source.revision) = .ok (some m) at hm
    have hplace : m.HasPlace := node?_hasPlace hm
    rw [heq]
    exact hplace

theorem sides_of_mem_changedPairs {old new : NodeTree} {q : NodePair} (hq : q ∈ changedPairs o old new) :
    q.Sides old new := by
  obtain ⟨p, hp, hq⟩ := List.mem_flatMap.1 hq
  exact sides_of_mem_expand (List.mem_flatMap.2 ⟨p, (List.mem_filter.1 hp).1, hq⟩)

theorem NodePair.Sides.hasPlaces {e e' : Endpoint} {old new : NodeTree} {q : NodePair}
    (hq : q.Sides old new) (h : resolvePair r.store e e' o = .ok (old, new)) :
    q.left.HasPlace ∧ q.right.HasPlace := by
  obtain ⟨hold, hnew⟩ := resolvePair_eq_ok h
  obtain ⟨holdNodes, -⟩ := resolveTree_hasPlaces hold
  obtain ⟨hnewNodes, hsources⟩ := resolveTree_hasPlaces hnew
  constructor
  · by_cases hchange : q.change = .copied
    · obtain ⟨source, -, hheld, -⟩ := hq.held hchange
      exact hsources source _ hheld
    · rcases hq.left hchange with ⟨origin, hnone⟩ | hleft
      · rw [hnone]
        exact Node.nonexistent_hasPlace _ _
      · exact holdNodes _ _ hleft
  · rcases hq.right with ⟨origin, hnone⟩ | hright
    · rw [hnone]
      exact Node.nonexistent_hasPlace _ _
    · exact hnewNodes _ _ hright

namespace Patch.Git

/-- The place that names the old side: that of the copy source, or where one of the sides was read. -/
def oldPlace? (x : PairResult) : Option Path :=
  (x.copiedFrom.map CopySource.path).or (x.oldReposPath.or x.newReposPath)

def newPlace? (x : PairResult) : Option Path := x.newReposPath.or x.oldReposPath

theorem gitPath_eq {x : PairResult} {p : Path} (h : newPlace? x = some p) : x.gitPath = p.text := by
  rw [newPlace?] at h
  rw [PairResult.gitPath, h]

theorem oldPath_eq {x : PairResult} {p : Path} (h : oldPlace? x = some p) : oldPath x = p.text := by
  rw [oldPlace?] at h
  rw [oldPath]
  cases hfrom : x.copiedFrom with
  | some source =>
    rw [hfrom] at h
    obtain rfl : source.path = p := Option.some.inj h
    rfl
  | none =>
    rw [hfrom] at h
    cases hold : x.oldReposPath with
    | some path =>
      rw [hold] at h
      obtain rfl : path = p := Option.some.inj h
      rfl
    | none =>
      rw [hold] at h
      have hnew : x.newReposPath = some p := h
      exact gitPath_eq (by rw [newPlace?, hnew, Option.some_or])

def minusPath (x : PairResult) : Option String :=
  if x.change = .added then none else some x.displayPath

def plusPath (x : PairResult) : Option String :=
  if x.change = .deleted then none else some x.displayPath

def side (letter : String) (location : Option String) : Option String → String
  | some path => letter ++ path ++ locationNote location
  | none => "/dev/null"

theorem labels_eq (x : PairResult) :
    labels x = line ("--- " ++ side "a/" x.oldLocation (minusPath x) ++ "\t(" ++ x.oldLabel ++ ")") ++
      line ("+++ " ++ side "b/" x.newLocation (plusPath x) ++ "\t(" ++ x.newLabel ++ ")") := by
  have hold : side "a/" x.oldLocation (minusPath x) =
      if x.change = .added then "/dev/null" else "a/" ++ x.displayPath ++ locationNote x.oldLocation := by
    rw [minusPath]
    split <;> rfl
  have hnew : side "b/" x.newLocation (plusPath x) =
      if x.change = .deleted then "/dev/null" else "b/" ++ x.displayPath ++ locationNote x.newLocation := by
    rw [plusPath]
    split <;> rfl
  rw [hold, hnew]
  rfl

theorem render_of_text {g : Git} {x : PairResult} {diff : TextDiff} (hkind : x.nodeKind = .file)
    (hchange : x.change ≠ .replaced ∧ x.change ≠ .unchanged) (hall : g.propertiesOnly = false)
    (hcontent : x.content = some (.text diff)) (hdiff : diff.isEmpty = false) :
    g.render x = index x.displayPath ++ line ("diff --git a/" ++ oldPath x ++ " b/" ++ x.gitPath) ++
      (extendedHeader x ++ (labels x ++ textHunks diff.hunks)) ++ propertySection x.displayPath x.props := by
  have hfile : x.isFile = true := by simp [PairResult.isFile, hkind]
  have hshows : shows x = true := by
    have hdirectory : x.isDirectory = false := by simp [PairResult.isDirectory, hkind]
    rw [shows, hdirectory]
    cases hx : x.change with
    | added | deleted | copied => rfl
    | modified => simp [hcontent]
    | replaced => exact absurd hx hchange.1
    | unchanged => exact absurd hx hchange.2
  have hbody : body x = labels x ++ textHunks diff.hunks := by simp [body, hcontent, hdiff]
  rw [render, hall, hshows, hfile, hbody]
  rfl

end Patch.Git

/-- Contents are compared of files only, and where a patch shows more than properties. -/
theorem Frame.contentOf_eq_some {f : Frame} {p : NodePair} {diff : ContentDiff}
    (h : f.contentOf p = .ok (some diff)) :
    f.options.summarizeOnly = false ∧ f.options.propertiesOnly = false ∧ p.nodeKind = .file := by
  unfold contentOf at h
  split at h
  · cases h
  · rename_i hnone
    simp only [Bool.or_eq_true, bne_iff_ne, not_or, Bool.not_eq_true, not_not] at hnone
    exact ⟨hnone.1.1.1, hnone.1.1.2, hnone.2⟩

theorem Frame.result_tells {f : Frame} {p : NodePair} {x : PairResult} (h : f.result p = .ok x) :
    f.contentOf p = .ok x.content ∧ x.displayPath = displayPath f.root x.path ∧ x.change = p.change ∧
      x.nodeKind = p.nodeKind ∧ x.oldReposPath = p.left.reposPath.filter (fun _ => p.left.isPresent) ∧
      x.newReposPath = p.right.reposPath.filter (fun _ => p.right.isPresent) := by
  obtain ⟨content, hcontent, h⟩ := bind_eq_ok_iff.1 h
  cases h
  exact ⟨hcontent, rfl, rfl, rfl, rfl, rfl⟩

theorem exists_places {f : Frame} {p : NodePair} {x : PairResult} (h : f.result p = .ok x)
    (hleft : p.left.HasPlace) (hright : p.right.HasPlace) (hkind : p.nodeKind = .file) :
    ∃ old new, Patch.Git.oldPlace? x = some old ∧ Patch.Git.newPlace? x = some new := by
  have hside : ∀ n : Node, n.HasPlace → n.isPresent = true →
      ∃ place, n.reposPath.filter (fun _ => n.isPresent) = some place := by
    intro n hn hpresent
    obtain ⟨place, hplace⟩ := hn hpresent
    exact ⟨place, by rw [hplace, hpresent]; rfl⟩
  obtain ⟨place, hplace⟩ : ∃ place, x.newReposPath = some place ∨ x.oldReposPath = some place := by
    obtain ⟨-, -, -, -, hold, hnew⟩ := Frame.result_tells h
    rw [hold, hnew]
    by_cases hpresent : p.right.isPresent = true
    · obtain ⟨place, hplace⟩ := hside p.right hright hpresent
      exact ⟨place, .inl hplace⟩
    · rw [NodePair.nodeKind, if_neg hpresent] at hkind
      obtain ⟨place, hplace⟩ := hside p.left hleft (by rw [Node.isPresent, hkind]; rfl)
      exact ⟨place, .inr hplace⟩
  have hnew : (Patch.Git.newPlace? x).isSome = true := by
    rcases hplace with hplace | hplace <;> simp [Patch.Git.newPlace?, hplace]
  have hold : (Patch.Git.oldPlace? x).isSome = true := by
    rcases hplace with hplace | hplace <;> simp [Patch.Git.oldPlace?, hplace]
  obtain ⟨old, hold⟩ := Option.isSome_iff_exists.1 hold
  obtain ⟨new, hnew⟩ := Option.isSome_iff_exists.1 hnew
  exact ⟨old, new, hold, hnew⟩

theorem Patch.Git.minusPath_iff {x : PairResult} {root : String} {place : Path}
    (hx : x.displayPath = displayPath root x.path) :
    (∀ p, minusPath x = some p → p = place.text) ↔ x.change = .added ∨ PrintsPlace root x.path place := by
  rw [← displayPath_eq_text_iff, ← hx, minusPath]
  split
  · rename_i hadded
    simp [hadded]
  · rename_i hadded
    simp [hadded]

theorem Patch.Git.plusPath_iff {x : PairResult} {root : String} {place : Path}
    (hx : x.displayPath = displayPath root x.path) :
    (∀ p, plusPath x = some p → p = place.text) ↔
      x.change = .deleted ∨ PrintsPlace root x.path place := by
  rw [← displayPath_eq_text_iff, ← hx, plusPath]
  split
  · rename_i hdeleted
    simp [hdeleted]
  · rename_i hdeleted
    simp [hdeleted]

open Patch Patch.Git in
/-- The header of a file with hunks names both sides by their places in the first line and by the
printed path before the hunks. A side is named alike, unless it is `/dev/null`, exactly if the printed
path leads to its place from where the root text says. -/
theorem git_header {spec : ComparisonSpec} {results : List PairResult}
    (h : compareTrees r.store spec = .ok results) (hgit : spec.options.gitStyle = true) {x : PairResult}
    (hx : x ∈ results) (hhunks : x.hasHunks = true) :
    ∃ (t t' : NodeTree) (old new : Path) (diff : TextDiff),
      resolvePair r.store spec.old spec.new spec.options = .ok (t, t') ∧
      x.content = some (.text diff) ∧ oldPlace? x = some old ∧ newPlace? x = some new ∧
      (Form.ofOptions spec.options).render x =
        index x.displayPath ++ line ("diff --git a/" ++ old.text ++ " b/" ++ new.text) ++
          (extendedHeader x ++
            (line ("--- " ++ side "a/" x.oldLocation (minusPath x) ++ "\t(" ++ x.oldLabel ++ ")") ++
              line ("+++ " ++ side "b/" x.newLocation (plusPath x) ++ "\t(" ++ x.newLabel ++ ")") ++
              textHunks diff.hunks)) ++
          propertySection x.displayPath x.props ∧
      ((∀ p, minusPath x = some p → p = old.text) ↔
        x.change = .added ∨ PrintsPlace (spec.frame r.store t t').root x.path old) ∧
      ((∀ p, plusPath x = some p → p = new.text) ↔
        x.change = .deleted ∨ PrintsPlace (spec.frame r.store t t').root x.path new) := by
  obtain ⟨_, -, h⟩ := bind_eq_ok_iff.1 h
  obtain ⟨⟨old, new⟩, hresolve, h⟩ := bind_eq_ok_iff.1 h
  obtain ⟨q, hq, hresult⟩ := exists_mem_of_mapM_eq_ok h hx
  obtain ⟨diff, hcontent, hdiff⟩ : ∃ diff, x.content = some (.text diff) ∧ diff.isEmpty = false := by
    unfold PairResult.hasHunks at hhunks
    split at hhunks
    · rename_i diff hcontent
      exact ⟨diff, hcontent, by simpa using hhunks⟩
    · cases hhunks
  obtain ⟨hread, hpath, hkept, hfile, -⟩ := Frame.result_tells hresult
  rw [hcontent] at hread
  obtain ⟨hsummary, hproperties, hkind⟩ := Frame.contentOf_eq_some hread
  dsimp only at hsummary hproperties
  obtain ⟨hleft, hright⟩ := (sides_of_mem_changedPairs hq).hasPlaces hresolve
  obtain ⟨old', new', hold, hnew⟩ := exists_places hresult hleft hright hkind
  have hchange := change_of_mem_changedPairs hq
  rw [← hkept] at hchange
  refine ⟨old, new, old', new', diff, hresolve, hcontent, hold, hnew, ?_, minusPath_iff hpath,
    plusPath_iff hpath⟩
  have hform : Form.ofOptions spec.options = .git ⟨false⟩ := by
    simp [Form.ofOptions, hsummary, hgit, Git.ofOptions, hproperties]
  rw [hform, Form.render, render_of_text (hfile.trans hkind) hchange rfl hcontent hdiff, oldPath_eq hold,
    gitPath_eq hnew, labels_eq]

namespace BelowRoot

def operations : List Operation :=
  [.commit (Draft.empty.applyAll [.file "d/f" [97, 10]]), .commit (Draft.empty.applyAll [.file "d/f" [98, 10]])]

def repository : Repository := Repository.empty.runAll operations

theorem repository_arises : repository.Arises := by
  refine Repository.Arises.empty.runAll fun d hd => ?_
  obtain rfl | rfl : d = Draft.empty.applyAll [.file "d/f" [97, 10]] ∨
      d = Draft.empty.applyAll [.file "d/f" [98, 10]] := by simpa [operations] using hd
  · exact .new _
  · exact .new _

def directory : Path := Path.root.child ⟨"d", Eq.refl true⟩

def spec : ComparisonSpec :=
  ⟨⟨.repository directory, .number 1⟩, ⟨.repository directory, .number 2⟩, none,
    { Options.default with gitStyle := true }⟩

theorem exists_result : ∃ results x, compareTrees repository.store spec = .ok results ∧ x ∈ results ∧
    x.hasHunks = true ∧ x.change = .modified ∧ x.displayPath = "f" ∧ Patch.Git.oldPath x = "d/f" ∧
      x.gitPath = "d/f" := by
  have htold : ((compareTrees repository.store spec).toOption.bind List.head?).map (fun x =>
      (x.hasHunks, x.change, x.displayPath, Patch.Git.oldPath x, x.gitPath)) =
        some (true, .modified, "f", "d/f", "d/f") := by decide +kernel
  obtain ⟨x, hx, htold⟩ := Option.map_eq_some_iff.1 htold
  obtain ⟨results, hresults, hhead⟩ := Option.bind_eq_some_iff.1 hx
  simp only [Prod.mk.injEq] at htold
  exact ⟨results, x, toOption_eq_some_iff.1 hresults, List.mem_of_head? hhead, htold⟩

end BelowRoot

open BelowRoot Patch.Git in
theorem git_header_belowRoot :
    ∃ results x t t' old, compareTrees repository.store spec = .ok results ∧
      spec.options.gitStyle = true ∧ x ∈ results ∧ x.hasHunks = true ∧
      resolvePair repository.store spec.old spec.new spec.options = .ok (t, t') ∧
      minusPath x = some "f" ∧ oldPlace? x = some old ∧ old.text = "d/f" ∧
      ¬ PrintsPlace (spec.frame repository.store t t').root x.path old := by
  obtain ⟨results, x, hresults, hx, hhunks, hchange, hprinted, holdPath, -⟩ := exists_result
  obtain ⟨t, t', old, new, diff, htrees, -, hold, -, -, hiff, -⟩ := git_header hresults rfl hx hhunks
  have hminus : minusPath x = some "f" := by rw [minusPath, hchange, hprinted]; rfl
  have htext : old.text = "d/f" := (oldPath_eq hold).symm.trans holdPath
  refine ⟨results, x, t, t', old, hresults, rfl, hx, hhunks, htrees, hminus, hold, htext,
    fun hprints => ?_⟩
  have hsame := hiff.2 (.inr hprints) "f" hminus
  rw [htext] at hsame
  exact absurd hsame (by decide)

open BelowRoot Patch.Git in
theorem git_header_ne :
    ¬ ∀ (r : Repository) (spec : ComparisonSpec) (results : List PairResult) (x : PairResult), r.Arises →
      spec.options.gitStyle = true → compareTrees r.store spec = .ok results → x ∈ results →
      x.hasHunks = true → (∀ p, minusPath x = some p → p = oldPath x) ∧
        ∀ p, plusPath x = some p → p = x.gitPath := by
  intro hall
  obtain ⟨results, x, hresults, hx, hhunks, hchange, hprinted, holdPath, -⟩ := exists_result
  have hminus : minusPath x = some "f" := by rw [minusPath, hchange, hprinted]; rfl
  have hsame := (hall repository spec results x repository_arises rfl hresults hx hhunks).1 "f" hminus
  rw [holdPath] at hsame
  exact absurd hsame (by decide)

end TreeDelta
