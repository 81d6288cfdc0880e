import TreeDelta.Patch.Report
import TreeDelta.Proofs.Operation
import TreeDelta.Proofs.OrderedMap
import TreeDelta.Proofs.Verdict
set_option autoImplicit false

namespace TreeDelta

open Patch

def Options.summarizing (o : Options) : Options := { o with summarizeOnly := true, gitStyle := false }

def ComparisonSpec.summarizing (spec : ComparisonSpec) : ComparisonSpec :=
  { spec with options := spec.options.summarizing }

def PairResult.withoutContent (x : PairResult) : PairResult := { x with content := none }

theorem classifyAll_summarizing (o : Options) (old new : NodeTree) (replaced paths : List Path) :
    classifyAll o.summarizing old new replaced paths = classifyAll o old new replaced paths := by
  induction paths generalizing replaced with
  | nil => rfl
  | cons path paths ih =>
    rw [classifyAll, classifyAll]
    exact congrArg (List.cons _) (ih _)

theorem changedPairs_summarizing (o : Options) (old new : NodeTree) :
    changedPairs o.summarizing old new = changedPairs o old new := by
  rw [changedPairs, changedPairs, matchTrees, matchTrees, classifyAll_summarizing]

variable {s : Store} {o : Options} {f g : Frame} {p : NodePair} {x : PairResult}

theorem Frame.result_summarizing (hoptions : g.options = f.options.summarizing)
    (hframe : f = { g with options := f.options }) (h : f.result p = .ok x) :
    g.result p = .ok x.withoutContent := by
  obtain ⟨store, options, old, new, root⟩ := g
  obtain rfl : options = f.options.summarizing := hoptions
  obtain ⟨content, -, h⟩ := bind_eq_ok_iff.1 h
  cases h
  refine bind_eq_ok_iff.2 ⟨none, ?_, ?_⟩
  · rw [contentOf]
    exact if_pos rfl
  · rw [hframe]
    rfl

theorem Frame.mapM_result_summarizing {l : List NodePair} {results : List PairResult}
    (hoptions : g.options = f.options.summarizing) (hframe : f = { g with options := f.options })
    (h : l.mapM f.result = .ok results) :
    l.mapM g.result = .ok (results.map PairResult.withoutContent) := by
  rw [mapM_eq_ok_iff] at h ⊢
  rw [List.forall₂_map_right_iff]
  exact h.imp fun _ _ hx => result_summarizing hoptions hframe hx

theorem Options.validate_summarizing (h : o.validate = .ok ()) : o.summarizing.validate = .ok () := by
  unfold validate at h ⊢
  split_ifs at h with hxml hgit hmodes
  simp [summarizing, hmodes]

theorem diffContent_some {a b : Node} {diff : ContentDiff} (h : diffContent s a b o = .ok (some diff)) :
    (a.isFile = true ∨ b.isFile = true) ∧
      ¬(a.isFile = true ∧ b.isFile = true ∧ a.content = b.content ∧ a.eolStyle = b.eolStyle) := by
  unfold diffContent at h
  split at h
  · cases h
  · rename_i hfile
    split at h
    · cases h
    · rename_i hsame
      refine ⟨?_, fun hall => hsame (by simp [hall])⟩
      by_contra hnone
      simp_all

theorem textDiffers_of_diffContent {kind : NodeKind} {a b : Node} {diff : ContentDiff}
    (hkind : kind = .file) (h : diffContent s a b o = .ok (some diff)) : textDiffers kind a b = true := by
  obtain ⟨hfile, hsame⟩ := diffContent_some h
  by_contra hdiffers
  simp only [textDiffers, hkind, beq_self_eq_true, Bool.true_and, Bool.or_eq_true, bne_iff_ne, ne_eq,
    not_or, Decidable.not_not] at hdiffers
  obtain ⟨⟨hkinds, hcontent⟩, hstyle⟩ := hdiffers
  have hboth : a.isFile = b.isFile := by rw [Node.isFile, Node.isFile, hkinds]
  rw [hboth, or_self] at hfile
  exact hsame ⟨hboth.trans hfile, hfile, hcontent, hstyle⟩

theorem Frame.textChanged_of_content (h : f.result p = .ok x) (hcontent : x.content.isSome = true) :
    x.textChanged = true := by
  obtain ⟨content, hcontentOf, h⟩ := bind_eq_ok_iff.1 h
  cases h
  obtain ⟨diff, rfl⟩ := Option.isSome_iff_exists.1 hcontent
  unfold contentOf at hcontentOf
  split at hcontentOf
  · cases hcontentOf
  · rename_i hread
    simp only [Bool.or_eq_true, bne_iff_ne, not_or, ne_eq, Decidable.not_not] at hread
    exact textDiffers_of_diffContent hread.2 hcontentOf

theorem ValueChange.between?_eq_none_iff {a b : Option String} : between? a b = none ↔ a = b := by
  cases a with
  | none => cases b <;> simp [between?]
  | some a => cases b <;> simp [between?]

theorem PropDiff.get?_eq_of_isEmpty {a b : Props} (h : (between a b).isEmpty = true) (name : String) :
    a.get? name = b.get? name := by
  have hnone := List.filterMap_eq_nil_iff.1 (List.isEmpty_iff.1 h)
  by_contra hne
  have hmem : name ∈ a.unionKeys b := OrderedMap.mem_unionKeys_of_ne hne
  exact hne (ValueChange.between?_eq_none_iff.1 (Option.map_eq_none_iff.1 (hnone name hmem)))

theorem Frame.propsChanged_of_modeChanges (h : f.result p = .ok x)
    (hprops : f.options.ignoreProperties = false) (hmodes : Git.modeChanges x = true) :
    x.propsChanged = true := by
  obtain ⟨content, -, h⟩ := bind_eq_ok_iff.1 h
  cases h
  change (p.left.isExecutable != p.right.isExecutable) = true at hmodes
  change (!(f.propsOf p).isEmpty) = true
  rw [propsOf, hprops, if_neg Bool.false_ne_true]
  by_contra hnone
  have hempty : (PropDiff.between p.left.props p.right.props).isEmpty = true := by simpa using hnone
  have hsame := PropDiff.get?_eq_of_isEmpty hempty Props.executableName
  simp [Node.isExecutable, OrderedMap.contains, hsame] at hmodes

theorem Patch.Unified.changes_of_render {u : Unified} (h : u.render x ≠ []) :
    x.change = .modified → x.content.isSome = true ∨ x.propsChanged = true := by
  intro hchange
  by_contra hnone
  simp_all [render, omission?, shows]

theorem Patch.Git.changes_of_render {g : Git} (h : g.render x ≠ []) :
    x.change = .modified →
      x.content.isSome = true ∨ x.propsChanged = true ∨ modeChanges x = true := by
  intro hchange
  by_contra hnone
  simp_all [render, shows]

theorem Patch.Summary.render_ne_nil (hreplaced : x.change ≠ .replaced) (hunchanged : x.change ≠ .unchanged)
    (hmodified : x.change = .modified → x.textChanged = true ∨ x.propsChanged = true)
    (summary : Summary) : (Form.summary summary).render x ≠ [] := by
  obtain ⟨status, hstatus⟩ : ∃ status, status? x = some status := by
    unfold status?
    split <;> simp_all
  have hend : ∀ s t, Bytes.ofString t ≠ [] → Bytes.ofString (s ++ t) ≠ [] := fun s t ht => by
    rw [Bytes.ofString_append]
    exact List.append_ne_nil_of_right_ne_nil _ ht
  rw [Form.render, entry, hstatus]
  cases summary.xml with
  | true => exact hend _ "</path>\n" (by decide)
  | false => exact hend _ "\n" (by decide)

theorem change_of_mem_changedPairs {old new : NodeTree} (h : p ∈ changedPairs o old new) :
    p.change ≠ .replaced ∧ p.change ≠ .unchanged := by
  obtain ⟨q, hq, hp⟩ := List.mem_flatMap.1 h
  have hchanged : q.change ≠ .unchanged := by simpa using (List.mem_filter.1 hq).2
  unfold NodePair.expand at hp
  split at hp
  · rcases List.mem_cons.1 hp with rfl | hp
    · simp [NodePair.deletion]
    · rw [List.mem_singleton.1 hp, NodePair.addition]
      split <;> simp
  · rename_i hreplaced
    rw [List.mem_singleton.1 hp]
    exact ⟨hreplaced, hchanged⟩

theorem Frame.listed_of_shown (hchange : p.change ≠ .replaced ∧ p.change ≠ .unchanged)
    (h : f.result p = .ok x) (u : Unified) (g : Git)
    (hshown : u.render x ≠ [] ∨ f.options.ignoreProperties = false ∧ g.render x ≠ [])
    (summary : Summary) : (Form.summary summary).render x.withoutContent ≠ [] := by
  have hkept : x.change = p.change := by
    obtain ⟨content, -, h⟩ := bind_eq_ok_iff.1 h
    cases h
    rfl
  rw [← hkept] at hchange
  refine Summary.render_ne_nil (x := x.withoutContent) hchange.1 hchange.2 (fun hmodified => ?_) summary
  change x.textChanged = true ∨ x.propsChanged = true
  rcases hshown with hunified | ⟨hprops, hgit⟩
  · rcases Unified.changes_of_render hunified hmodified with hcontent | hprops
    · exact .inl (textChanged_of_content h hcontent)
    · exact .inr hprops
  · rcases Git.changes_of_render hgit hmodified with hcontent | hchanged | hmodes
    · exact .inl (textChanged_of_content h hcontent)
    · exact .inr hchanged
    · exact .inr (propsChanged_of_modeChanges h hprops hmodes)

/-- The summary of a comparison that succeeds has the same results without their contents, and an
entry for each result that a unified patch shows, or a patch with git headers if properties are not
ignored. A difference of content is told only where the content is told to have changed. -/
theorem compareTrees_listed {spec : ComparisonSpec} {results : List PairResult}
    (h : compareTrees s spec = .ok results) :
    compareTrees s spec.summarizing = .ok (results.map PairResult.withoutContent) ∧
      ∀ x ∈ results,
        ((Unified.ofOptions spec.options).render x ≠ [] ∨
            spec.options.ignoreProperties = false ∧ (Git.ofOptions spec.options).render x ≠ [] →
          ∀ summary : Summary, (Form.summary summary).render x.withoutContent ≠ []) ∧
        (x.content.isSome = true → x.textChanged = true) := by
  obtain ⟨_, hvalid, h⟩ := bind_eq_ok_iff.1 h
  obtain ⟨⟨old, new⟩, hresolve, h⟩ := bind_eq_ok_iff.1 h
  constructor
  · refine bind_eq_ok_iff.2 ⟨(), Options.validate_summarizing hvalid, ?_⟩
    refine bind_eq_ok_iff.2 ⟨(old, new), hresolve, ?_⟩
    dsimp only
    rw [ComparisonSpec.summarizing, changedPairs_summarizing]
    exact Frame.mapM_result_summarizing rfl rfl h
  · intro x hx
    obtain ⟨p, hp, hresult⟩ := exists_mem_of_mapM_eq_ok h hx
    exact ⟨fun hshown => Frame.listed_of_shown (change_of_mem_changedPairs hp) hresult _ _ hshown,
      fun hcontent => Frame.textChanged_of_content hresult hcontent⟩

namespace ThreeChanges

def operations : List Operation :=
  [.commit (Draft.empty.applyAll [.directory "d", .file "f" [97, 10], .file "g" [97, 10]]),
   .commit (Draft.empty.applyAll [.directory "d", .file "f" [98, 10], .file "g" [97, 10],
     .setProp "d" "p" "1", .setProp "g" "svn:executable" "*"])]

def repository : Repository := Repository.empty.runAll operations

def spec : ComparisonSpec :=
  ⟨⟨.repository .root, .number 1⟩, ⟨.repository .root, .number 2⟩, none, .default⟩

def outline (x : PairResult) : String × Bool × Bool :=
  (x.path.text, x.content.isSome, (Unified.ofOptions spec.options).render x != [])

theorem outlines_eq : (compareTrees repository.store spec).toOption.map (List.map outline) =
    some [("d", false, true), ("f", true, true), ("g", false, true)] := by
  decide +kernel

end ThreeChanges

open ThreeChanges in
theorem compareTrees_listed_threeChanges :
    repository.Reachable ∧ ∃ results, compareTrees repository.store spec = .ok results ∧
      results.map (fun x => x.path.text) = ["d", "f", "g"] ∧
      compareTrees repository.store spec.summarizing = .ok (results.map PairResult.withoutContent) ∧
      (∀ x ∈ results, ∀ summary : Summary, (Form.summary summary).render x.withoutContent ≠ []) ∧
      ∃ x ∈ results, x.content.isSome = true ∧ x.textChanged = true := by
  obtain ⟨results, hresults, houtlines⟩ := Option.map_eq_some_iff.1 outlines_eq
  have hcompare := toOption_eq_some_iff.1 hresults
  obtain ⟨hsummary, hall⟩ := compareTrees_listed hcompare
  refine ⟨Repository.Reachable.empty.runAll operations, results, hcompare, ?_, hsummary, ?_, ?_⟩
  · have hpaths := congrArg (List.map Prod.fst) houtlines
    rwa [List.map_map] at hpaths
  · intro x hx
    refine (hall x hx).1 (.inl ?_)
    have hmem : outline x ∈ results.map outline := List.mem_map_of_mem hx
    rw [houtlines] at hmem
    have hshown : (outline x).2.2 = true := by
      simp only [List.mem_cons, List.not_mem_nil, or_false] at hmem
      rcases hmem with h | h | h
      all_goals rw [h]
    exact bne_iff_ne.1 hshown
  · have hmem : ("f", true, true) ∈ results.map outline := by
      rw [houtlines]
      exact List.mem_cons_of_mem _ List.mem_cons_self
    obtain ⟨x, hx, houtline⟩ := List.mem_map.1 hmem
    have hcontent : x.content.isSome = true := congrArg (fun y => y.2.1) houtline
    exact ⟨x, hx, hcontent, (hall x hx).2 hcontent⟩

end TreeDelta
