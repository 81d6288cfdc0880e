import TreeDelta.Proofs.RecordedSource
import TreeDelta.Proofs.TreeReading
import TreeDelta.Proofs.Verdict
set_option autoImplicit false

/-!
# Plain additions

In a revision a node without a source of its own follows the source recorded nearest
above it (`NearestSource`), as far as that has something at its place
(`TreeWalk.Reads.copySource_eq_some_iff`). A node added without history is recorded
without a source. It stays a plain addition unless it stands in a committed copy at a
name that the source of the copy had too (`copySource_plainAddition`).
-/
namespace TreeDelta

open Repository

/-- The source of `rel` by what is recorded: its own, or what follows from its parent's. -/
inductive NearestSource (recorded : Path → Option CopySource) : Path → CopySource → Prop
  | own {rel : Path} {source : CopySource} (h : recorded rel = some source) :
    NearestSource recorded rel source
  | inherited {dir : Path} {name : Name} {source : CopySource}
      (hown : recorded (dir.child name) = none) (h : NearestSource recorded dir source) :
    NearestSource recorded (dir.child name) (source.descend ⟨[name]⟩)

theorem nearestSource_root_iff {recorded : Path → Option CopySource} {source : CopySource} :
    NearestSource recorded .root source ↔ recorded .root = some source := by
  constructor
  · intro h
    generalize hrel : Path.root = rel at h
    cases h with
    | own h => exact h
    | inherited _ _ => exact absurd hrel.symm (Path.child_ne_root _ _)
  · exact .own

theorem nearestSource_child_iff {recorded : Path → Option CopySource} {dir : Path} {name : Name}
    {source : CopySource} :
    NearestSource recorded (dir.child name) source ↔
      recorded (dir.child name) = some source ∨ recorded (dir.child name) = none ∧
        ∃ above, NearestSource recorded dir above ∧ source = above.descend ⟨[name]⟩ := by
  constructor
  · intro h
    generalize hrel : dir.child name = rel at h
    cases h with
    | own h => exact .inl h
    | inherited hown h =>
      obtain ⟨rfl, rfl⟩ := Path.child_inj hrel
      exact .inr ⟨hown, _, h, rfl⟩
  · rintro (h | ⟨hown, above, h, rfl⟩)
    · exact .own h
    · exact .inherited hown h

theorem nearestSource_above_iff {recorded : Path → Option CopySource} {rel : Path}
    {source : CopySource} (hown : recorded rel = none) :
    NearestSource recorded rel source ↔ ∃ dir name above, rel = Path.child dir name ∧
      NearestSource recorded dir above ∧ source = above.descend ⟨[name]⟩ := by
  constructor
  · intro h
    cases h with
    | own h =>
      rw [hown] at h
      cases h
    | inherited _ h => exact ⟨_, _, _, rfl, h, rfl⟩
  · rintro ⟨dir, name, above, rfl, h, rfl⟩
    exact .inherited hown h

def View.SourcesConnected (v : View) : Prop :=
  ∀ source name, (v.committed (source.descend ⟨[name]⟩)).isSome = true →
    (v.committed source).isSome = true

theorem TreeWalk.Reads.copySource_eq_some_iff {w : TreeWalk} {v : View} {depth : Depth} {rel : Path}
    {n : Nat} {m : Node} {source : CopySource} (h : w.Reads v depth rel m)
    (horigin : w.origin = .revision n) (htracks : w.tracksCopies = true) (hv : v.SourcesConnected) :
    m.copySource = some source ↔
      NearestSource (fun q => v.recorded (w.base.join q)) rel source ∧
        (v.committed source).isSome = true := by
  induction h generalizing source with
  | root hnode =>
    rw [nearestSource_root_iff]
    simp [placed, attached, htracks, candidateSource, horigin, Option.filter_eq_some_iff]
  | @child dir name parent node _ _ _ _ _ ih =>
    rw [nearestSource_child_iff]
    simp only [placed, attached, htracks, if_true, candidateSource, horigin, Option.filter_eq_some_iff]
    refine and_congr_left fun hcommitted => ?_
    cases hown : v.recorded (w.base.join (dir.child name)) with
    | some own => simp
    | none =>
      simp only [Option.none_or, Option.map_eq_some_iff, reduceCtorEq, true_and, false_or]
      constructor
      · rintro ⟨above, habove, rfl⟩
        exact ⟨above, (ih.1 habove).1, rfl⟩
      · rintro ⟨above, habove, rfl⟩
        exact ⟨above, ih.2 ⟨habove, hv above name hcommitted⟩, rfl⟩

theorem TreeWalk.Reads.copySource_eq_none {w : TreeWalk} {v : View} {depth : Depth} {rel : Path}
    {m : Node} (h : w.Reads v depth rel m) (htracks : w.tracksCopies = false) : m.copySource = none := by
  obtain ⟨node, inherited, -, rfl⟩ := h.eq_placed
  simp [placed, attached, htracks]

variable {r r' : Repository}

def Repository.sourceBelow (r : Repository) (n : Nat) (base rel : Path) : Option CopySource :=
  (r.snapshot? n).bind fun s => (s.get? (base.join rel)).bind Record.copySource

theorem committed_connected (hr : r.Grounded fun _ => True) {source : CopySource} {name : Name}
    (h : (r.committed (source.descend ⟨[name]⟩)).isSome = true) : (r.committed source).isSome = true := by
  obtain ⟨node, hnode⟩ := Option.isSome_iff_exists.1 h
  obtain ⟨s, hs, hnode⟩ := Option.bind_eq_some_iff.1 hnode
  obtain ⟨record, hrecord, -⟩ := Option.map_eq_some_iff.1 hnode
  change s.get? (source.path.child name) = some record at hrecord
  have hchild : s.shape (source.path.child name) ≠ none := by
    rw [Snapshot.shape, hrecord]
    exact Option.some_ne_none _
  obtain ⟨k, hk, -⟩ := (hr.snapshot hs).parent source.path name hchild
  obtain ⟨parent, hparent, -⟩ := Option.map_eq_some_iff.1 hk
  change r.snapshot? source.revision = some s at hs
  rw [committed, hs, Option.bind_some, hparent]
  rfl

theorem view?_revision {n : Nat} {v : View} (hv : r.view? (.revision n) = some v) (base : Path) :
    (fun q => v.recorded (base.join q)) = r.sourceBelow n base ∧ v.committed = r.committed := by
  obtain ⟨s, hs, rfl⟩ := Option.map_eq_some_iff.1 hv
  refine ⟨funext fun q => ?_, rfl⟩
  rw [sourceBelow, hs]
  rfl

theorem copySource_of_reads (hr : r.Grounded fun _ => True) {n : Nat} {d rel : Path} {v : View}
    (hv : r.view? (.revision n) = some v) {o : Options} {m : Node}
    (h : (r.walkAt ⟨.revision n, d⟩ o).Reads v o.depth rel m) (source : CopySource) :
    m.copySource = some source ↔ o.tracksCopies (.revision n) = true ∧
      (r.committed source).isSome = true ∧ NearestSource (r.sourceBelow n d) rel source := by
  cases htracks : o.tracksCopies (.revision n) with
  | false => simp [h.copySource_eq_none htracks]
  | true =>
    obtain ⟨hrecorded, hcommitted⟩ := view?_revision hv d
    have hconnected : v.SourcesConnected := by
      intro source name
      rw [hcommitted]
      exact committed_connected hr
    rw [h.copySource_eq_some_iff rfl htracks hconnected, hcommitted]
    change NearestSource (fun q => v.recorded (d.join q)) rel source ∧ _ ↔ _
    rw [hrecorded, and_comm]
    simp

theorem sourceBelow_commitWorkingCopy (h : r.commitWorkingCopy = .ok r') {w : WorkingTree}
    (hw : r.working = some w) {d rel : Path} {node : WorkingNode} (hnode : w.get? (d.join rel) = some node)
    (hbase : node.base = none) : r'.sourceBelow r'.youngest d rel = node.copySource := by
  obtain ⟨w', hw', -, hrevisions, -⟩ := commitWorkingCopy_eq_ok h
  obtain rfl : w' = w := Option.some.inj (hw'.symm.trans hw)
  rw [sourceBelow, snapshot?_commitWorkingCopy hrevisions, Option.bind_some, source_map_recordOf r hnode,
    hbase]
  rfl

theorem Verdict.not_copied {o : Options} {old new : NodeTree} {u : Bool} {path : Path} {pair : NodePair}
    {m : Node} (h : Verdict o old new u path pair) (hm : new.nodes.get? path = some m)
    (hsource : m.copySource = none) : pair.copiedFrom = none ∧ pair.change ≠ .copied := by
  have hnone : ∀ {a b source node}, new.nodes.get? path = some b →
      decidingSource o new a b = some (source, node) → False := by
    intro a b source node hb hs
    rw [hm] at hb
    cases hb
    rw [(decidingSource_some hs).1] at hsource
    cases hsource
  cases h with
  | copied b source node _ hb hs => exact (hnone hb hs).elim
  | copiedOnto a b source node _ hb hs => exact (hnone hb hs).elim
  | replacedByCopy a b source node _ hb hs => exact (hnone hb hs).elim
  | _ => simp

/-- After a commit an endpoint at or above a node that was added without history resolves, and the
source attached to the node is the one that follows from its parent's, if the revision of that
source has something at the node's name. Without a source the node is not told of as a copy. -/
theorem copySource_plainAddition (hr : r.Arises) (h : r.commitWorkingCopy = .ok r') {w : WorkingTree}
    (hw : r.working = some w) {d rel : Path} {node : WorkingNode}
    (hnode : w.get? (d.join rel) = some node) (hbase : node.base = none)
    (hplain : node.copySource = none) {e : Endpoint}
    (he : e.locate r'.store = .ok ⟨.revision r'.youngest, d⟩) (o : Options) :
    ∃ t, resolveTree r'.store e o = .ok t ∧ ∀ m, t.nodes.get? rel = some m →
      (∀ source, m.copySource = some source ↔
        o.tracksCopies (.revision r'.youngest) = true ∧ (r'.committed source).isSome = true ∧
          ∃ dir name above, rel = Path.child dir name ∧
            NearestSource (r'.sourceBelow r'.youngest d) dir above ∧
            source = above.descend ⟨[name]⟩) ∧
      (m.copySource = none → ∀ old pair, pair ∈ matchTrees o old t → pair.path = rel →
        pair.copiedFrom = none ∧ pair.change ≠ .copied) := by
  have hr' : r'.Arises := by
    have hrun : (Operation.commitWorkingCopy.run r).1.Arises := hr.run (by simp)
    rwa [Operation.run, h] at hrun
  obtain ⟨v, hv⟩ : ∃ v, r'.view? (.revision r'.youngest) = some v :=
    ⟨_, congrArg (Option.map _) r'.snapshot?_youngest⟩
  obtain ⟨t, ht, hreads⟩ := resolveTree_reads (o := o) he hv
  refine ⟨t, ht, fun m hm => ⟨fun source => ?_, fun hnone old pair hpair hpath => ?_⟩⟩
  · have hown : r'.sourceBelow r'.youngest d rel = none :=
      (sourceBelow_commitWorkingCopy h hw hnode hbase).trans hplain
    rw [copySource_of_reads hr'.isConnected hv ((hreads rel m).1 hm), nearestSource_above_iff hown]
  · obtain ⟨u, hverdict⟩ := verdict_of_mem_matchTrees hpair
    rw [hpath] at hverdict
    exact hverdict.not_copied hm hnone

namespace FreshChild

def copied : Path := Path.root.child ⟨"d", Eq.refl true⟩

def copy : Path := Path.root.child ⟨"e", Eq.refl true⟩

def fresh : Path := copy.child ⟨"f", Eq.refl true⟩

def other : Path := copy.child ⟨"g", Eq.refl true⟩

def operations : List Operation :=
  [.commit (Draft.empty.applyAll [.directory "d/f"]), .checkout 1, .edit (.copy "d" "e"),
   .edit (.delete "e/f"), .edit (.makeDirectory "e/f"), .edit (.makeDirectory "e/g")]

def repository : Repository := Repository.empty.runAll operations

theorem repository_arises : repository.Arises := by
  refine Repository.Arises.empty.runAll fun d hd => ?_
  obtain rfl : d = Draft.empty.applyAll [.directory "d/f"] := by simpa [operations] using hd
  exact .new _

def node (p : Path) : WorkingNode := .added .directory none p false

theorem working_get? : ∃ w, repository.working = some w ∧ w.get? fresh = some (node fresh) ∧
    w.get? other = some (node other) :=
  ⟨_, rfl, rfl, rfl⟩

def committed : Repository := (Operation.commitWorkingCopy.run repository).1

theorem commitWorkingCopy_eq : repository.commitWorkingCopy = .ok committed := rfl

def endpoint : Endpoint := ⟨.repository .root, .head⟩

theorem locate_eq : endpoint.locate committed.store = .ok ⟨.revision committed.youngest, .root⟩ := by
  rfl

def options : Options := { Options.default with noticeAncestry := true }

def source : CopySource := ⟨copied.child ⟨"f", Eq.refl true⟩, 1⟩

def found? (p : Path) : Option Node :=
  (resolveTree committed.store endpoint options).toOption.bind fun t => t.nodes.get? p

theorem found?_eq {t : NodeTree} (ht : resolveTree committed.store endpoint options = .ok t) (p : Path) :
    found? p = t.nodes.get? p := by
  rw [found?, ht]
  rfl

end FreshChild

open FreshChild in
theorem copySource_plainAddition_freshChild :
    repository.Arises ∧ repository.commitWorkingCopy = .ok committed ∧
      (∃ w, repository.working = some w ∧ w.get? fresh = some (node fresh) ∧
        w.get? other = some (node other)) ∧
      ∃ t, resolveTree committed.store endpoint options = .ok t ∧
        (∃ m, t.nodes.get? fresh = some m ∧ m.copySource = some source) ∧
        ∃ m, t.nodes.get? other = some m ∧ m.copySource = none ∧
          ∀ old pair, pair ∈ matchTrees options old t → pair.path = other → pair.change ≠ .copied := by
  obtain ⟨w, hw, hfresh, hother⟩ := working_get?
  obtain ⟨t, ht, hall⟩ := copySource_plainAddition (d := .root) repository_arises commitWorkingCopy_eq hw
    hfresh rfl rfl locate_eq options
  obtain ⟨t', ht', hall'⟩ := copySource_plainAddition (d := .root) repository_arises commitWorkingCopy_eq
    hw hother rfl rfl locate_eq options
  obtain rfl : t = t' := Except.ok.inj (ht.symm.trans ht')
  refine ⟨repository_arises, commitWorkingCopy_eq, ⟨w, hw, hfresh, hother⟩, t, ht, ?_, ?_⟩
  · obtain ⟨m, hm⟩ : ∃ m, found? fresh = some m := Option.isSome_iff_exists.1 (by decide +kernel)
    rw [found?_eq ht] at hm
    refine ⟨m, hm, ((hall m hm).1 source).2 ⟨rfl, by decide +kernel, copy, _, ⟨copied, 1⟩, rfl, ?_, rfl⟩⟩
    exact .own (by decide +kernel)
  · obtain ⟨m, hm⟩ : ∃ m, found? other = some m := Option.isSome_iff_exists.1 (by decide +kernel)
    have hnone : m.copySource = none := by
      have hsource : (found? other).bind Node.copySource = none := by decide +kernel
      rwa [hm, Option.bind_some] at hsource
    rw [found?_eq ht] at hm
    exact ⟨m, hm, hnone, fun old pair hpair hpath => ((hall' m hm).2 hnone old pair hpair hpath).2⟩

open FreshChild in
theorem copySource_plainAddition_ne_none :
    ¬ ∀ (r r' : Repository) (w : WorkingTree) (d rel : Path) (node : WorkingNode) (e : Endpoint)
      (o : Options) (t : NodeTree) (m : Node), r.Arises → r.commitWorkingCopy = .ok r' →
      r.working = some w → w.get? (d.join rel) = some node → node.base = none →
      node.copySource = none → e.locate r'.store = .ok ⟨.revision r'.youngest, d⟩ →
      o.noticeAncestry = true → resolveTree r'.store e o = .ok t → t.nodes.get? rel = some m →
      m.copySource = none := by
  intro hplain
  obtain ⟨w, hw, hfresh, -⟩ := working_get?
  have hsource : (found? fresh).bind Node.copySource = some source := by decide +kernel
  obtain ⟨m, hm, hsource⟩ := Option.bind_eq_some_iff.1 hsource
  obtain ⟨t, ht⟩ : ∃ t, resolveTree committed.store endpoint options = .ok t := by
    cases htree : resolveTree committed.store endpoint options with
    | ok t => exact ⟨t, rfl⟩
    | error e =>
      rw [found?, htree] at hm
      cases hm
  rw [found?_eq ht] at hm
  have hnone := hplain _ _ w .root fresh _ endpoint options t m repository_arises commitWorkingCopy_eq hw
    hfresh rfl rfl locate_eq rfl ht hm
  rw [hsource] at hnone
  cases hnone

end TreeDelta
