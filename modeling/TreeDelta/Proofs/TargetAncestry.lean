import TreeDelta.Proofs.Locality
import TreeDelta.Proofs.PlainAddition
set_option autoImplicit false

namespace TreeDelta

open Repository

variable {r : Repository} {n : Nat}

theorem sourceBelow_join (r : Repository) (n : Nat) (d rel rel' : Path) :
    r.sourceBelow n (d.join rel) rel' = r.sourceBelow n d (rel.join rel') := by
  rw [sourceBelow, sourceBelow, Path.join_assoc]

theorem NearestSource.eq_of_recorded {recorded : Path → Option CopySource} {rel : Path}
    {own source : CopySource} (h : NearestSource recorded rel source) (hown : recorded rel = some own) :
    source = own := by
  cases h with
  | own h => exact Option.some.inj (h.symm.trans hown)
  | inherited hnone _ =>
    rw [hnone] at hown
    cases hown

/-- Attaching the nearest source is attaching the node's own, unless it has none and follows one. -/
theorem nearest_eq_own_iff {recorded : Path → Option CopySource} {rel : Path}
    {names : CopySource → Prop} {nearest own : Option CopySource}
    (hnearest : ∀ source, nearest = some source ↔ names source ∧ NearestSource recorded rel source)
    (hown : ∀ source, own = some source ↔ names source ∧ recorded rel = some source) :
    nearest = own ↔ recorded rel ≠ none ∨ nearest = none := by
  cases hrel : recorded rel with
  | none =>
    have hnone : own = none := Option.eq_none_iff_forall_ne_some.2 fun source hsource => by
      rw [hown, hrel] at hsource
      cases hsource.2
    simp [hnone]
  | some recordedSource =>
    refine iff_of_true (Option.ext fun source => ?_) (.inl (Option.some_ne_none recordedSource))
    rw [hnearest, hown]
    refine and_congr_right fun _ => ⟨fun h => ?_, .own⟩
    rw [h.eq_of_recorded hrel, hrel]

theorem contains_of_contains_join (hr : r.Grounded fun _ => True) {s : Snapshot}
    (hs : r.snapshot? n = some s) (d rel : Path) (h : s.contains (d.join rel) = true) :
    s.contains d = true := by
  induction rel using Path.childInduction with
  | root => rwa [Path.join_root] at h
  | child dir name ih =>
    rw [Path.join_child] at h
    obtain ⟨k, hk, -⟩ := (hr.snapshot hs).parent (d.join dir) name <| by
      obtain ⟨record, hrecord⟩ := OrderedMap.contains_iff.1 h
      rw [Snapshot.shape, hrecord]
      exact Option.some_ne_none _
    obtain ⟨record, hrecord, -⟩ := Option.map_eq_some_iff.1 hk
    exact ih (OrderedMap.contains_iff.2 ⟨record, hrecord⟩)

theorem TreeWalk.exists_reads {w : TreeWalk} {v : View} (hv : v.HasParents) (rel : Path)
    (h : v.nodes.contains (w.base.join rel) = true) : ∃ m, w.Reads v .infinity rel m := by
  induction rel using Path.childInduction with
  | root =>
    rw [Path.join_root] at h
    obtain ⟨node, hnode⟩ := OrderedMap.contains_iff.1 h
    exact ⟨_, .root hnode⟩
  | child dir name ih =>
    obtain ⟨node, hnode⟩ := OrderedMap.contains_iff.1 h
    rw [Path.join_child] at h
    obtain ⟨parent, hparent, hkind⟩ := hv (w.base.join dir) name h
    obtain ⟨m, hm⟩ := ih (OrderedMap.contains_iff.2 ⟨parent, hparent⟩)
    refine ⟨_, .child hm ?_ (.inr rfl) hnode rfl⟩
    obtain ⟨node', inherited, hnode', rfl⟩ := hm.eq_placed
    rw [hparent] at hnode'
    cases hnode'
    exact hkind

theorem resolve_reads {s : Snapshot} (hs : r.snapshot? n = some s) {d : Path} (hd : s.contains d = true)
    {e : Endpoint} (he : e.locate r.store = .ok ⟨.revision n, d⟩) (o : Options) :
    ∃ v t, r.view? (.revision n) = some v ∧ resolve r.store e o = .ok t ∧
      (∃ m, t.nodes.get? .root = some m) ∧
      ∀ rel m, t.nodes.get? rel = some m ↔ (r.walkAt ⟨.revision n, d⟩ o).Reads v o.depth rel m := by
  have hv : r.view? (.revision n) = some _ := congrArg (Option.map _) hs
  obtain ⟨t, ht, hreads⟩ := resolveTree_reads (o := o) he hv
  obtain ⟨record, hrecord⟩ := OrderedMap.contains_iff.1 hd
  have hroot := (hreads .root _).2 <| .root <| by
    rw [OrderedMap.get?_map]
    exact congrArg (Option.map _) hrecord
  refine ⟨_, t, hv, ?_, ⟨_, hroot⟩, hreads⟩
  rw [resolve, ht]
  simp only [bind, Except.bind, NodeTree.isAbsent_eq_false hroot, Bool.false_eq_true, if_false]
  rfl

/-- Two endpoints in a revision, the second at a node below the first, both resolve. In the first
tree the node has the nearest source recorded at or below that tree's root, in the second the source
recorded for itself, each if it names something. So both are the same exactly if one is recorded for
the node itself or none is attached to it in the first tree. -/
theorem copySource_target_iff (hr : r.Arises) {s : Snapshot} (hs : r.snapshot? n = some s) {d rel : Path}
    (hp : s.contains (d.join rel) = true) {e e' : Endpoint}
    (he : e.locate r.store = .ok ⟨.revision n, d⟩)
    (he' : e'.locate r.store = .ok ⟨.revision n, d.join rel⟩) {o : Options} (hdepth : o.depth = .infinity) :
    ∃ t t' m', resolve r.store e o = .ok t ∧ resolve r.store e' o = .ok t' ∧
      t'.nodes.get? .root = some m' ∧ (s.HasParents → ∃ m, t.nodes.get? rel = some m) ∧
      ∀ m, t.nodes.get? rel = some m →
        (∀ source, m.copySource = some source ↔
          (o.tracksCopies (.revision n) = true ∧ (r.committed source).isSome = true) ∧
            NearestSource (r.sourceBelow n d) rel source) ∧
        (∀ source, m'.copySource = some source ↔
          (o.tracksCopies (.revision n) = true ∧ (r.committed source).isSome = true) ∧
            r.sourceBelow n d rel = some source) ∧
        (m.copySource = m'.copySource ↔ r.sourceBelow n d rel ≠ none ∨ m.copySource = none) := by
  have hconnected := hr.isConnected
  have hd := contains_of_contains_join hconnected hs d rel hp
  obtain ⟨v, t, hv, ht, -, hreads⟩ := resolve_reads hs hd he o
  obtain ⟨v', t', hv', ht', ⟨m', hm'⟩, hreads'⟩ := resolve_reads hs hp he' o
  refine ⟨t, t', m', ht, ht', hm', fun hparents => ?_, fun m hm => ?_⟩
  · obtain ⟨w, hw, hw_parents, hw_contains⟩ := view?_hasParents hs hparents
    obtain rfl : w = v := Option.some.inj (hw.symm.trans hv)
    obtain ⟨m, hm⟩ := TreeWalk.exists_reads (w := r.walkAt ⟨.revision n, d⟩ o) hw_parents rel
      ((hw_contains _).trans hp)
    exact ⟨m, (hreads rel m).2 (by rwa [hdepth])⟩
  · have hsource : ∀ source, m.copySource = some source ↔
        (o.tracksCopies (.revision n) = true ∧ (r.committed source).isSome = true) ∧
          NearestSource (r.sourceBelow n d) rel source := fun source => by
      rw [copySource_of_reads hconnected hv ((hreads rel m).1 hm) source, and_assoc]
    have hsource' : ∀ source, m'.copySource = some source ↔
        (o.tracksCopies (.revision n) = true ∧ (r.committed source).isSome = true) ∧
          r.sourceBelow n d rel = some source := fun source => by
      rw [copySource_of_reads hconnected hv' ((hreads' .root m').1 hm') source, nearestSource_root_iff,
        sourceBelow_join, Path.join_root, and_assoc]
    exact ⟨hsource, hsource', nearest_eq_own_iff hsource hsource'⟩

namespace BelowCopy

def first : Draft := Draft.empty.applyAll [.directory "d/f"]

def edits : List DraftEdit := [.directory "e/f", .copiedFrom "e" "d" 1]

def second : Draft := first.applyAll edits

def operations : List Operation := [.commit first, .commit second]

def repository : Repository := Repository.empty.runAll operations

theorem repository_arises : repository.Arises := by
  refine Repository.Arises.empty.runAll fun d hd => ?_
  obtain rfl | rfl : d = first ∨ d = second := by simpa [operations] using hd
  · exact .new _
  · exact (Draft.Arises.new _).applyAll edits

theorem repository_isProper : repository.Grounded fun k => k = .directory := by
  refine runAll_grounded rfl empty_grounded_proper fun d hd => ?_
  obtain rfl | rfl : d = first ∨ d = second := by simpa [operations] using hd
  · change first.shape.IsProper
    decide
  · change second.shape.IsProper
    decide

def copied : Path := Path.root.child ⟨"d", Eq.refl true⟩

def copy : Path := Path.root.child ⟨"e", Eq.refl true⟩

def below : Path := Path.root.child ⟨"f", Eq.refl true⟩

def options : Options := { Options.default with noticeAncestry := true }

def endpoint (p : Path) : Endpoint := ⟨.repository p, .number 2⟩

def sourceFrom? (p rel : Path) : Option (Option CopySource) :=
  (resolve repository.store (endpoint p) options).toOption.bind fun t =>
    (t.nodes.get? rel).map Node.copySource

theorem sourceFrom?_eq_some (p rel : Path) {source : Option CopySource}
    (h : sourceFrom? p rel = some source) :
    ∃ t m, resolve repository.store (endpoint p) options = .ok t ∧ t.nodes.get? rel = some m ∧
      m.copySource = source := by
  obtain ⟨t, ht, h⟩ := Option.bind_eq_some_iff.1 h
  obtain ⟨m, hm, hsource⟩ := Option.map_eq_some_iff.1 h
  exact ⟨t, m, toOption_eq_some_iff.1 ht, hm, hsource⟩

end BelowCopy

open BelowCopy in
theorem copySource_target_belowCopy :
    repository.Arises ∧ ∃ s, repository.snapshot? 2 = some s ∧ s.contains (copy.join below) = true ∧
      ∃ t t' m m', resolve repository.store (endpoint copy) options = .ok t ∧
        resolve repository.store (endpoint (copy.join below)) options = .ok t' ∧
        t.nodes.get? below = some m ∧ t'.nodes.get? .root = some m' ∧
        m.copySource = some ⟨copied.join below, 1⟩ ∧ m'.copySource = none := by
  obtain ⟨s, hs⟩ : ∃ s, repository.snapshot? 2 = some s := ⟨_, rfl⟩
  have hp : s.contains (copy.join below) = true := by
    cases hs
    decide +kernel
  have hnone : repository.sourceBelow 2 copy below = none := by decide +kernel
  have he : (endpoint copy).locate repository.store = .ok ⟨.revision 2, copy⟩ := rfl
  have he' : (endpoint (copy.join below)).locate repository.store =
      .ok ⟨.revision 2, copy.join below⟩ := rfl
  obtain ⟨t, t', m', ht, ht', hm', hread, hall⟩ :=
    copySource_target_iff repository_arises hs hp he he' (o := options) rfl
  obtain ⟨m, hm⟩ := hread (Snapshot.hasParents_of_isProper (repository_isProper.snapshot hs))
  obtain ⟨hsource, hsource', -⟩ := hall m hm
  refine ⟨repository_arises, s, hs, hp, t, t', m, m', ht, ht', hm, hm', ?_, ?_⟩
  · have hroot : NearestSource (repository.sourceBelow 2 copy) .root ⟨copied, 1⟩ :=
      .own (by decide +kernel)
    exact (hsource _).2 ⟨⟨rfl, by decide +kernel⟩, .inherited hnone hroot⟩
  · refine Option.eq_none_iff_forall_ne_some.2 fun source h => ?_
    have hown := ((hsource' source).1 h).2
    rw [hnone] at hown
    cases hown

open BelowCopy in
theorem copySource_target_ne :
    ¬ ∀ (r : Repository) (n : UInt64) (s : Snapshot) (d rel : Path) (o : Options) (t t' : NodeTree)
      (record : Record) (m m' : Node), r.Arises → r.snapshot? n.toNat = some s →
      s.contains (d.join rel) = true → s.get? d = some record → record.kind = .directory →
      o.noticeAncestry = true → o.depth = .infinity →
      resolve r.store ⟨.repository d, .number n⟩ o = .ok t →
      resolve r.store ⟨.repository (d.join rel), .number n⟩ o = .ok t' →
      t.nodes.get? rel = some m → t'.nodes.get? .root = some m' → m.copySource = m'.copySource := by
  intro hagree
  obtain ⟨s, hs⟩ : ∃ s, repository.snapshot? 2 = some s := ⟨_, rfl⟩
  obtain ⟨record, hrecord, hkind⟩ : ∃ record, s.get? copy = some record ∧ record.kind = .directory := by
    cases hs
    exact ⟨_, rfl, by decide +kernel⟩
  have hp : s.contains (copy.join below) = true := by
    cases hs
    decide +kernel
  obtain ⟨t, m, ht, hm, hsource⟩ := sourceFrom?_eq_some copy below <|
    show _ = some (some ⟨copied.join below, 1⟩) by decide +kernel
  obtain ⟨t', m', ht', hm', hsource'⟩ := sourceFrom?_eq_some (copy.join below) .root <|
    show _ = some none by decide +kernel
  have hsame := hagree repository 2 s copy below options t t' record m m' repository_arises hs hp hrecord
    hkind rfl rfl ht ht' hm hm'
  rw [hsource, hsource'] at hsame
  cases hsame

end TreeDelta
