import TreeDelta.Proofs.FileContents
import TreeDelta.Proofs.LastChange
set_option autoImplicit false

namespace TreeDelta

open Repository

variable {r : Repository} {n : Nat} {s : Snapshot}

theorem commit_of_sources {d : Draft} (hfault : d.fault = none)
    (hsources : ∀ e ∈ d.nodes.entries, e.2.sourcePrecedes r.nextRevision = true) :
    r.commit d =
      ({ r.keep (d.nodes.entries.filterMap fun e => e.2.content) with
          revisions := r.revisions ++ [r.snapshotOf d] }, .ok ()) := by
  unfold commit
  rw [hfault]
  simp only [List.span_eq_takeWhile_dropWhile]
  rw [List.takeWhile_eq_self_iff.2 hsources, List.dropWhile_eq_nil_iff.2 hsources]
  rfl

theorem Blobs.putMany_of_contains {blobs : Blobs} {data : List Bytes}
    (h : ∀ d ∈ data, blobs.contains (.ofBytes d) = true) : blobs.putMany data = blobs := by
  induction data with
  | nil => rfl
  | cons d data ih =>
    have hput : blobs.put d = blobs := if_pos (h d List.mem_cons_self)
    change (blobs.put d).putMany data = blobs
    rw [hput]
    exact ih fun d hd => h d (List.mem_cons_of_mem _ hd)

theorem mem_entries_draft {blobs : Blobs} {e : Path × DraftNode}
    (he : e ∈ (s.draft blobs).nodes.entries) :
    ∃ record, s.get? e.1 = some record ∧
      e.2 = ⟨record.kind, record.content.bind blobs.get?, record.props, record.copySource⟩ := by
  have hget : (s.draft blobs).nodes.get? e.1 = some e.2 := OrderedMap.get?_eq_some_iff.2 he
  rw [Snapshot.draft, OrderedMap.get?_map, Option.map_eq_some_iff] at hget
  obtain ⟨record, hrecord, hnode⟩ := hget
  exact ⟨record, hrecord, hnode.symm⟩

theorem draft_sourcePrecedes (hbooks : r.BooksKept) (hs : r.snapshot? n = some s) (blobs : Blobs) :
    ∀ e ∈ (s.draft blobs).nodes.entries, e.2.sourcePrecedes r.nextRevision = true := by
  intro e he
  obtain ⟨record, hrecord, hnode⟩ := mem_entries_draft he
  rw [hnode, DraftNode.sourcePrecedes]
  cases hsource : record.copySource with
  | none => rfl
  | some source =>
    have holder : source.revision < n := (hbooks.snapshot hs e.1 record hrecord).copySource source hsource
    have hn : n ≤ r.youngest := le_youngest_of_snapshot? hs
    exact decide_eq_true (Nat.lt_succ_of_lt (Nat.lt_of_lt_of_le holder hn))

theorem draft_contents_kept (hnamed : r.blobs.All fun id data => ContentId.ofBytes data = id)
    (s : Snapshot) :
    ∀ data ∈ (s.draft r.blobs).nodes.entries.filterMap (fun e => e.2.content),
      r.blobs.contains (.ofBytes data) = true := by
  intro data hdata
  obtain ⟨e, he, hcontent⟩ := List.mem_filterMap.1 hdata
  obtain ⟨record, -, hnode⟩ := mem_entries_draft he
  rw [hnode] at hcontent
  obtain ⟨id, -, hget⟩ := Option.bind_eq_some_iff.1 hcontent
  rw [hnamed id data hget]
  exact OrderedMap.contains_iff.2 ⟨data, hget⟩

theorem record_readBack {blobs : Blobs} (hnamed : blobs.All fun id data => ContentId.ofBytes data = id)
    {record : Record} (hheld : blobs.Holds record.content) (m : Nat) :
    DraftNode.record ⟨record.kind, record.content.bind blobs.get?, record.props, record.copySource⟩ m =
      { record with changed := m } := by
  have hcontent : (record.content.bind blobs.get?).map ContentId.ofBytes = record.content := by
    cases hid : record.content with
    | none => rfl
    | some id =>
      obtain ⟨data, hdata⟩ := OrderedMap.contains_iff.1 (hheld id hid)
      rw [Option.bind_some, hdata, Option.map_some, hnamed id data hdata]
  rw [DraftNode.record, hcontent]

theorem snapshotOf_draft (hnamed : r.blobs.All fun id data => ContentId.ofBytes data = id)
    (hheld : s.All fun _ record => r.blobs.Holds record.content) (hconnected : s.shape.IsConnected) :
    r.snapshotOf (s.draft r.blobs) = s.map fun p record =>
      .carry (r.youngestSnapshot.get? p) { record with changed := r.nextRevision } := by
  have hroot : (s.draft r.blobs).nodes.contains .root = true := by
    obtain ⟨k, hk, -⟩ := hconnected.root
    obtain ⟨record, hrecord, -⟩ := Option.map_eq_some_iff.1 hk
    rw [Snapshot.draft, OrderedMap.contains_map]
    exact OrderedMap.contains_iff.2 ⟨record, hrecord⟩
  have hnodes : (s.draft r.blobs).nodes.insertIfNew .root .directory = (s.draft r.blobs).nodes :=
    if_pos hroot
  refine OrderedMap.ext_get? fun p => ?_
  rw [snapshotOf, hnodes, Snapshot.draft, OrderedMap.get?_map, OrderedMap.get?_map,
    OrderedMap.get?_map]
  cases hrecord : s.get? p with
  | none => rfl
  | some record => simp only [Option.map_some, record_readBack hnamed (hheld p record hrecord)]

theorem Record.carry_self (record : Record) (m : Nat) :
    carry (some record) { record with changed := m } = record := by
  simp [carry, sameNode]

theorem exists_changed_carry (old : Option Record) (record : Record) (m : Nat) :
    ∃ changed, Record.carry old { record with changed := m } = { record with changed } := by
  have hfields := Record.carry_fields old { record with changed := m }
  generalize Record.carry old { record with changed := m } = carried at hfields
  obtain ⟨kind, content, props, source, changed⟩ := carried
  obtain ⟨rfl, rfl, rfl, rfl⟩ := hfields
  exact ⟨changed, rfl⟩

/-- The tree of any revision can be had and committed again. That adds one revision and nothing
else. It has the nodes of the old one, and whatever the youngest revision says of a node already is
left as it is there. -/
theorem commit_draftAt (hr : r.Arises) (hn : n ≤ r.youngest) :
    ∃ s d s', r.snapshot? n = some s ∧ r.draftAt n = .ok d ∧
      r.commit d = ({ r with revisions := r.revisions ++ [s'] }, .ok ()) ∧
      (∀ p, ∃ changed, s'.get? p = (s.get? p).map fun record => { record with changed }) ∧
      (s'.DatedAfter r fun _ => False) ∧ (n = r.youngest → s' = s) := by
  have hheld := hr.reachable.contentsHeld
  have hnamed := hr.filesNamed.blobs
  obtain ⟨s, hs⟩ := exists_snapshot? hn
  have hsnapshot := snapshotOf_draft hnamed (hheld.snapshot hs) (hr.isConnected.snapshot hs)
  refine ⟨s, s.draft r.blobs, r.snapshotOf (s.draft r.blobs), hs, draftAt_eq hheld hs, ?_,
    fun p => ?_, snapshotOf_datedAfter r _ _, fun hyoungest => ?_⟩
  · rw [commit_of_sources rfl (draft_sourcePrecedes hr.booksKept hs r.blobs), Repository.keep,
      Blobs.putMany_of_contains (draft_contents_kept hnamed s)]
  · rw [hsnapshot, OrderedMap.get?_map]
    cases s.get? p with
    | none => exact ⟨0, rfl⟩
    | some record =>
      obtain ⟨changed, hcarry⟩ := exists_changed_carry (r.youngestSnapshot.get? p) record r.nextRevision
      exact ⟨changed, congrArg some hcarry⟩
  · rw [hyoungest, snapshot?_youngest] at hs
    obtain rfl : r.youngestSnapshot = s := Option.some.inj hs
    rw [hsnapshot]
    refine OrderedMap.ext_get? fun p => ?_
    rw [OrderedMap.get?_map]
    cases hrecord : r.youngestSnapshot.get? p with
    | none => rfl
    | some record => exact congrArg some (record.carry_self _)

namespace CommittedAgain

def operations : List Operation :=
  [.commit (Draft.empty.applyAll [.directory "d", .file "f" [97], .setProp "f" "p" "1"]),
   .commit (Draft.empty.applyAll [.directory "d", .file "f" [98], .copiedFrom "f" "f" 1])]

def repository : Repository := Repository.empty.runAll operations

theorem repository_arises : repository.Arises := by
  refine Repository.Arises.empty.runAll fun d hd => ?_
  have hdrafts : d = Draft.empty.applyAll [.directory "d", .file "f" [97], .setProp "f" "p" "1"] ∨
      d = Draft.empty.applyAll [.directory "d", .file "f" [98], .copiedFrom "f" "f" 1] := by
    simpa [operations] using hd
  rcases hdrafts with rfl | rfl <;> exact .new _

def dir : Path := Path.root.child ⟨"d", Eq.refl true⟩

def f : Path := Path.root.child ⟨"f", Eq.refl true⟩

def directory : Record := ⟨.directory, none, .empty, none, 1⟩

def file : Record :=
  ⟨.file, some (.ofBytes [97]), OrderedMap.empty.insert "p" "1", none, 1⟩

theorem snapshot_get? : ∃ s, repository.snapshot? 1 = some s ∧ s.get? dir = some directory ∧
    s.get? f = some file :=
  ⟨_, rfl, rfl, rfl⟩

theorem youngest_get? : repository.youngestSnapshot.get? dir = some directory ∧
    (repository.youngestSnapshot.get? f).bind (·.copySource) = some ⟨f, 1⟩ :=
  ⟨by decide +kernel, by decide +kernel⟩

end CommittedAgain

open CommittedAgain in
theorem commit_draftAt_earlier :
    repository.Arises ∧ 1 ≤ repository.youngest ∧
      ∃ draft s', repository.draftAt 1 = .ok draft ∧
        repository.commit draft =
          ({ repository with revisions := repository.revisions ++ [s'] }, .ok ()) ∧
        s'.get? dir = some directory ∧ s'.get? f = some { file with changed := 3 } := by
  obtain ⟨s, draft, s', hs, hdraft, hcommit, hnodes, hdates, -⟩ :=
    commit_draftAt repository_arises (n := 1) (by decide)
  obtain ⟨s₁, hs₁, hdir, hf⟩ := snapshot_get?
  obtain rfl : s₁ = s := Option.some.inj (hs₁.symm.trans hs)
  obtain ⟨hyoungestdir, hyoungestf⟩ := youngest_get?
  refine ⟨repository_arises, by decide, draft, s', hdraft, hcommit, ?_, ?_⟩
  · obtain ⟨changed, hget⟩ := hnodes dir
    rw [hdir] at hget
    rcases hdates dir _ hget with hkept | ⟨-, hdiffers | hremade⟩
    · exact hget.trans (hkept.symm.trans hyoungestdir)
    · have hsame := hdiffers directory hyoungestdir
      simp [Record.DiffersFrom] at hsame
    · exact hremade.elim
  · obtain ⟨changed, hget⟩ := hnodes f
    rw [hf] at hget
    rcases hdates f _ hget with hkept | ⟨hchanged, -⟩
    · rw [hkept] at hyoungestf
      cases hyoungestf
    · obtain rfl : changed = 3 := hchanged
      exact hget

end TreeDelta
