import TreeDelta.Patch.Report
import TreeDelta.Proofs.PlainComparison
set_option autoImplicit false

namespace TreeDelta

open Repository

/-- A node of this kind may have this content: a file has one and a directory has none. -/
def NodeKind.Carries {α : Type} : NodeKind → Option α → Prop
  | .file, content => content.isSome = true
  | .directory, content => content = none
  | .nonexistent, _ => False

theorem NodeKind.Carries.map {α β : Type} {kind : NodeKind} {content : Option α}
    (h : kind.Carries content) (f : α → β) : kind.Carries (content.map f) := by
  cases kind with
  | file => exact Option.isSome_map.trans h
  | directory => exact congrArg (Option.map f) h
  | nonexistent => exact h

def Draft.FilesNamed (d : Draft) : Prop := d.nodes.All fun _ node => node.kind.Carries node.content

/-- Every node has a content if it is a file, and else none. Contents are kept under their digests. -/
structure FilesNamed (r : Repository) : Prop where
  blobs : r.blobs.All fun id data => ContentId.ofBytes data = id
  revisions : ∀ s ∈ r.revisions, s.All fun _ record => record.kind.Carries record.content
  working : ∀ w, r.working = some w → w.All fun _ node => node.kind.Carries node.content

theorem Draft.empty_filesNamed : Draft.empty.FilesNamed := OrderedMap.all_empty

theorem withParents_filesNamed {nodes : OrderedMap Path DraftNode}
    (h : nodes.All fun _ node => node.kind.Carries node.content) (p : Path) :
    (Draft.withParents nodes p).All fun _ node => node.kind.Carries node.content := by
  unfold Draft.withParents
  induction p.ancestors generalizing nodes with
  | nil => exact h
  | cons dir dirs ih => exact ih (h.insertIfNew rfl)

namespace Draft.FilesNamed

variable {d : Draft}

theorem withPath (h : d.FilesNamed) (text : String) {f : Path → Draft} (hf : ∀ p, (f p).FilesNamed) :
    (d.withPath text f).FilesNamed := by
  unfold Draft.withPath
  split
  · exact hf _
  · exact h

theorem change (h : d.FilesNamed) (p : Path) (fault : PathFault) {f : DraftNode → DraftNode}
    (hkind : ∀ node, (f node).kind = node.kind) (hcontent : ∀ node, (f node).content = node.content) :
    (d.change p fault f).FilesNamed := by
  unfold Draft.change
  split
  · rename_i node hnode
    refine h.insert ?_
    rw [hkind, hcontent]
    exact h p node hnode
  · exact h

theorem apply (h : d.FilesNamed) (e : DraftEdit) : (d.apply e).FilesNamed := by
  cases e with
  | file text content =>
    exact h.withPath text fun p => (withParents_filesNamed h p).insert rfl
  | directory text =>
    exact h.withPath text fun p => (withParents_filesNamed h p).insertIfNew rfl
  | setProp text name value =>
    exact h.withPath text fun p => h.change p _ (fun _ => rfl) fun _ => rfl
  | deleteProp text name =>
    refine h.withPath text fun p => ?_
    split
    · rename_i node hnode
      exact h.insert (h p node hnode)
    · exact h
  | copiedFrom text source revision =>
    rw [Draft.apply]
    split
    · exact h.change _ _ (fun _ => rfl) fun _ => rfl
    · exact h
    · exact h
  | remove text => exact h.withPath text fun p => h.filter _

theorem applyAll (h : d.FilesNamed) (edits : List DraftEdit) : (d.applyAll edits).FilesNamed := by
  induction edits generalizing d with
  | nil => exact h
  | cons e edits ih => exact ih (h.apply e)

end Draft.FilesNamed

theorem NodeKind.Carries.readBack {kind : NodeKind} {content : Option ContentId} {blobs : Blobs}
    (h : kind.Carries content) (hheld : blobs.Holds content) : kind.Carries (content.bind blobs.get?) := by
  cases kind with
  | file =>
    obtain ⟨id, rfl⟩ := Option.isSome_iff_exists.1 h
    exact hheld id rfl
  | directory => exact congrArg (Option.bind · _) h
  | nonexistent => exact h

theorem Snapshot.draft_filesNamed {s : Snapshot} {blobs : Blobs}
    (hs : s.All fun _ record => record.kind.Carries record.content)
    (hheld : s.All fun _ record => blobs.Holds record.content) : (s.draft blobs).FilesNamed :=
  OrderedMap.all_map_iff.2 fun p record hrecord => (hs p record hrecord).readBack (hheld p record hrecord)

theorem Blobs.putMany_named {blobs : Blobs} (h : blobs.All fun id data => ContentId.ofBytes data = id)
    (data : List Bytes) : (blobs.putMany data).All fun id data => ContentId.ofBytes data = id := by
  induction data generalizing blobs with
  | nil => exact h
  | cons d data ih => exact ih (h.insertIfNew rfl)

variable {r r' : Repository}

theorem empty_filesNamed : FilesNamed .empty :=
  ⟨OrderedMap.all_empty, by simp [Repository.empty], by simp [Repository.empty]⟩

namespace FilesNamed

theorem snapshot (h : FilesNamed r) {n : Nat} {s : Snapshot} (hs : r.snapshot? n = some s) :
    s.All fun _ record => record.kind.Carries record.content := by
  cases n with
  | zero =>
    cases hs
    exact OrderedMap.all_empty.insert rfl
  | succ n => exact h.revisions s (List.mem_of_getElem? hs)

theorem keep (h : FilesNamed r) (data : List Bytes) : FilesNamed (r.keep data) :=
  ⟨Blobs.putMany_named h.blobs data, h.revisions, h.working⟩

theorem withWorking (h : FilesNamed r) {w : WorkingTree}
    (hw : w.All fun _ node => node.kind.Carries node.content) :
    FilesNamed { r with working := some w } where
  blobs := h.blobs
  revisions := h.revisions
  working w' hw' := by
    cases hw'
    exact hw

theorem append (h : FilesNamed r) {s : Snapshot}
    (hs : s.All fun _ record => record.kind.Carries record.content) :
    FilesNamed { r with revisions := r.revisions ++ [s] } where
  blobs := h.blobs
  revisions s' hs' := by
    rcases List.mem_append.1 hs' with hs' | hs'
    · exact h.revisions s' hs'
    · rw [List.mem_singleton.1 hs']
      exact hs
  working := h.working

end FilesNamed

theorem LocalChange.filesNamed {w w' : WorkingTree} (h : LocalChange r w w') (hr : FilesNamed r)
    (hw : w.All fun _ node => node.kind.Carries node.content) :
    w'.All fun _ node => node.kind.Carries node.content := by
  cases h with
  | setContent _ hkind _ =>
    refine hw.insert ?_
    rw [hkind]
    rfl
  | @setProps p node props hnode => exact hw.insert (hw p node hnode)
  | addFile _ _ => exact hw.insert rfl
  | addDirectory _ => exact hw.insert rfl
  | delete _ _ => exact hw.filter _
  | copy _ _ _ =>
    refine hw.insertMany fun e he => ?_
    obtain ⟨⟨rel, node⟩, hmem, rfl⟩ := List.mem_map.1 he
    exact hw _ node (mem_subtree_iff.1 hmem)
  | switch hs _ _ _ =>
    refine (hw.filter _).insertMany fun e he => ?_
    obtain ⟨⟨rel, record⟩, hmem, rfl⟩ := List.mem_map.1 he
    exact hr.snapshot hs _ record (mem_subtree_iff.1 hmem)

theorem LocalChanges.filesNamed (h : LocalChanges r r') (hr : FilesNamed r) : FilesNamed r' := by
  induction h with
  | refl => exact hr
  | step hw hchange _ ih => exact ih (hr.withWorking (hchange.filesNamed hr (hr.working _ hw)))

theorem snapshotOf_filesNamed {d : Draft} (hd : d.FilesNamed) :
    (r.snapshotOf d).All fun _ record => record.kind.Carries record.content := by
  have hcarry : ∀ p (node : DraftNode), node.kind.Carries node.content →
      (Record.carry (r.youngestSnapshot.get? p) (node.record r.nextRevision)).kind.Carries
        (Record.carry (r.youngestSnapshot.get? p) (node.record r.nextRevision)).content := by
    intro p node hnode
    obtain ⟨hkind, hcontent, -⟩ := Record.carry_fields (r.youngestSnapshot.get? p)
      (node.record r.nextRevision)
    rw [hkind, hcontent]
    exact hnode.map _
  exact OrderedMap.all_map_iff.2 <|
    OrderedMap.All.insertIfNew (hd.mono fun p node hnode => hcarry p node hnode) (hcarry _ _ rfl)

theorem recordOf_filesNamed {w : WorkingTree} (hw : w.All fun _ node => node.kind.Carries node.content) :
    (w.map r.recordOf).All fun _ record => record.kind.Carries record.content := by
  refine OrderedMap.all_map_iff.2 fun p node hnode => ?_
  have hkind : (r.recordOf p node).kind = node.kind := (Record.carry_fields _ _).1
  change (r.recordOf p node).kind.Carries (r.recordOf p node).content
  rw [hkind, content_recordOf]
  exact hw p node hnode

theorem Step.filesNamed {op : Operation} {out : Outcome} (h : Step r op out) (hr : FilesNamed r)
    (hd : ∀ d, op = .commit d → d.FilesNamed) : FilesNamed out.1 := by
  cases h with
  | failed data _ => exact hr.keep data
  | keptContent data => exact hr.keep [data]
  | edited data hchanges => exact hchanges.filesNamed (hr.keep data)
  | checkedOut hs => exact hr.withWorking (OrderedMap.all_map_iff.2 (hr.snapshot hs))
  | @committed d _ _ => exact (hr.keep _).append (snapshotOf_filesNamed (hd d rfl))
  | @committedWorkingCopy w hw _ =>
    have hrecords := recordOf_filesNamed (r := r) (hr.working w hw)
    exact (hr.append hrecords).withWorking (OrderedMap.all_map_iff.2 hrecords)

theorem Repository.Arises.filesNamed (h : r.Arises) : FilesNamed r := by
  have hboth : ContentsHeld r ∧ FilesNamed r := by
    refine h.keeps (P := fun r => ContentsHeld r ∧ FilesNamed r) (D := Draft.FilesNamed)
      ⟨contentsHeld_empty, empty_filesNamed⟩ Draft.empty_filesNamed ?_ (fun d e hd => hd.apply e) ?_
    · intro source n base ⟨hheld, hnamed⟩ hbase
      obtain ⟨s, hs, rfl⟩ := draftAt_eq_ok hbase
      exact Snapshot.draft_filesNamed (hnamed.snapshot hs) (hheld.snapshot hs)
    · intro r op out ⟨hheld, hnamed⟩ hstep hd
      exact ⟨hstep.contentsHeld hheld, hstep.filesNamed hnamed hd⟩
  exact hboth.2

theorem Draft.Arises.filesNamed {d : Draft} (h : d.Arises) : d.FilesNamed := by
  cases h with
  | new edits => exact Draft.empty_filesNamed.applyAll edits
  | revised hsource hbase edits =>
    obtain ⟨s, hs, rfl⟩ := draftAt_eq_ok hbase
    exact (Snapshot.draft_filesNamed (hsource.filesNamed.snapshot hs)
      (hsource.reachable.contentsHeld.snapshot hs)).applyAll edits

theorem FilesNamed.node? (hr : FilesNamed r) {p : Path} {origin : Origin} {n : Node}
    (h : r.node? p origin = .ok (some n)) : n.kind.Carries n.content := by
  cases origin with
  | revision k =>
    obtain ⟨s, hs, h⟩ := bind_eq_ok_iff.1 h
    obtain ⟨record, hrecord, rfl⟩ := Option.map_eq_some_iff.1 (Except.ok.inj h)
    exact hr.snapshot (snapshot_eq_ok_iff.1 hs) p record hrecord
  | workingCopy =>
    obtain ⟨w, hw, h⟩ := bind_eq_ok_iff.1 h
    obtain ⟨node, hnode, rfl⟩ := Option.map_eq_some_iff.1 (Except.ok.inj h)
    exact hr.working w (workingTree_eq_ok_iff.1 hw) p node hnode

theorem FilesNamed.content? (hr : FilesNamed r) (hheld : ContentsHeld r) {p : Path} {origin : Origin}
    {n : Node} (h : r.node? p origin = .ok (some n)) {id : ContentId} (hid : n.content = some id) :
    ∃ data, r.store.content? id = .ok (some data) ∧ ContentId.ofBytes data = id := by
  obtain ⟨data, hdata⟩ := OrderedMap.contains_iff.1 (node?_contentsHeld hheld h id hid)
  exact ⟨data, congrArg Except.ok hdata, hr.blobs id data hdata⟩

def StoreError.missesContent : StoreError → Bool
  | .missingContent _ => true
  | _ => false

def DiffError.missesContent : DiffError → Bool
  | .missingContent _ => true
  | .store e => e.missesContent
  | _ => false

theorem workingTree_error {e : StoreError} (h : r.workingTree = .error e) : e.missesContent = false := by
  unfold workingTree at h
  split at h
  · cases h
  · cases h
    rfl

theorem snapshot_error {n : Nat} {e : StoreError} (h : r.snapshot n = .error e) :
    e.missesContent = false := by
  unfold snapshot at h
  split at h
  · cases h
  · cases h
    rfl

theorem node?_error {p : Path} {origin : Origin} {e : StoreError} (h : r.node? p origin = .error e) :
    e.missesContent = false := by
  cases origin with
  | revision n =>
    rcases bind_eq_error_iff.1 h with h | ⟨s, -, h⟩
    · exact snapshot_error h
    · cases h
  | workingCopy =>
    rcases bind_eq_error_iff.1 h with h | ⟨w, -, h⟩
    · exact workingTree_error h
    · cases h

theorem asking_error {α : Type} {x : Except StoreError α} {e : DiffError} (h : asking x = .error e)
    (hx : ∀ e, x = .error e → e.missesContent = false) : e.missesContent = false := by
  cases x with
  | error e' =>
    cases h
    exact hx e' rfl
  | ok a => cases h

theorem bookkeeping?_error {p : Path} {e : StoreError} (h : r.bookkeeping? p = .error e) :
    e.missesContent = false := by
  rcases bind_eq_error_iff.1 h with h | ⟨w, -, h⟩
  · exact workingTree_error h
  · cases h

theorem recordedFrom_error {p : Path} {candidates : List Path} {known : Option Path} {e : DiffError}
    (h : recordedFrom r.store p known candidates = .error e) : e.missesContent = false := by
  induction candidates generalizing known with
  | nil =>
    cases h
    rfl
  | cons candidate candidates ih =>
    rcases bind_eq_error_iff.1 h with h | ⟨info, -, h⟩
    · exact asking_error h fun _ => bookkeeping?_error
    · split at h
      · exact ih h
      · split at h
        · cases h
        · exact ih h

theorem recordedRevision_error {endpoint : Endpoint} {recorded : Recorded} {e : DiffError}
    (h : endpoint.recordedRevision r.store recorded = .error e) : e.missesContent = false := by
  unfold Endpoint.recordedRevision at h
  split at h
  · cases h
  · cases h
  · cases h
  · cases h
  · cases h
  · split at h
    · cases h
      rfl
    · cases h

theorem locate_error {endpoint : Endpoint} {e : DiffError} (h : endpoint.locate r.store = .error e) :
    e.missesContent = false := by
  obtain ⟨target, revision⟩ := endpoint
  cases target with
  | repository path =>
    cases revision with
    | number n => cases h
    | head => cases h
    | base | committed | prev | working =>
      cases h
      rfl
  | workingCopy path =>
    unfold Endpoint.locate at h
    dsimp only at h
    split at h
    · cases h
    · rcases bind_eq_error_iff.1 h with h | ⟨recorded, -, h⟩
      · exact recordedFrom_error h
      · rcases bind_eq_error_iff.1 h with h | ⟨n, -, h⟩
        · exact recordedRevision_error h
        · cases h

theorem resolveTree_error {endpoint : Endpoint} {o : Options} {e : DiffError}
    (h : resolveTree r.store endpoint o = .error e) : e.missesContent = false := by
  cases hl : endpoint.locate r.store with
  | error e' =>
    rw [resolveTree, hl] at h
    cases h
    exact locate_error hl
  | ok l =>
    cases hnode : r.node? l.path l.origin with
    | error e' =>
      have hask : r.store.node? l.path l.origin = .error e' := hnode
      rw [resolveTree, hl] at h
      simp only [bind, Except.bind, hask] at h
      cases h
      exact node?_error hnode
    | ok found =>
      obtain ⟨v, hv⟩ := view?_of_node?_eq_ok hnode
      obtain ⟨t, ht, -⟩ := resolveTree_reads (o := o) hl hv
      rw [ht] at h
      cases h

theorem validate_error {o : Options} {e : DiffError} (h : o.validate = .error e) :
    e.missesContent = false := by
  unfold Options.validate at h
  split_ifs at h
  · cases h
    rfl
  · cases h
    rfl
  · cases h
    rfl

theorem compareTrees_error (hr : ContentsHeld r) {spec : ComparisonSpec} {e : DiffError}
    (h : compareTrees r.store spec = .error e) : e.missesContent = false := by
  rw [compareTrees_eq_told hr] at h
  rcases bind_eq_error_iff.1 h with h | ⟨_, -, h⟩
  · exact validate_error h
  rcases bind_eq_error_iff.1 h with h | ⟨trees, -, h⟩
  · rcases bind_eq_error_iff.1 h with h | ⟨t, -, h⟩
    · exact resolveTree_error h
    rcases bind_eq_error_iff.1 h with h | ⟨t', -, h⟩
    · exact resolveTree_error h
    · split at h
      · cases h
        rfl
      · cases h
  · cases h

theorem writeAll_error (hr : ContentsHeld r) {form : Patch.Form} {out : Bytes} {specs : List ComparisonSpec}
    {e : DiffError} (h : (Patch.writeAll r.store form out specs).outcome = .error e) :
    e.missesContent = false := by
  induction specs generalizing out with
  | nil => cases h
  | cons spec specs ih =>
    unfold Patch.writeAll at h
    split at h
    · rename_i e' he
      cases h
      exact compareTrees_error hr he
    · exact ih h

theorem write_error (hr : ContentsHeld r) {specs : List ComparisonSpec} {e : DiffError}
    (h : (Patch.write r.store specs).outcome = .error e) : e.missesContent = false := by
  unfold Patch.write at h
  split at h
  · rename_i e' hvalid
    cases h
    induction specs with
    | nil => cases hvalid
    | cons spec specs ih =>
      change (do spec.options.validate; specs.forM fun spec => spec.options.validate) = .error e at hvalid
      rcases bind_eq_error_iff.1 hvalid with hvalid | ⟨_, -, hvalid⟩
      · exact validate_error hvalid
      · exact ih hvalid
  · split at h
    · cases h
    · exact writeAll_error hr h

theorem append_error (hr : ContentsHeld r) {path : String} {data : Bytes} {e : StoreError}
    (h : r.append path data = .error e) : e.missesContent = false := by
  rcases bind_eq_error_iff.1 h with h | ⟨p, -, h⟩
  · unfold readPath at h
    cases hp : Path.parse path with
    | error e' =>
      rw [hp] at h
      cases h
      rfl
    | ok p =>
      rw [hp] at h
      cases h
  rcases bind_eq_error_iff.1 h with h | ⟨w, hw, h⟩
  · exact workingTree_error h
  rw [workingTree_eq_ok_iff] at hw
  split at h
  · cases h
    rfl
  · rename_i node hnode
    split at h
    · cases h
      rfl
    · rename_i old hold
      obtain ⟨before, hbefore⟩ := OrderedMap.contains_iff.1 <|
        hr.working w hw p node (Option.filter_eq_some_iff.1 hnode).1 old hold
      rw [hbefore] at h
      cases h

end TreeDelta
