import TreeDelta.Proofs.Operation
set_option autoImplicit false

/-!
# History is kept

Operations only append revisions and only add contents (`Extends`), and every
content that a tree names is there (`ContentsHeld`). So what a revision answers
is settled when it is committed, whatever is done to the repository afterwards
(`runAll_history`).
-/
namespace TreeDelta

open Repository

def Blobs.Grows (a b : Blobs) : Prop := ∀ id data, a.get? id = some data → b.get? id = some data

theorem Blobs.Grows.refl (blobs : Blobs) : blobs.Grows blobs := fun _ _ h => h

theorem Blobs.Grows.trans {a b c : Blobs} (h : a.Grows b) (h' : b.Grows c) : a.Grows c :=
  fun id data hdata => h' id data (h id data hdata)

theorem Blobs.Grows.contains {a b : Blobs} (h : a.Grows b) {id : ContentId}
    (hid : a.contains id = true) : b.contains id = true := by
  obtain ⟨data, hdata⟩ := OrderedMap.contains_iff.1 hid
  exact OrderedMap.contains_iff.2 ⟨data, h id data hdata⟩

theorem Blobs.grows_put (blobs : Blobs) (data : Bytes) : blobs.Grows (blobs.put data) :=
  fun _ _ h => OrderedMap.get?_insertIfNew_of_get? h

theorem Blobs.grows_putMany (blobs : Blobs) (data : List Bytes) : blobs.Grows (blobs.putMany data) := by
  induction data generalizing blobs with
  | nil => exact .refl blobs
  | cons d data ih => exact (blobs.grows_put d).trans (ih (blobs.put d))

theorem Blobs.contains_putMany {data : List Bytes} {d : Bytes} (hd : d ∈ data) (blobs : Blobs) :
    (blobs.putMany data).contains (.ofBytes d) = true := by
  induction data generalizing blobs with
  | nil => cases hd
  | cons e data ih =>
    rcases List.mem_cons.1 hd with rfl | hd
    · exact (Blobs.grows_putMany (blobs.put d) data).contains (blobs.contains_put_self d)
    · exact ih hd (blobs.put e)

def Blobs.Holds (blobs : Blobs) (content : Option ContentId) : Prop :=
  ∀ id, content = some id → blobs.contains id = true

theorem Blobs.holds_none (blobs : Blobs) : blobs.Holds none := by
  intro id h
  cases h

theorem Blobs.holds_some {blobs : Blobs} {id : ContentId} (h : blobs.contains id = true) :
    blobs.Holds (some id) := by
  intro id' heq
  cases heq
  exact h

theorem Blobs.Holds.grow {a b : Blobs} {content : Option ContentId} (h : a.Holds content)
    (hgrows : a.Grows b) : b.Holds content :=
  fun id hid => hgrows.contains (h id hid)

structure ContentsHeld (r : Repository) : Prop where
  revisions : ∀ s ∈ r.revisions, s.All fun _ record => r.blobs.Holds record.content
  working : ∀ w, r.working = some w → w.All fun _ node => r.blobs.Holds node.content

variable {r r' : Repository}

theorem contentsHeld_empty : ContentsHeld .empty :=
  ⟨by simp [Repository.empty], by simp [Repository.empty]⟩

theorem ContentsHeld.snapshot (h : ContentsHeld r) {n : Nat} {s : Snapshot}
    (hs : r.snapshot? n = some s) : s.All fun _ record => r.blobs.Holds record.content := by
  cases n with
  | zero =>
    cases hs
    exact OrderedMap.all_empty.insert r.blobs.holds_none
  | succ n => exact h.revisions s (List.mem_of_getElem? hs)

theorem ContentsHeld.keep (h : ContentsHeld r) (data : List Bytes) : ContentsHeld (r.keep data) where
  revisions s hs := (h.revisions s hs).mono fun _ _ hx => hx.grow (r.blobs.grows_putMany data)
  working w hw := (h.working w hw).mono fun _ _ hx => hx.grow (r.blobs.grows_putMany data)

theorem ContentsHeld.withWorking (h : ContentsHeld r) {w : WorkingTree}
    (hw : w.All fun _ node => r.blobs.Holds node.content) :
    ContentsHeld { r with working := some w } where
  revisions := h.revisions
  working w' hw' := by
    cases hw'
    exact hw

theorem LocalChange.contentsHeld {w w' : WorkingTree} (h : LocalChange r w w') (hr : ContentsHeld r)
    (hw : w.All fun _ node => r.blobs.Holds node.content) :
    w'.All fun _ node => r.blobs.Holds node.content := by
  cases h with
  | setContent _ _ hid => exact hw.insert (Blobs.holds_some hid)
  | @setProps p node props hnode => exact hw.insert (hw p node hnode)
  | addFile _ hid => exact hw.insert (Blobs.holds_some hid)
  | addDirectory _ => exact hw.insert r.blobs.holds_none
  | delete _ _ => exact hw.filter _
  | copy _ _ _ =>
    refine hw.insertMany fun e he => ?_
    obtain ⟨⟨rel, node⟩, hmem, rfl⟩ := List.mem_map.1 he
    exact hw _ node (mem_subtree_iff.1 hmem)
  | switch hs _ _ _ =>
    refine (hw.filter _).insertMany fun e he => ?_
    obtain ⟨⟨rel, record⟩, hmem, rfl⟩ := List.mem_map.1 he
    exact hr.snapshot hs _ record (mem_subtree_iff.1 hmem)

theorem LocalChanges.contentsHeld (h : LocalChanges r r') (hr : ContentsHeld r) : ContentsHeld r' := by
  induction h with
  | refl => exact hr
  | step hw hchange _ ih => exact ih (hr.withWorking (hchange.contentsHeld hr (hr.working _ hw)))

theorem content_recordOf (r : Repository) (p : Path) (w : WorkingNode) :
    (r.recordOf p w).content = w.content := (Record.carry_fields _ _).2.1

theorem ContentsHeld.append (h : ContentsHeld r) {s : Snapshot}
    (hs : s.All fun _ record => r.blobs.Holds record.content) :
    ContentsHeld { r with revisions := r.revisions ++ [s] } where
  revisions s' hs' := by
    rcases List.mem_append.1 hs' with hs' | hs'
    · exact h.revisions s' hs'
    · rw [List.mem_singleton.1 hs']
      exact hs
  working := h.working

theorem snapshotOf_contentsHeld (d : Draft) :
    (r.snapshotOf d).All fun _ record =>
      (r.keep (d.nodes.entries.filterMap fun e => e.2.content)).blobs.Holds record.content := by
  refine OrderedMap.all_map_iff.2 (OrderedMap.All.insertIfNew ?_ ?_)
  · intro p node hnode id hid
    rw [(Record.carry_fields _ _).2.1] at hid
    obtain ⟨data, hdata, rfl⟩ := Option.map_eq_some_iff.1 hid
    exact Blobs.contains_putMany
      (List.mem_filterMap.2 ⟨(p, node), OrderedMap.get?_eq_some_iff.1 hnode, hdata⟩) r.blobs
  · rw [(Record.carry_fields _ _).2.1]
    exact Blobs.holds_none _

theorem Step.contentsHeld {op : Operation} {out : Outcome} (h : Step r op out) (hr : ContentsHeld r) :
    ContentsHeld out.1 := by
  cases h with
  | failed data _ => exact hr.keep data
  | keptContent data => exact hr.keep [data]
  | edited data hchanges => exact hchanges.contentsHeld (hr.keep data)
  | checkedOut hs => exact hr.withWorking (OrderedMap.all_map_iff.2 (hr.snapshot hs))
  | @committed d _ _ => exact (hr.keep _).append (snapshotOf_contentsHeld d)
  | @committedWorkingCopy w hw _ =>
    have hrecords : (w.map r.recordOf).All fun _ record => r.blobs.Holds record.content := by
      refine OrderedMap.all_map_iff.2 fun p node hnode id hid => ?_
      rw [content_recordOf] at hid
      exact hr.working w hw p node hnode id hid
    exact (hr.append hrecords).withWorking (OrderedMap.all_map_iff.2 hrecords)

theorem Repository.Reachable.contentsHeld (h : r.Reachable) : ContentsHeld r := by
  induction h with
  | empty => exact contentsHeld_empty
  | @run r _ op ih => exact (step_run r op).contentsHeld ih

def Snapshot.draft (s : Snapshot) (blobs : Blobs) : Draft :=
  ⟨s.map fun _ record =>
    ⟨record.kind, record.content.bind blobs.get?, record.props, record.copySource⟩, none⟩

theorem Snapshot.draft_grow {s : Snapshot} {a b : Blobs} (hgrows : a.Grows b)
    (h : s.All fun _ record => a.Holds record.content) : s.draft b = s.draft a := by
  have hnodes := OrderedMap.map_congr (h.mono fun _ record hheld =>
    show DraftNode.mk record.kind (record.content.bind b.get?) record.props record.copySource =
        ⟨record.kind, record.content.bind a.get?, record.props, record.copySource⟩ by
      cases hid : record.content with
      | none => rfl
      | some id =>
        obtain ⟨data, hdata⟩ := OrderedMap.contains_iff.1 (hheld id hid)
        rw [Option.bind_some, Option.bind_some, hdata, hgrows id data hdata])
  exact congrArg (Draft.mk · none) hnodes

theorem draftAt_eq_ok {n : Nat} {d : Draft} (h : r.draftAt n = .ok d) :
    ∃ s, r.snapshot? n = some s ∧ d = s.draft r.blobs := by
  obtain ⟨s, hs, h⟩ := bind_eq_ok_iff.1 h
  dsimp only at h
  split at h
  · cases h
  · exact ⟨s, snapshot_eq_ok_iff.1 hs, (Except.ok.inj h).symm⟩

theorem draftAt_eq (h : ContentsHeld r) {n : Nat} {s : Snapshot} (hs : r.snapshot? n = some s) :
    r.draftAt n = .ok (s.draft r.blobs) := by
  have hlost : (s.entries.filterMap fun e =>
      e.2.content.filter fun id => !r.blobs.contains id) = [] := by
    refine List.filterMap_eq_nil_iff.2 fun e he => ?_
    refine Option.filter_eq_none_iff.2 fun id hid => ?_
    simp [h.snapshot hs e.1 e.2 (OrderedMap.get?_eq_some_iff.2 he) id hid]
  unfold draftAt
  rw [snapshot_eq_ok_iff.2 hs]
  simp only [bind, Except.bind]
  rw [hlost]
  rfl

/-- `r'` has all revisions and contents of `r`. -/
structure Repository.Extends (r r' : Repository) : Prop where
  revisions : r.revisions <+: r'.revisions
  blobs : r.blobs.Grows r'.blobs

namespace Repository.Extends

theorem refl (r : Repository) : r.Extends r := ⟨List.prefix_refl _, .refl _⟩

theorem trans {r₁ r₂ r₃ : Repository} (h : r₁.Extends r₂) (h' : r₂.Extends r₃) : r₁.Extends r₃ :=
  ⟨h.revisions.trans h'.revisions, h.blobs.trans h'.blobs⟩

theorem youngest_le (h : r.Extends r') : r.youngest ≤ r'.youngest := h.revisions.length_le

theorem snapshot?_eq (h : r.Extends r') {n : Nat} (hn : n ≤ r.youngest) :
    r'.snapshot? n = r.snapshot? n := by
  cases n with
  | zero => rfl
  | succ n =>
    obtain ⟨later, hlater⟩ := h.revisions
    rw [snapshot?, snapshot?, ← hlater, List.getElem?_append_left hn]

end Repository.Extends

theorem LocalChanges.frame (h : LocalChanges r r') :
    r'.revisions = r.revisions ∧ r'.blobs = r.blobs := by
  induction h with
  | refl => exact ⟨rfl, rfl⟩
  | step _ _ _ ih => exact ih

theorem Step.extends {op : Operation} {out : Outcome} (h : Step r op out) : r.Extends out.1 := by
  cases h with
  | failed data _ => exact ⟨List.prefix_refl _, r.blobs.grows_putMany data⟩
  | keptContent data => exact ⟨List.prefix_refl _, r.blobs.grows_putMany [data]⟩
  | edited data hchanges =>
    refine ⟨?_, ?_⟩
    · rw [hchanges.frame.1]
      exact List.prefix_refl _
    · rw [hchanges.frame.2]
      exact r.blobs.grows_putMany data
  | checkedOut _ => exact ⟨List.prefix_refl _, .refl _⟩
  | committed _ _ => exact ⟨List.prefix_append _ _, r.blobs.grows_putMany _⟩
  | committedWorkingCopy _ _ => exact ⟨List.prefix_append _ _, .refl _⟩

theorem runAll_extends (r : Repository) (ops : List Operation) : r.Extends (r.runAll ops) := by
  induction ops generalizing r with
  | nil => exact .refl r
  | cons op ops ih => exact (step_run r op).extends.trans (ih (op.run r).1)

def Operation.isCommit : Operation → Bool
  | .commit _ | .commitWorkingCopy => true
  | .checkout _ | .edit _ | .putContent _ => false

theorem Step.youngest_eq {op : Operation} {out : Outcome} (h : Step r op out) :
    out.1.youngest = r.youngest + if op.isCommit && out.2.isOk then 1 else 0 := by
  cases h with
  | failed data e => simp [Repository.keep, youngest, Except.isOk, Except.toBool]
  | keptContent data => rfl
  | edited data hchanges => exact congrArg List.length hchanges.frame.1
  | checkedOut _ => rfl
  | committed _ _ => exact List.length_append
  | committedWorkingCopy _ _ => exact List.length_append

/-- Whatever is done to a repository, its revisions answer as before and its
contents stay. Only a commit that succeeds makes a revision, and it makes one. -/
theorem runAll_history {r : Repository} (h : r.Reachable) (ops : List Operation) :
    (∀ n ≤ r.youngest,
      (∀ p, (r.runAll ops).node? p (.revision n) = r.node? p (.revision n) ∧
        (r.runAll ops).children p (.revision n) = r.children p (.revision n) ∧
        (r.runAll ops).copySource? p (.revision n) = r.copySource? p (.revision n)) ∧
      (r.runAll ops).draftAt n = r.draftAt n) ∧
    (∀ id data, r.store.content? id = .ok (some data) →
      (r.runAll ops).store.content? id = .ok (some data)) ∧
    r.youngest ≤ (r.runAll ops).youngest ∧
    (∀ op : Operation, (op.run r).1.youngest =
      r.youngest + if op.isCommit && (op.run r).2.isOk then 1 else 0) := by
  have hext := runAll_extends r ops
  refine ⟨fun n hn => ?_, ?_, hext.youngest_le, fun op => (step_run r op).youngest_eq⟩
  · have hs := hext.snapshot?_eq hn
    have hsnapshot : (r.runAll ops).snapshot n = r.snapshot n := by
      rw [snapshot, snapshot, hs]
    refine ⟨fun p => ?_, ?_⟩
    · simp only [node?, children, copySource?, hsnapshot, and_self]
    · cases hsome : r.snapshot? n with
      | none =>
        rw [draftAt, draftAt, hsnapshot, snapshot, hsome]
        rfl
      | some s =>
        have hheld := h.contentsHeld
        rw [draftAt_eq hheld hsome, draftAt_eq (h.runAll ops).contentsHeld (hs.trans hsome),
          Snapshot.draft_grow hext.blobs (hheld.snapshot hsome)]
  · intro id data hdata
    have hget : r.blobs.get? id = some data := by simpa [store] using hdata
    simp [store, hext.blobs id data hget]

theorem runAll_history_commit :
    let ops : List Operation := [.putContent [98], .commit .empty, .checkout 1]
    let r := Repository.empty.runAll [.putContent [97], .commit .empty]
    r.Reachable ∧ r.youngest = 1 ∧
      (r.runAll ops).node? .root (.revision 1) = r.node? .root (.revision 1) ∧
      (r.runAll ops).draftAt 1 = r.draftAt 1 ∧
      r.store.content? (.ofBytes [97]) = .ok (some [97]) ∧
      (r.runAll ops).store.content? (.ofBytes [97]) = .ok (some [97]) := by
  intro ops r
  have hreachable : r.Reachable := Reachable.empty.runAll _
  have hyoungest : r.youngest = 1 := rfl
  have hget : (Blobs.put .empty [97]).get? (.ofBytes [97]) = some [97] := by
    simp [Blobs.put, OrderedMap.insertIfNew, OrderedMap.contains]
  have hdata : r.store.content? (.ofBytes [97]) = .ok (some [97]) := congrArg Except.ok hget
  have hkept := runAll_history hreachable ops
  have hrevision := hkept.1 1 (Nat.le_of_eq hyoungest.symm)
  exact ⟨hreachable, hyoungest, (hrevision.1 .root).1, hrevision.2, hdata, hkept.2.1 _ _ hdata⟩

end TreeDelta
