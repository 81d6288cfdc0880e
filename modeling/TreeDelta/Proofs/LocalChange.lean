import TreeDelta.Proofs.Except
import TreeDelta.Proofs.Subtree
import TreeDelta.Repository.WorkingCopy
set_option autoImplicit false

namespace TreeDelta

open Repository

def Blobs.putMany (blobs : Blobs) (data : List Bytes) : Blobs := data.foldl Blobs.put blobs

def Repository.keep (r : Repository) (data : List Bytes) : Repository :=
  { r with blobs := r.blobs.putMany data }

def copiedNodes (w : WorkingTree) (p q reposPath : Path) (replaced : Bool) :
    List (Path × WorkingNode) :=
  (subtree w p).map fun (rel, node) =>
    (q.join rel, copyOf node (reposPath.join rel) (replaced && rel.isRoot))

def switchedNodes (s : Snapshot) (p q : Path) (n : Nat) : List (Path × WorkingNode) :=
  (subtree s q).map fun (rel, record) => (p.join rel, .ofRecord record (q.join rel) n)

theorem insertMany_copiedNodes (w : WorkingTree) (p q reposPath : Path) (replaced : Bool) :
    w.insertMany (copiedNodes w p q reposPath replaced) =
      graft w w p q fun rel node => copyOf node (reposPath.join rel) (replaced && rel.isRoot) := rfl

theorem insertMany_switchedNodes (w : WorkingTree) (s : Snapshot) (p q : Path) (n : Nat) :
    w.insertMany (switchedNodes s p q n) =
      graft w s q p fun rel record => .ofRecord record (q.join rel) n := rfl

def WorkingNode.BaseHas (r : Repository) (dir : WorkingNode) (reposPath : Path) : Prop :=
  ∃ b s, dir.base = some b ∧ r.snapshot? b = some s ∧ s.contains reposPath = true

/-- One change of the working tree `w` of `r`. -/
inductive LocalChange (r : Repository) (w : WorkingTree) : WorkingTree → Prop
  | setContent {p : Path} {node : WorkingNode} {id : ContentId} (hnode : w.get? p = some node)
      (hkind : node.kind = .file) (hid : r.blobs.contains id = true) :
    LocalChange r w (w.insert p { node with content := some id })
  | setProps {p : Path} {node : WorkingNode} (props : Props) (hnode : w.get? p = some node) :
    LocalChange r w (w.insert p { node with props := props })
  | addFile {p reposPath : Path} {replaced : Bool} {id : ContentId}
      (hplace : r.newLocation p = .ok (reposPath, replaced)) (hid : r.blobs.contains id = true) :
    LocalChange r w (w.insert p (.added .file (some id) reposPath replaced))
  | addDirectory {p reposPath : Path} {replaced : Bool}
      (hplace : r.newLocation p = .ok (reposPath, replaced)) :
    LocalChange r w (w.insert p (.added .directory none reposPath replaced))
  | delete {p : Path} (hroot : p.isRoot = false) (hp : w.contains p = true) :
    LocalChange r w (withoutSubtree w p)
  | copy {p q reposPath : Path} {replaced : Bool} (hq : q.isAtOrBelow p = false)
      (hp : w.contains p = true) (hplace : r.newLocation q = .ok (reposPath, replaced)) :
    LocalChange r w (w.insertMany (copiedNodes w p q reposPath replaced))
  | switch {p q : Path} {n : Nat} {s : Snapshot} {here : WorkingNode} {there : Record}
      (hs : r.snapshot? n = some s) (hp : w.get? p = some here) (hq : s.get? q = some there)
      (hkind : here.kind = there.kind) :
    LocalChange r w ((withoutSubtree w p).insertMany (switchedNodes s p q n))

inductive LocalChanges : Repository → Repository → Prop
  | refl (r : Repository) : LocalChanges r r
  | step {r r' : Repository} {w w' : WorkingTree} (hw : r.working = some w) (h : LocalChange r w w')
      (tail : LocalChanges { r with working := some w' } r') : LocalChanges r r'

variable {r r' : Repository}

theorem LocalChanges.single {w w' : WorkingTree} (hw : r.working = some w) (h : LocalChange r w w') :
    LocalChanges r { r with working := some w' } :=
  .step hw h (.refl _)

theorem LocalChanges.trans {r'' : Repository} (h : LocalChanges r r') (h' : LocalChanges r' r'') :
    LocalChanges r r'' := by
  induction h with
  | refl => exact h'
  | step hw hchange _ ih => exact .step hw hchange (ih h')

theorem workingTree_eq_ok_iff {w : WorkingTree} : r.workingTree = .ok w ↔ r.working = some w := by
  unfold workingTree
  split <;> simp_all

theorem snapshot_eq_ok_iff {n : Nat} {s : Snapshot} : r.snapshot n = .ok s ↔ r.snapshot? n = some s := by
  unfold snapshot
  split <;> simp_all

theorem newLocation_eq_ok {w : WorkingTree} {p reposPath : Path} {replaced : Bool}
    (hw : r.working = some w) (h : r.newLocation p = .ok (reposPath, replaced)) :
    w.get? p = none ∧ ∃ dir name parent, p = dir.child name ∧ w.get? dir = some parent ∧
      parent.kind = .directory ∧ reposPath = parent.reposPath.child name ∧
      (replaced = true ↔ parent.BaseHas r reposPath) := by
  obtain ⟨w', hw', h⟩ := bind_eq_ok_iff.1 h
  obtain rfl : w' = w := by simpa [hw] using (workingTree_eq_ok_iff.1 hw').symm
  split at h
  · cases h
  rename_i hfree
  refine ⟨OrderedMap.get?_eq_none_iff.2 hfree, ?_⟩
  rcases p.eq_root_or_child with rfl | ⟨dir, name, rfl⟩
  · cases h
  rw [Path.parent?_child, Path.name?_child] at h
  dsimp only at h
  split at h
  · cases h
  rename_i parent hparent
  obtain ⟨hparent, hkind⟩ := Option.filter_eq_some_iff.1 hparent
  refine ⟨dir, name, parent, rfl, hparent, by simpa using hkind, ?_⟩
  split at h
  · rename_i hbase
    cases h
    exact ⟨rfl, by simp [WorkingNode.BaseHas, hbase]⟩
  · rename_i b hbase
    obtain ⟨s, hs, h⟩ := bind_eq_ok_iff.1 h
    cases h
    rw [snapshot_eq_ok_iff] at hs
    refine ⟨rfl, fun hreplaced => ⟨b, s, hbase, hs, hreplaced⟩, ?_⟩
    rintro ⟨b', s', hbase', hs', hcontains⟩
    rw [hbase] at hbase'
    cases hbase'
    rw [hs] at hs'
    cases hs'
    exact hcontains

theorem Blobs.contains_put_self (blobs : Blobs) (data : Bytes) :
    (blobs.put data).contains (.ofBytes data) = true := by
  unfold Blobs.put OrderedMap.insertIfNew
  split
  · assumption
  · simp [OrderedMap.contains]

theorem setFile_eq_ok {p : Path} {id : ContentId} (h : r.setFile p id = .ok r') :
    ∃ w node', r.working = some w ∧
      ((∃ node, w.get? p = some node ∧ node.kind = .file ∧ node' = { node with content := some id }) ∨
        ∃ reposPath replaced, r.newLocation p = .ok (reposPath, replaced) ∧
          node' = .added .file (some id) reposPath replaced) ∧
      r' = { r with working := some (w.insert p node') } := by
  obtain ⟨w, hw, h⟩ := bind_eq_ok_iff.1 h
  rw [workingTree_eq_ok_iff] at hw
  split at h
  · rename_i node hnode
    split at h
    · rename_i hkind
      cases h
      exact ⟨w, _, hw, .inl ⟨node, hnode, by simpa using hkind, rfl⟩, rfl⟩
    · cases h
  · obtain ⟨⟨reposPath, replaced⟩, hplace, h⟩ := bind_eq_ok_iff.1 h
    cases h
    exact ⟨w, _, hw, .inr ⟨reposPath, replaced, hplace, rfl⟩, rfl⟩

theorem setFile_changes {p : Path} {id : ContentId} (h : r.setFile p id = .ok r')
    (hid : r.blobs.contains id = true) : LocalChanges r r' := by
  obtain ⟨w, _, hw, ⟨node, hnode, hkind, rfl⟩ | ⟨reposPath, replaced, hplace, rfl⟩, rfl⟩ := setFile_eq_ok h
  · exact .single hw (.setContent hnode hkind hid)
  · exact .single hw (.addFile hplace hid)

theorem append_eq_ok {path : String} {data : Bytes} (h : r.append path data = .ok r') :
    ∃ p w node old before, readPath path = .ok p ∧ r.working = some w ∧ w.get? p = some node ∧
      node.kind = .file ∧ node.content = some old ∧ r.blobs.get? old = some before ∧
      r' = { r.keep [before ++ data] with
        working := some (w.insert p { node with content := some (.ofBytes (before ++ data)) }) } := by
  obtain ⟨p, hpath, h⟩ := bind_eq_ok_iff.1 h
  obtain ⟨w, hw, h⟩ := bind_eq_ok_iff.1 h
  rw [workingTree_eq_ok_iff] at hw
  split at h
  · cases h
  · rename_i node hnode
    obtain ⟨hnode, hkind⟩ := Option.filter_eq_some_iff.1 hnode
    split at h
    · cases h
    · rename_i old hold
      split at h
      · cases h
      · rename_i before hbefore
        cases h
        exact ⟨p, w, node, old, before, hpath, hw, hnode, by simpa using hkind, hold, hbefore, rfl⟩

theorem append_changes {path : String} {data : Bytes} (h : r.append path data = .ok r') :
    ∃ after, LocalChanges (r.keep [after]) r' := by
  obtain ⟨p, w, node, _, before, -, hw, hnode, hkind, -, -, rfl⟩ := append_eq_ok h
  have hid := r.blobs.contains_put_self (before ++ data)
  exact ⟨before ++ data, .single hw (.setContent hnode hkind hid)⟩

theorem changeProps_eq_ok {path : String} {f : Props → Props} (h : r.changeProps path f = .ok r') :
    ∃ p w node, readPath path = .ok p ∧ r.working = some w ∧ w.get? p = some node ∧
      r' = { r with working := some (w.insert p { node with props := f node.props }) } := by
  obtain ⟨p, hpath, h⟩ := bind_eq_ok_iff.1 h
  obtain ⟨w, hw, h⟩ := bind_eq_ok_iff.1 h
  rw [workingTree_eq_ok_iff] at hw
  split at h
  · cases h
  · rename_i node hnode
    cases h
    exact ⟨p, w, node, hpath, hw, hnode, rfl⟩

theorem changeProps_changes {path : String} {f : Props → Props} (h : r.changeProps path f = .ok r') :
    LocalChanges r r' := by
  obtain ⟨p, w, node, -, hw, hnode, rfl⟩ := changeProps_eq_ok h
  exact .single hw (.setProps _ hnode)

theorem makeDirectory_eq_ok {path : String} (h : r.makeDirectory path = .ok r') :
    ∃ p w reposPath replaced, readPath path = .ok p ∧ r.working = some w ∧
      r.newLocation p = .ok (reposPath, replaced) ∧
      r' = { r with working := some (w.insert p (.added .directory none reposPath replaced)) } := by
  obtain ⟨p, hpath, h⟩ := bind_eq_ok_iff.1 h
  obtain ⟨⟨reposPath, replaced⟩, hplace, h⟩ := bind_eq_ok_iff.1 h
  obtain ⟨w, hw, h⟩ := bind_eq_ok_iff.1 h
  rw [workingTree_eq_ok_iff] at hw
  cases h
  exact ⟨p, w, reposPath, replaced, hpath, hw, hplace, rfl⟩

theorem makeDirectory_changes {path : String} (h : r.makeDirectory path = .ok r') :
    LocalChanges r r' := by
  obtain ⟨p, w, reposPath, replaced, -, hw, hplace, rfl⟩ := makeDirectory_eq_ok h
  exact .single hw (.addDirectory hplace)

theorem delete_eq_ok {path : String} (h : r.delete path = .ok r') :
    ∃ p w, readPath path = .ok p ∧ r.working = some w ∧ p.isRoot = false ∧ w.contains p = true ∧
      r' = { r with working := some (withoutSubtree w p) } := by
  obtain ⟨p, hpath, h⟩ := bind_eq_ok_iff.1 h
  split at h
  · cases h
  · rename_i hroot
    obtain ⟨w, hw, h⟩ := bind_eq_ok_iff.1 h
    rw [workingTree_eq_ok_iff] at hw
    split at h
    · rename_i hp
      cases h
      exact ⟨p, w, hpath, hw, by simpa using hroot, hp, rfl⟩
    · cases h

theorem delete_changes {path : String} (h : r.delete path = .ok r') : LocalChanges r r' := by
  obtain ⟨p, w, -, hw, hroot, hp, rfl⟩ := delete_eq_ok h
  exact .single hw (.delete hroot hp)

theorem copy_eq_ok {source target : String} (h : r.copy source target = .ok r') :
    ∃ p q w reposPath replaced, readPath source = .ok p ∧ readPath target = .ok q ∧
      r.working = some w ∧ q.isAtOrBelow p = false ∧ w.contains p = true ∧
      r.newLocation q = .ok (reposPath, replaced) ∧
      r' = { r with working := some (w.insertMany (copiedNodes w p q reposPath replaced)) } := by
  obtain ⟨p, hsource, h⟩ := bind_eq_ok_iff.1 h
  obtain ⟨q, htarget, h⟩ := bind_eq_ok_iff.1 h
  split at h
  · cases h
  · rename_i hq
    obtain ⟨w, hw, h⟩ := bind_eq_ok_iff.1 h
    rw [workingTree_eq_ok_iff] at hw
    split at h
    · cases h
    · rename_i hp
      obtain ⟨⟨reposPath, replaced⟩, hplace, h⟩ := bind_eq_ok_iff.1 h
      cases h
      exact ⟨p, q, w, reposPath, replaced, hsource, htarget, hw, by simpa using hq, by simpa using hp,
        hplace, rfl⟩

theorem copy_changes {source target : String} (h : r.copy source target = .ok r') :
    LocalChanges r r' := by
  obtain ⟨p, q, w, reposPath, replaced, -, -, hw, hq, hp, hplace, rfl⟩ := copy_eq_ok h
  exact .single hw (.copy hq hp hplace)

theorem switch_eq_ok {path url : String} {n : Nat} (h : r.switch path url n = .ok r') :
    ∃ p q w s here there, readPath path = .ok p ∧ readPath (repositoryPath url) = .ok q ∧
      r.working = some w ∧ r.snapshot? n = some s ∧ w.get? p = some here ∧ s.get? q = some there ∧
      here.kind = there.kind ∧
      r' = { r with working := some ((withoutSubtree w p).insertMany (switchedNodes s p q n)) } := by
  obtain ⟨p, hpath, h⟩ := bind_eq_ok_iff.1 h
  obtain ⟨q, hurl, h⟩ := bind_eq_ok_iff.1 h
  obtain ⟨s, hs, h⟩ := bind_eq_ok_iff.1 h
  obtain ⟨w, hw, h⟩ := bind_eq_ok_iff.1 h
  rw [workingTree_eq_ok_iff] at hw
  rw [snapshot_eq_ok_iff] at hs
  split at h
  · cases h
  · cases h
  · rename_i here there hp hq
    split at h
    · cases h
    · rename_i hkind
      cases h
      exact ⟨p, q, w, s, here, there, hpath, hurl, hw, hs, hp, hq, by simpa using hkind, rfl⟩

theorem switch_changes {path url : String} {n : Nat} (h : r.switch path url n = .ok r') :
    LocalChanges r r' := by
  obtain ⟨p, q, w, s, here, there, -, -, hw, hs, hp, hq, hkind, rfl⟩ := switch_eq_ok h
  exact .single hw (.switch hs hp hq hkind)

/-- What is left of an edit that failed or succeeded: contents that were kept
first, and on success the changes of the working tree. -/
def EditResult (r : Repository) (result : Outcome) : Prop :=
  ∃ data, (∃ e, result = (r.keep data, .error e)) ∨
    ∃ r', result = (r', .ok ()) ∧ LocalChanges (r.keep data) r'

theorem editResult_attempt (data : List Bytes) {x : Except StoreError Repository}
    (h : ∀ r', x = .ok r' → LocalChanges (r.keep data) r') :
    EditResult r ((r.keep data).attempt x) := by
  cases x with
  | error e => exact ⟨data, .inl ⟨e, rfl⟩⟩
  | ok r' => exact ⟨data, .inr ⟨r', rfl, h r' rfl⟩⟩

theorem append_editResult (path : String) (data : Bytes) :
    EditResult r (r.attempt (r.append path data)) := by
  cases h : r.append path data with
  | error e => exact ⟨[], .inl ⟨e, rfl⟩⟩
  | ok r' =>
    obtain ⟨after, hchanges⟩ := append_changes h
    exact ⟨[after], .inr ⟨r', rfl, hchanges⟩⟩

theorem write_editResult (path : String) (data : Bytes) : EditResult r (r.write path data) := by
  unfold write
  split
  · rename_i e _
    exact ⟨[], .inl ⟨e, rfl⟩⟩
  · have hid := r.blobs.contains_put_self data
    exact editResult_attempt [data] fun r' h => setFile_changes h hid

/-- A move whose copy succeeded succeeds: its source is still there. -/
theorem delete_after_copy {source target : String} (h : r.copy source target = .ok r') :
    ∃ r'', r'.delete source = .ok r'' := by
  obtain ⟨p, q, w, reposPath, replaced, hsource, -, -, hq, hp, -, rfl⟩ := copy_eq_ok h
  have hroot : p.isRoot = false := by
    refine Bool.eq_false_iff.2 fun hroot => ?_
    rw [Path.isRoot_iff] at hroot
    rw [hroot, Path.isAtOrBelow_root] at hq
    cases hq
  have hp' : (w.insertMany (copiedNodes w p q reposPath replaced)).contains p = true :=
    OrderedMap.contains_insertMany_iff.2 (.inr hp)
  unfold Repository.delete
  simp [hsource, hroot, hp', workingTree, bind, Except.bind]

theorem move_editResult (source target : String) : EditResult r (r.move source target) := by
  unfold move
  split
  · rename_i e _
    exact ⟨[], .inl ⟨e, rfl⟩⟩
  · rename_i r' hcopy
    obtain ⟨r'', hdelete⟩ := delete_after_copy hcopy
    refine ⟨[], .inr ⟨r'', by rw [hdelete]; rfl, ?_⟩⟩
    exact (copy_changes hcopy).trans (delete_changes hdelete)

theorem edit_editResult (r : Repository) (change : LocalEdit) : EditResult r (r.edit change) := by
  cases change with
  | write path content => exact write_editResult path content
  | append path content => exact append_editResult path content
  | setProp path name value => exact editResult_attempt [] fun r' => changeProps_changes
  | deleteProp path name => exact editResult_attempt [] fun r' => changeProps_changes
  | makeDirectory path => exact editResult_attempt [] fun r' => makeDirectory_changes
  | delete path => exact editResult_attempt [] fun r' => delete_changes
  | copy source target => exact editResult_attempt [] fun r' => copy_changes
  | move source target => exact move_editResult source target
  | switch path url n => exact editResult_attempt [] fun r' => switch_changes

end TreeDelta
