import Mathlib.Data.List.TakeDrop
import TreeDelta.Proofs.LocalChange
set_option autoImplicit false

namespace TreeDelta

open Repository

/-- Changes in place. An error leaves the state of that moment. -/
abbrev InPlace := EStateM StoreError Repository

namespace InPlace

def ask {α : Type} (f : Repository → Except StoreError α) : InPlace α := fun r =>
  match f r with
  | .ok a => .ok a r
  | .error e => .error e r

def keepContent (data : Bytes) : InPlace ContentId := do
  modify (·.putContent data)
  return .ofBytes data

def changeWorking (f : WorkingTree → WorkingTree) : InPlace Unit :=
  modify fun r => { r with working := r.working.map f }

def editWorking (f : WorkingTree → WorkingTree) : InPlace Unit := do
  let _ ← ask workingTree
  changeWorking f

def setFile (p : Path) (id : ContentId) : InPlace Unit := do
  let w ← ask workingTree
  match w.get? p with
  | some node =>
    if node.kind == .file then changeWorking (·.insert p { node with content := some id })
    else throw (.invalidOperation p .notFile)
  | none => do
    let (reposPath, replaced) ← ask (·.newLocation p)
    editWorking (·.insert p (.added .file (some id) reposPath replaced))

def write (path : String) (data : Bytes) : InPlace Unit := do
  let p ← ask fun _ => readPath path
  let id ← keepContent data
  setFile p id

def append (path : String) (data : Bytes) : InPlace Unit := do
  let p ← ask fun _ => readPath path
  let w ← ask workingTree
  match (w.get? p).filter fun node => node.kind == .file with
  | none => throw (.notFound p)
  | some node =>
    match node.content with
    | none => throw (.notFound p)
    | some old =>
      match (← get).blobs.get? old with
      | none => throw (.missingContent old)
      | some before => do
        let id ← keepContent (before ++ data)
        editWorking (·.insert p { node with content := some id })

def changeProps (path : String) (f : Props → Props) : InPlace Unit := do
  let p ← ask fun _ => readPath path
  let w ← ask workingTree
  match w.get? p with
  | none => throw (.notFound p)
  | some node => changeWorking (·.insert p { node with props := f node.props })

def makeDirectory (path : String) : InPlace Unit := do
  let p ← ask fun _ => readPath path
  let (reposPath, replaced) ← ask (·.newLocation p)
  editWorking (·.insert p (.added .directory none reposPath replaced))

def delete (path : String) : InPlace Unit := do
  let p ← ask fun _ => readPath path
  if p.isRoot then throw (.invalidOperation p .rootDeleted)
  else do
    let w ← ask workingTree
    if w.contains p then changeWorking (withoutSubtree · p)
    else throw (.notFound p)

def copy (source target : String) : InPlace Unit := do
  let p ← ask fun _ => readPath source
  let q ← ask fun _ => readPath target
  if q.isAtOrBelow p then throw (.invalidOperation q .copiedIntoItself)
  else do
    let w ← ask workingTree
    if !w.contains p then throw (.notFound p)
    else do
      let (reposPath, replaced) ← ask (·.newLocation q)
      editWorking (·.insertMany (copiedNodes w p q reposPath replaced))

def move (source target : String) : InPlace Unit := do
  copy source target
  delete source

/-- The old subtree is gone before the first node of the new one is there. -/
def switch (path url : String) (n : Nat) : InPlace Unit := do
  let p ← ask fun _ => readPath path
  let q ← ask fun _ => readPath (repositoryPath url)
  let s ← ask (·.snapshot n)
  let w ← ask workingTree
  match w.get? p, s.get? q with
  | none, _ => throw (.notFound p)
  | some _, none => throw (.notFound q)
  | some here, some there =>
    if here.kind != there.kind then throw (.invalidOperation p .kindDiffers)
    else do
      changeWorking (withoutSubtree · p)
      (switchedNodes s p q n).forM fun e => changeWorking (·.insert e.1 e.2)

def edit : LocalEdit → InPlace Unit
  | .write path content => write path content
  | .append path content => append path content
  | .setProp path name value => changeProps path (·.insert name value)
  | .deleteProp path name => changeProps path (·.erase name)
  | .makeDirectory path => makeDirectory path
  | .delete path => delete path
  | .copy source target => copy source target
  | .move source target => move source target
  | .switch path url n => switch path url n

def keepFile (node : DraftNode) : InPlace Unit :=
  match node.content with
  | some data => discard (keepContent data)
  | none => pure ()

def keepNode (revision : Nat) (node : DraftNode) : InPlace Unit :=
  match node.copySource with
  | some source =>
    if source.revision < revision then keepFile node else throw (.noSuchRevision source.revision)
  | none => keepFile node

def commit (d : Draft) : InPlace Unit := do
  match d.fault with
  | some e => throw (.badText e)
  | none => do
    let revision := (← get).nextRevision
    d.nodes.entries.forM fun e => keepNode revision e.2
    let _ ← ask fun r => r.snapshot r.youngest
    modify fun r => { r with revisions := r.revisions ++ [r.snapshotOf d] }

def checkout (n : Nat) : InPlace Unit := do
  let s ← ask (·.snapshot n)
  modify fun r => { r with working := some (.ofSnapshot s n) }

def commitWorkingCopy : InPlace Unit := do
  let w ← ask workingTree
  match w.entries.find? fun e => e.2.reposPath != e.1 with
  | some e => throw (.invalidOperation e.1 .switchedCommit)
  | none => do
    let r ← get
    let _ ← ask fun r => r.snapshot r.youngest
    let s : Snapshot := w.map r.recordOf
    modify fun r => { r with revisions := r.revisions ++ [s] }
    modify fun r' => { r' with working := some (.ofSnapshot s r.nextRevision) }

end InPlace

def Operation.inPlace : Operation → InPlace Unit
  | .commit draft => .commit draft
  | .commitWorkingCopy => .commitWorkingCopy
  | .checkout n => .checkout n
  | .edit change => .edit change
  | .putContent data => discard (InPlace.keepContent data)

namespace InPlace

variable {α β : Type} {r : Repository}

def outcome (a : InPlace Unit) (r : Repository) : Outcome :=
  match a.run r with
  | .ok _ r' => (r', .ok ())
  | .error e r' => (r', .error e)

theorem bind_of_ok {a : InPlace α} {k : α → InPlace β} {x : α} {r' : Repository}
    (h : a.run r = .ok x r') : (a >>= k).run r = (k x).run r' := by
  simp only [EStateM.run, bind, EStateM.bind] at h ⊢
  rw [h]

theorem bind_of_error {a : InPlace α} {k : α → InPlace β} {e : StoreError} {r' : Repository}
    (h : a.run r = .error e r') : (a >>= k).run r = .error e r' := by
  simp only [EStateM.run, bind, EStateM.bind] at h ⊢
  rw [h]

theorem ask_of_ok {f : Repository → Except StoreError α} {a : α} (h : f r = .ok a) :
    (ask f).run r = .ok a r := by
  simp only [EStateM.run, ask, h]

theorem ask_of_error {f : Repository → Except StoreError α} {e : StoreError} (h : f r = .error e) :
    (ask f).run r = .error e r := by
  simp only [EStateM.run, ask, h]

theorem outcome_ask_bind {f : Repository → Except StoreError α} {k : α → InPlace Unit}
    {g : α → Except StoreError Repository}
    (h : ∀ a, f r = .ok a → (k a).outcome r = r.attempt (g a)) :
    (ask f >>= k).outcome r = r.attempt (f r >>= g) := by
  cases hf : f r with
  | ok a =>
    rw [outcome, bind_of_ok (ask_of_ok hf)]
    exact h a hf
  | error e =>
    rw [outcome, bind_of_error (ask_of_error hf)]
    rfl

theorem outcome_get_bind (k : Repository → InPlace Unit) : (get >>= k).outcome r = (k r).outcome r := rfl

theorem changeWorking_run {w : WorkingTree} (f : WorkingTree → WorkingTree) (hw : r.working = some w) :
    (changeWorking f).run r = .ok () { r with working := some (f w) } := by
  change EStateM.Result.ok () { r with working := r.working.map f } = _
  rw [hw, Option.map_some]

theorem outcome_changeWorking {f : WorkingTree → WorkingTree} {w : WorkingTree}
    (hw : r.working = some w) :
    (changeWorking f).outcome r = r.attempt (.ok { r with working := some (f w) }) := by
  rw [outcome, changeWorking_run f hw]
  rfl

theorem outcome_editWorking {f : WorkingTree → WorkingTree} {w : WorkingTree}
    (hw : r.working = some w) :
    (editWorking f).outcome r = r.attempt (.ok { r with working := some (f w) }) := by
  rw [outcome, editWorking, bind_of_ok (ask_of_ok (workingTree_eq_ok_iff.2 hw))]
  exact outcome_changeWorking hw

theorem outcome_setFile (p : Path) (id : ContentId) :
    (setFile p id).outcome r = r.attempt (r.setFile p id) := by
  refine outcome_ask_bind fun w hw => ?_
  rw [workingTree_eq_ok_iff] at hw
  cases w.get? p with
  | some node =>
    dsimp only
    split
    · exact outcome_changeWorking hw
    · rfl
  | none => exact outcome_ask_bind fun place _ => outcome_editWorking hw

theorem outcome_write (path : String) (data : Bytes) :
    (write path data).outcome r = r.write path data := by
  unfold write Repository.write
  cases readPath path with
  | error e => rfl
  | ok p => exact outcome_setFile p (.ofBytes data)

theorem outcome_append (path : String) (data : Bytes) :
    (append path data).outcome r = r.attempt (r.append path data) := by
  refine outcome_ask_bind fun p _ => outcome_ask_bind fun w hw => ?_
  rw [workingTree_eq_ok_iff] at hw
  cases (w.get? p).filter fun node => node.kind == .file with
  | none => rfl
  | some node =>
    dsimp only
    cases node.content with
    | none => rfl
    | some old =>
      dsimp only
      rw [outcome_get_bind]
      cases r.blobs.get? old with
      | none => rfl
      | some before => exact outcome_editWorking (r := r.putContent (before ++ data)) hw

theorem outcome_changeProps (path : String) (f : Props → Props) :
    (changeProps path f).outcome r = r.attempt (r.changeProps path f) := by
  refine outcome_ask_bind fun p _ => outcome_ask_bind fun w hw => ?_
  rw [workingTree_eq_ok_iff] at hw
  cases w.get? p with
  | none => rfl
  | some node => exact outcome_changeWorking hw

theorem outcome_makeDirectory (path : String) :
    (makeDirectory path).outcome r = r.attempt (r.makeDirectory path) := by
  refine outcome_ask_bind fun p _ => outcome_ask_bind fun place _ => outcome_ask_bind fun w hw => ?_
  rw [workingTree_eq_ok_iff] at hw
  exact outcome_changeWorking hw

theorem outcome_delete (path : String) : (delete path).outcome r = r.attempt (r.delete path) := by
  refine outcome_ask_bind fun p _ => ?_
  split
  · rfl
  · refine outcome_ask_bind fun w hw => ?_
    rw [workingTree_eq_ok_iff] at hw
    split
    · exact outcome_changeWorking hw
    · rfl

theorem outcome_copy (source target : String) :
    (copy source target).outcome r = r.attempt (r.copy source target) := by
  refine outcome_ask_bind fun p _ => outcome_ask_bind fun q _ => ?_
  split
  · rfl
  · refine outcome_ask_bind fun w hw => ?_
    rw [workingTree_eq_ok_iff] at hw
    split
    · rfl
    · exact outcome_ask_bind fun place _ => outcome_editWorking hw

theorem attempt_eq_ok {x : Except StoreError Repository} {r' : Repository}
    (h : r.attempt x = (r', .ok ())) : x = .ok r' := by
  cases x with
  | ok r'' => exact congrArg Except.ok (Prod.mk.inj h).1
  | error e => cases h

theorem attempt_eq_error {x : Except StoreError Repository} {r' : Repository} {e : StoreError}
    (h : r.attempt x = (r', .error e)) : x = .error e ∧ r' = r := by
  cases x with
  | ok r'' => cases h
  | error e' =>
    cases h
    exact ⟨rfl, rfl⟩

theorem outcome_move (source target : String) :
    (move source target).outcome r = r.move source target := by
  have hcopy := outcome_copy (r := r) source target
  rw [outcome] at hcopy ⊢
  cases hrun : (copy source target).run r with
  | ok _ r' =>
    rw [hrun] at hcopy
    rw [move, bind_of_ok hrun, Repository.move, attempt_eq_ok hcopy.symm]
    exact outcome_delete source
  | error e r' =>
    rw [hrun] at hcopy
    obtain ⟨herror, rfl⟩ := attempt_eq_error hcopy.symm
    rw [move, bind_of_error hrun, Repository.move, herror]

theorem forM_changeWorking (l : List (Path × WorkingNode)) (r : Repository) :
    (l.forM fun e => changeWorking (·.insert e.1 e.2)).run r =
      .ok () { r with working := r.working.map (·.insertMany l) } := by
  induction l generalizing r with
  | nil =>
    have hworking : r.working.map (fun w => w.insertMany []) = r.working := Option.map_id'
    rw [hworking]
    rfl
  | cons e l ih =>
    have htail := ih { r with working := r.working.map (·.insert e.1 e.2) }
    rw [Option.map_map] at htail
    exact htail

theorem outcome_switch (path url : String) (n : Nat) :
    (switch path url n).outcome r = r.attempt (r.switch path url n) := by
  refine outcome_ask_bind fun p _ => outcome_ask_bind fun q _ => outcome_ask_bind fun s _ =>
    outcome_ask_bind fun w hw => ?_
  rw [workingTree_eq_ok_iff] at hw
  cases w.get? p with
  | none => rfl
  | some here =>
    cases s.get? q with
    | none => rfl
    | some there =>
      dsimp only
      split
      · rfl
      · rw [outcome, bind_of_ok (changeWorking_run _ hw), forM_changeWorking]
        rfl

theorem outcome_edit (change : LocalEdit) : (edit change).outcome r = r.edit change := by
  cases change with
  | write path content => exact outcome_write path content
  | append path content => exact outcome_append path content
  | setProp path name value => exact outcome_changeProps path (·.insert name value)
  | deleteProp path name => exact outcome_changeProps path (·.erase name)
  | makeDirectory path => exact outcome_makeDirectory path
  | delete path => exact outcome_delete path
  | copy source target => exact outcome_copy source target
  | move source target => exact outcome_move source target
  | switch path url n => exact outcome_switch path url n

theorem outcome_checkout (n : Nat) : (checkout n).outcome r = r.attempt (r.checkout n) :=
  outcome_ask_bind fun _ _ => rfl

theorem outcome_commitWorkingCopy : commitWorkingCopy.outcome r = r.attempt r.commitWorkingCopy := by
  refine outcome_ask_bind fun w _ => ?_
  cases w.entries.find? fun e => e.2.reposPath != e.1 with
  | some e => rfl
  | none =>
    dsimp only
    rw [outcome_get_bind, outcome, bind_of_ok (ask_of_ok (snapshot_eq_ok_iff.2 r.snapshot?_youngest))]
    rfl

theorem keepFile_run (r : Repository) (p : Path) (node : DraftNode) :
    (keepFile node).run r = .ok () { r with blobs := r.blobs.putAll [(p, node)] } := by
  unfold keepFile Blobs.putAll
  cases hcontent : node.content with
  | none =>
    simp only [List.filterMap_cons, hcontent]
    rfl
  | some data =>
    simp only [List.filterMap_cons, hcontent]
    rfl

theorem keepNode_of_precedes {revision : Nat} {node : DraftNode}
    (h : node.sourcePrecedes revision = true) : keepNode revision node = keepFile node := by
  unfold DraftNode.sourcePrecedes at h
  unfold keepNode
  split
  · rename_i source hsource
    rw [hsource] at h
    exact if_pos (by simpa using h)
  · rfl

theorem keepNode_of_not_precedes {revision : Nat} {node : DraftNode}
    (h : node.sourcePrecedes revision = false) :
    ∃ source, node.copySource = some source ∧
      keepNode revision node = throw (.noSuchRevision source.revision) := by
  unfold DraftNode.sourcePrecedes at h
  unfold keepNode
  cases hsource : node.copySource with
  | none =>
    rw [hsource] at h
    cases h
  | some source =>
    rw [hsource] at h
    exact ⟨source, rfl, if_neg (by simpa using h)⟩

/-- Contents are kept up to the first node whose source is not an earlier revision. -/
theorem forM_keepNode (revision : Nat) (nodes : List (Path × DraftNode)) (r : Repository) :
    (nodes.forM fun e => keepNode revision e.2).run r =
      let p := fun e : Path × DraftNode => e.2.sourcePrecedes revision
      let r' := { r with blobs := r.blobs.putAll (nodes.takeWhile p) }
      match (nodes.dropWhile p).head?.bind fun e => e.2.copySource with
      | some source => .error (.noSuchRevision source.revision) r'
      | none => .ok () r' := by
  induction nodes generalizing r with
  | nil => rfl
  | cons e nodes ih =>
    change (keepNode revision e.2 >>= fun _ => nodes.forM fun e => keepNode revision e.2).run r = _
    cases hprecedes : e.2.sourcePrecedes revision with
    | true =>
      have hblobs : ∀ l, (r.blobs.putAll [e]).putAll l = r.blobs.putAll (e :: l) := by
        intro l
        unfold Blobs.putAll
        rw [← List.foldl_append, ← List.filterMap_append]
        rfl
      rw [keepNode_of_precedes hprecedes, bind_of_ok (keepFile_run r e.1 e.2), ih]
      simp only [List.takeWhile_cons, List.dropWhile_cons, hprecedes, if_true, hblobs]
    | false =>
      obtain ⟨source, hsource, hnode⟩ := keepNode_of_not_precedes hprecedes
      have hrun : (keepNode revision e.2).run r = .error (.noSuchRevision source.revision) r := by
        rw [hnode]
        rfl
      rw [bind_of_error hrun]
      simp [hprecedes, hsource, Blobs.putAll]

theorem outcome_commit (d : Draft) : (commit d).outcome r = r.commit d := by
  unfold commit Repository.commit
  cases d.fault with
  | some e => rfl
  | none =>
    have hnodes := forM_keepNode r.nextRevision d.nodes.entries r
    dsimp only at hnodes ⊢
    rw [List.span_eq_takeWhile_dropWhile, outcome_get_bind]
    dsimp only
    generalize ((d.nodes.entries.dropWhile fun e => e.2.sourcePrecedes r.nextRevision).head?.bind
      fun e => e.2.copySource) = stop at hnodes ⊢
    cases stop with
    | some source =>
      rw [outcome, bind_of_error hnodes]
    | none =>
      rw [outcome, bind_of_ok hnodes]
      rw [bind_of_ok (ask_of_ok (snapshot_eq_ok_iff.2 (snapshot?_youngest _)))]
      rfl

end InPlace

theorem outcome_inPlace (op : Operation) (r : Repository) : op.inPlace.outcome r = op.run r := by
  cases op with
  | commit d => exact InPlace.outcome_commit d
  | commitWorkingCopy => exact InPlace.outcome_commitWorkingCopy
  | checkout n => exact InPlace.outcome_checkout n
  | edit change => exact InPlace.outcome_edit change
  | putContent data => rfl

end TreeDelta
