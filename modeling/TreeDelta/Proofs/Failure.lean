import TreeDelta.Proofs.History
import TreeDelta.Proofs.InPlace
set_option autoImplicit false

namespace TreeDelta

open Repository

/-- The trees are the same, and no content is lost. -/
structure Repository.SameTrees (r r' : Repository) : Prop where
  revisions : r'.revisions = r.revisions
  working : r'.working = r.working
  blobs : r.blobs.Grows r'.blobs

theorem Repository.SameTrees.refl (r : Repository) : r.SameTrees r := ⟨rfl, rfl, .refl _⟩

theorem Repository.SameTrees.trans {r₁ r₂ r₃ : Repository} (h : r₁.SameTrees r₂)
    (h' : r₂.SameTrees r₃) : r₁.SameTrees r₃ :=
  ⟨h'.revisions.trans h.revisions, h'.working.trans h.working, h.blobs.trans h'.blobs⟩

namespace InPlace

variable {α β : Type} {r r' : Repository} {a : InPlace α} {k : α → InPlace β}

def stateAfter (a : InPlace α) (r : Repository) : Repository :=
  match a.run r with
  | .ok _ r' => r'
  | .error _ r' => r'

/-- Changes no tree, whether it fails or not. -/
def Quiet (a : InPlace α) : Prop := ∀ r : Repository, r.SameTrees (a.stateAfter r)

def Sure (a : InPlace α) : Prop := ∀ r, ∃ x r', a.run r = .ok x r'

/-- Changes no tree if it fails. -/
def Atomic (a : InPlace α) : Prop := ∀ r e r', a.run r = .error e r' → r.SameTrees r'

theorem Quiet.of_ok {x : α} (h : Quiet a) (hrun : a.run r = .ok x r') : r.SameTrees r' := by
  simpa only [stateAfter, hrun] using h r

theorem Quiet.of_error {e : StoreError} (h : Quiet a) (hrun : a.run r = .error e r') :
    r.SameTrees r' := by
  simpa only [stateAfter, hrun] using h r

theorem quiet_pure (x : α) : Quiet (pure x : InPlace α) := fun r => .refl r

theorem quiet_throw (e : StoreError) : Quiet (throw e : InPlace α) := fun r => .refl r

theorem quiet_get : Quiet (get : InPlace Repository) := fun r => .refl r

theorem quiet_ask (f : Repository → Except StoreError α) : Quiet (ask f) := by
  intro r
  unfold stateAfter
  cases hf : f r with
  | ok x =>
    rw [ask_of_ok hf]
    exact .refl r
  | error e =>
    rw [ask_of_error hf]
    exact .refl r

theorem quiet_keepContent (data : Bytes) : Quiet (keepContent data) :=
  fun r => ⟨rfl, rfl, r.blobs.grows_put data⟩

theorem Quiet.bind (ha : Quiet a) (hk : ∀ x, Quiet (k x)) : Quiet (a >>= k) := by
  intro r
  unfold stateAfter
  cases hrun : a.run r with
  | ok x r₁ =>
    rw [bind_of_ok hrun]
    exact (ha.of_ok hrun).trans (hk x r₁)
  | error e r₁ =>
    rw [bind_of_error hrun]
    exact ha.of_error hrun

theorem quiet_forM {ν : Type} (l : List ν) {f : ν → InPlace PUnit} (hf : ∀ x, Quiet (f x)) :
    Quiet (l.forM f) := by
  induction l with
  | nil => exact quiet_pure _
  | cons x l ih => exact (hf x).bind fun _ => ih

theorem sure_pure (x : α) : Sure (pure x : InPlace α) := fun r => ⟨x, r, rfl⟩

theorem sure_modify (f : Repository → Repository) : Sure (modify f : InPlace PUnit) :=
  fun r => ⟨_, f r, rfl⟩

theorem Sure.bind (ha : Sure a) (hk : ∀ x, Sure (k x)) : Sure (a >>= k) := by
  intro r
  obtain ⟨x, r₁, hrun⟩ := ha r
  rw [bind_of_ok hrun]
  exact hk x r₁

theorem sure_forM {ν : Type} (l : List ν) {f : ν → InPlace PUnit} (hf : ∀ x, Sure (f x)) :
    Sure (l.forM f) := by
  induction l with
  | nil => exact sure_pure _
  | cons x l ih => exact (hf x).bind fun _ => ih

theorem Quiet.atomic (h : Quiet a) : Atomic a := fun _ _ _ => h.of_error

theorem Sure.atomic (h : Sure a) : Atomic a := by
  intro r e r' herror
  obtain ⟨x, r₁, hok⟩ := h r
  rw [hok] at herror
  cases herror

theorem Quiet.bind_atomic (ha : Quiet a) (hk : ∀ x, Atomic (k x)) : Atomic (a >>= k) := by
  intro r e r' h
  cases hrun : a.run r with
  | ok x r₁ =>
    rw [bind_of_ok hrun] at h
    exact (ha.of_ok hrun).trans (hk x r₁ e r' h)
  | error e₁ r₁ =>
    rw [bind_of_error hrun] at h
    cases h
    exact ha.of_error hrun

theorem atomic_throw (e : StoreError) : Atomic (throw e : InPlace α) := (quiet_throw e).atomic

theorem atomic_ask {f : Repository → Except StoreError α} (hk : ∀ x, Atomic (k x)) :
    Atomic (ask f >>= k) := (quiet_ask f).bind_atomic hk

theorem atomic_modify (f : Repository → Repository) : Atomic (modify f : InPlace PUnit) :=
  (sure_modify f).atomic

theorem atomic_editWorking (f : WorkingTree → WorkingTree) : Atomic (editWorking f) :=
  atomic_ask fun _ => atomic_modify _

theorem atomic_setFile (p : Path) (id : ContentId) : Atomic (setFile p id) := by
  refine atomic_ask fun w => ?_
  split
  · split
    · exact atomic_modify _
    · exact atomic_throw _
  · exact atomic_ask fun _ => atomic_editWorking _

theorem atomic_write (path : String) (data : Bytes) : Atomic (write path data) :=
  atomic_ask fun p => (quiet_keepContent data).bind_atomic fun id => atomic_setFile p id

theorem atomic_append (path : String) (data : Bytes) : Atomic (append path data) := by
  refine atomic_ask fun p => atomic_ask fun w => ?_
  split
  · exact atomic_throw _
  · split
    · exact atomic_throw _
    · refine quiet_get.bind_atomic fun r => ?_
      split
      · exact atomic_throw _
      · exact (quiet_keepContent _).bind_atomic fun _ => atomic_editWorking _

theorem atomic_changeProps (path : String) (f : Props → Props) : Atomic (changeProps path f) := by
  refine atomic_ask fun p => atomic_ask fun w => ?_
  split
  · exact atomic_throw _
  · exact atomic_modify _

theorem atomic_makeDirectory (path : String) : Atomic (makeDirectory path) :=
  atomic_ask fun _ => atomic_ask fun _ => atomic_editWorking _

theorem atomic_delete (path : String) : Atomic (delete path) := by
  refine atomic_ask fun p => ?_
  split
  · exact atomic_throw _
  · refine atomic_ask fun w => ?_
    split
    · exact atomic_modify _
    · exact atomic_throw _

theorem atomic_copy (source target : String) : Atomic (copy source target) := by
  refine atomic_ask fun p => atomic_ask fun q => ?_
  split
  · exact atomic_throw _
  · refine atomic_ask fun w => ?_
    split
    · exact atomic_throw _
    · exact atomic_ask fun _ => atomic_editWorking _

theorem atomic_switch (path url : String) (n : Nat) : Atomic (switch path url n) := by
  refine atomic_ask fun p => atomic_ask fun q => atomic_ask fun s => atomic_ask fun w => ?_
  split
  · exact atomic_throw _
  · exact atomic_throw _
  · split
    · exact atomic_throw _
    · exact ((sure_modify _).bind fun _ => sure_forM _ fun _ => sure_modify _).atomic

theorem quiet_keepFile (node : DraftNode) : Quiet (keepFile node) := by
  unfold keepFile
  split
  · exact (quiet_keepContent _).bind fun _ => quiet_pure _
  · exact quiet_pure _

theorem quiet_keepNode (revision : Nat) (node : DraftNode) : Quiet (keepNode revision node) := by
  unfold keepNode
  split
  · split
    · exact quiet_keepFile node
    · exact quiet_throw _
  · exact quiet_keepFile node

theorem atomic_commit (d : Draft) : Atomic (commit d) := by
  unfold commit
  split
  · exact atomic_throw _
  · refine quiet_get.bind_atomic fun r => ?_
    refine (quiet_forM _ fun e : Path × DraftNode => quiet_keepNode _ e.2).bind_atomic fun _ => ?_
    exact atomic_ask fun _ => atomic_modify _

theorem atomic_checkout (n : Nat) : Atomic (checkout n) := atomic_ask fun _ => atomic_modify _

theorem atomic_commitWorkingCopy : Atomic commitWorkingCopy := by
  refine atomic_ask fun w => ?_
  split
  · exact atomic_throw _
  · refine quiet_get.bind_atomic fun r => atomic_ask fun _ => ?_
    exact ((sure_modify _).bind fun _ => sure_modify _).atomic

theorem outcome_eq_ok {a : InPlace Unit} (h : a.outcome r = (r', .ok ())) : a.run r = .ok () r' := by
  unfold outcome at h
  split at h
  · rename_i x r₁ hrun
    cases h
    exact hrun
  · cases h

/-- Once the copy of a move has been written, its source is there to be deleted. -/
theorem delete_after_copy_run {source target : String} (h : (copy source target).run r = .ok () r') :
    ∃ r'', (delete source).run r' = .ok () r'' := by
  have hcopy := outcome_copy (r := r) source target
  rw [outcome, h] at hcopy
  obtain ⟨r'', hdelete⟩ := delete_after_copy (attempt_eq_ok hcopy.symm)
  refine ⟨r'', outcome_eq_ok ?_⟩
  rw [outcome_delete, hdelete]
  rfl

theorem atomic_move (source target : String) : Atomic (move source target) := by
  intro r e r' h
  cases hrun : (copy source target).run r with
  | ok _ r₁ =>
    obtain ⟨r'', hdelete⟩ := delete_after_copy_run hrun
    rw [move, bind_of_ok hrun, hdelete] at h
    cases h
  | error e₁ r₁ =>
    rw [move, bind_of_error hrun] at h
    cases h
    exact atomic_copy source target r e r' hrun

theorem atomic_edit (change : LocalEdit) : Atomic (edit change) := by
  cases change with
  | write path content => exact atomic_write path content
  | append path content => exact atomic_append path content
  | setProp path name value => exact atomic_changeProps path (·.insert name value)
  | deleteProp path name => exact atomic_changeProps path (·.erase name)
  | makeDirectory path => exact atomic_makeDirectory path
  | delete path => exact atomic_delete path
  | copy source target => exact atomic_copy source target
  | move source target => exact atomic_move source target
  | switch path url n => exact atomic_switch path url n

end InPlace

theorem Operation.inPlace_atomic (op : Operation) : op.inPlace.Atomic := by
  cases op with
  | commit d => exact InPlace.atomic_commit d
  | commitWorkingCopy => exact InPlace.atomic_commitWorkingCopy
  | checkout n => exact InPlace.atomic_checkout n
  | edit change => exact InPlace.atomic_edit change
  | putContent data =>
    exact ((InPlace.quiet_keepContent data).bind fun _ => InPlace.quiet_pure _).atomic

/-- An operation comes to the same as its checks and writes one by one, and if it fails, the revisions
and the working copy are what they were and no content has changed. A move fails only with its
copy. -/
theorem run_error_keeps_trees (r : Repository) :
    (∀ op : Operation, op.inPlace.outcome r = op.run r ∧
      ∀ e, (op.run r).2 = .error e →
        (op.run r).1.revisions = r.revisions ∧ (op.run r).1.working = r.working ∧
          ∀ id data, r.blobs.get? id = some data → (op.run r).1.blobs.get? id = some data) ∧
    ∀ source target r', r.copy source target = .ok r' →
      ∃ r'', r'.delete source = .ok r'' ∧ r.move source target = (r'', .ok ()) := by
  refine ⟨fun op => ⟨outcome_inPlace op r, fun e he => ?_⟩, fun source target r' hcopy => ?_⟩
  · rw [← outcome_inPlace] at he ⊢
    unfold InPlace.outcome at he ⊢
    split at he
    · cases he
    · rename_i e r' hrun
      have hsame := op.inPlace_atomic r e r' hrun
      exact ⟨hsame.revisions, hsame.working, hsame.blobs⟩
  · obtain ⟨r'', hdelete⟩ := delete_after_copy hcopy
    refine ⟨r'', hdelete, ?_⟩
    rw [move, hcopy]
    dsimp only
    rw [hdelete]
    rfl

theorem run_error_keeps_trees_write :
    let r := Repository.empty.runAll [.checkout 0]
    let out := Operation.run r (.edit (.write "a/b" [97]))
    (∃ p, out.2 = .error (.invalidOperation p .parentNotDirectory)) ∧
      out.1.revisions = r.revisions ∧ out.1.working = r.working ∧
      r.blobs.contains (.ofBytes [97]) = false ∧ out.1.blobs.contains (.ofBytes [97]) = true := by
  intro r out
  have herror : out.2 = .error (.invalidOperation ⟨[⟨"a", by decide⟩, ⟨"b", by decide⟩]⟩
      .parentNotDirectory) := rfl
  obtain ⟨hrevisions, hworking, -⟩ :=
    ((run_error_keeps_trees r).1 (.edit (.write "a/b" [97]))).2 _ herror
  exact ⟨⟨_, herror⟩, hrevisions, hworking, rfl, Blobs.contains_put_self _ _⟩

end TreeDelta
