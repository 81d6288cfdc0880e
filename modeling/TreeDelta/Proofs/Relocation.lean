import TreeDelta.Proofs.DraftShape
import TreeDelta.Proofs.InPlace
set_option autoImplicit false

namespace TreeDelta

open Repository

/-- The node holds what `original` holds and has no base. It names as its source the committed
node that `original` is, or else the source of `original`. -/
structure WorkingNode.Duplicates (node original : WorkingNode) : Prop where
  kind : node.kind = original.kind
  content : node.content = original.content
  props : node.props = original.props
  base : node.base = none
  sourceOfBased : ∀ b, original.base = some b → node.copySource = some ⟨original.reposPath, b⟩
  sourceOfAdded : original.base = none → node.copySource = original.copySource

theorem copyOf_duplicates (original : WorkingNode) (reposPath : Path) (replaced : Bool) :
    (copyOf original reposPath replaced).Duplicates original where
  kind := rfl
  content := rfl
  props := rfl
  base := rfl
  sourceOfBased b hb := by rw [copyOf, hb]
  sourceOfAdded hnone := by rw [copyOf, hnone]

/-- `w'` is `w` with a duplicate of the subtree at `p` put at `q`, where nothing was. -/
structure WorkingTree.Gains (w w' : WorkingTree) (p q : Path) : Prop where
  kept : ∀ k node, w.get? k = some node → w'.get? k = some node
  free : ∀ rel, w.get? (q.join rel) = none
  duplicated : ∀ rel,
    Option.Rel WorkingNode.Duplicates (w'.get? (q.join rel)) (w.get? (p.join rel))
  nothingElse : ∀ k, k.isAtOrBelow q = false → w'.get? k = w.get? k

variable {r r' : Repository} {w w' : WorkingTree} {p q : Path}

namespace WorkingTree

theorem gains_copied {reposPath : Path} {replaced : Bool} (hw : r.working = some w)
    (hconnected : w.shape.IsConnected) (hplace : r.newLocation q = .ok (reposPath, replaced)) :
    w.Gains (w.insertMany (copiedNodes w p q reposPath replaced)) p q := by
  have hvacant := (newLocation_eq_ok hw hplace).1
  have hfree : ∀ rel, w.get? (q.join rel) = none := fun rel =>
    Option.map_eq_none_iff.1 (hconnected.free_below (shape_eq_none hvacant) rel)
  have houtside : ∀ k, k.isAtOrBelow q = false →
      (w.insertMany (copiedNodes w p q reposPath replaced)).get? k = w.get? k :=
    fun k hk => get?_copied_outside hk
  refine ⟨fun k node hnode => ?_, hfree, fun rel => ?_, houtside⟩
  · rw [houtside k, hnode]
    rw [Bool.eq_false_iff]
    intro hk
    obtain ⟨rel, rfl⟩ := Path.isAtOrBelow_iff.1 hk
    rw [hfree] at hnode
    cases hnode
  · rw [get?_copied_below hconnected hvacant]
    cases w.get? (p.join rel) with
    | none => exact .none
    | some original => exact .some (copyOf_duplicates original _ _)

theorem Gains.exists_duplicate (h : w.Gains w' p q) {rel : Path} {original : WorkingNode}
    (hnode : w.get? (p.join rel) = some original) :
    ∃ node, w'.get? (q.join rel) = some node ∧ node.Duplicates original := by
  have hrel := h.duplicated rel
  rw [hnode] at hrel
  generalize w'.get? (q.join rel) = found at hrel
  cases hrel with
  | some hnode' => exact ⟨_, rfl, hnode'⟩

theorem Gains.apart (h : w.Gains w' p q) (hp : w.contains p = true) (hq : q.isAtOrBelow p = false)
    (rel : Path) : (q.join rel).isAtOrBelow p = false := by
  rw [Bool.eq_false_iff]
  intro hbelow
  rcases Path.isAtOrBelow_or_of_join hbelow with hqp | hpq
  · rw [hq] at hqp
    cases hqp
  · -- The source would lie below a place where nothing was.
    obtain ⟨way, rfl⟩ := Path.isAtOrBelow_iff.1 hpq
    exact OrderedMap.get?_eq_none_iff.1 (h.free way) hp

end WorkingTree

theorem edit_copy_gains (hr : r.Grounded fun _ => True) {source target : String}
    (h : r.edit (.copy source target) = (r', .ok ())) :
    ∃ p q w w', readPath source = .ok p ∧ readPath target = .ok q ∧ r.working = some w ∧
      r' = { r with working := some w' } ∧ w.contains p = true ∧ q.isAtOrBelow p = false ∧
      w.Gains w' p q := by
  obtain ⟨p, q, w, reposPath, replaced, hsource, htarget, hw, hq, hp, hplace, rfl⟩ :=
    copy_eq_ok (InPlace.attempt_eq_ok h)
  exact ⟨p, q, w, _, hsource, htarget, hw, rfl, hp, hq,
    WorkingTree.gains_copied hw (hr.working hw) hplace⟩

theorem edit_move_result (r : Repository) (source target : String) :
    (r.edit (.move source target)).2 = (r.edit (.copy source target)).2 := by
  simp only [edit, move]
  cases hcopy : r.copy source target with
  | error e => rfl
  | ok r' =>
    obtain ⟨r'', hdelete⟩ := delete_after_copy hcopy
    simp only [hdelete]
    rfl

theorem edit_move_eq_ok {source target : String} (h : r.edit (.move source target) = (r', .ok ())) :
    ∃ copied, r.edit (.copy source target) = (copied, .ok ()) ∧ copied.delete source = .ok r' := by
  simp only [edit, move] at h ⊢
  cases hcopy : r.copy source target with
  | error e =>
    rw [hcopy] at h
    cases h
  | ok copied =>
    rw [hcopy] at h
    exact ⟨copied, rfl, InPlace.attempt_eq_ok h⟩

/-- A copy adds a duplicate of each node of a subtree where nothing was, and changes nothing else. A
move succeeds where the copy does and leaves all that the copy leaves apart from the source, of which
nothing stays; all that it put at the target does. -/
theorem copy_move_entries (hr : r.Arises) (source target : String) :
    (∀ r', r.edit (.copy source target) = (r', .ok ()) → ∃ p q w w',
      readPath source = .ok p ∧ readPath target = .ok q ∧ r.working = some w ∧
      r' = { r with working := some w' } ∧ w.Gains w' p q) ∧
    (∀ r', r.edit (.move source target) = (r', .ok ()) → ∃ p q copied w',
      readPath source = .ok p ∧ readPath target = .ok q ∧
      r.edit (.copy source target) = ({ r with working := some copied }, .ok ()) ∧
      r' = { r with working := some w' } ∧
      (∀ k, w'.get? k = if k.isAtOrBelow p = true then none else copied.get? k) ∧
      ∀ rel, w'.get? (q.join rel) = copied.get? (q.join rel)) ∧
    (r.edit (.move source target)).2 = (r.edit (.copy source target)).2 := by
  refine ⟨fun r' h => ?_, fun r' h => ?_, edit_move_result r source target⟩
  · obtain ⟨p, q, w, w', hsource, htarget, hw, hr', -, -, hgains⟩ := edit_copy_gains hr.isConnected h
    exact ⟨p, q, w, w', hsource, htarget, hw, hr', hgains⟩
  · obtain ⟨copied, hcopy, hdelete⟩ := edit_move_eq_ok h
    obtain ⟨p, q, w, w₁, hsource, htarget, hw, rfl, hp, hq, hgains⟩ :=
      edit_copy_gains hr.isConnected hcopy
    obtain ⟨p', w₂, hsource', hw₂, -, -, rfl⟩ := delete_eq_ok hdelete
    obtain rfl : p = p' := Except.ok.inj (hsource.symm.trans hsource')
    obtain rfl : w₁ = w₂ := Option.some.inj hw₂
    refine ⟨p, q, w₁, _, hsource, htarget, hcopy, rfl, get?_withoutSubtree w₁ p, fun rel => ?_⟩
    rw [get?_withoutSubtree, hgains.apart hp hq rel, if_neg Bool.false_ne_true]

namespace Lookalikes

def draft : Draft := Draft.empty.applyAll [.directory "A/x", .directory "AA", .directory "A-1"]

def operations : List Operation := [.commit draft, .checkout 1, .edit (.makeDirectory "A/y")]

def repository : Repository := Repository.empty.runAll operations

theorem repository_arises : repository.Arises := by
  refine Repository.Arises.empty.runAll fun d hd => ?_
  obtain rfl : d = draft := by simpa [operations] using hd
  exact .new _

def copied : Repository := ((Operation.edit (.copy "A" "AA/A")).run repository).1

def moved : Repository := ((Operation.edit (.move "A" "A-1/A")).run repository).1

theorem copy_eq : repository.edit (.copy "A" "AA/A") = (copied, .ok ()) := rfl

theorem move_eq : repository.edit (.move "A" "A-1/A") = (moved, .ok ()) := rfl

def a : Path := Path.root.child ⟨"A", Eq.refl true⟩

def x : Path := Path.root.child ⟨"x", Eq.refl true⟩

def y : Path := Path.root.child ⟨"y", Eq.refl true⟩

def copyTarget : Path := (Path.root.child ⟨"AA", Eq.refl true⟩).join a

def moveTarget : Path := (Path.root.child ⟨"A-1", Eq.refl true⟩).join a

theorem working_get? : ∃ w, repository.working = some w ∧
    w.get? (a.join x) = some (.ofRecord ⟨.directory, none, .empty, none, 1⟩ (a.join x) 1) ∧
    w.get? (a.join y) = some (.added .directory none (a.join y) false) :=
  ⟨_, rfl, rfl, rfl⟩

end Lookalikes

open Lookalikes in
theorem copy_move_entries_lookalikes :
    repository.Arises ∧ repository.edit (.copy "A" "AA/A") = (copied, .ok ()) ∧
      repository.edit (.move "A" "A-1/A") = (moved, .ok ()) ∧
      (∃ w node node', copied.working = some w ∧ w.get? (copyTarget.join x) = some node ∧
        node.copySource = some ⟨a.join x, 1⟩ ∧ w.get? (copyTarget.join y) = some node' ∧
        node'.copySource = none ∧ w.contains (a.join y) = true) ∧
      ∃ w, moved.working = some w ∧ w.get? (a.join x) = none ∧
        w.contains (moveTarget.join x) = true := by
  obtain ⟨w, hw, hx, hy⟩ := working_get?
  obtain ⟨hcopy, -, -⟩ := copy_move_entries repository_arises "A" "AA/A"
  obtain ⟨-, hmove, -⟩ := copy_move_entries repository_arises "A" "A-1/A"
  refine ⟨repository_arises, copy_eq, move_eq, ?_, ?_⟩
  · obtain ⟨p, q, w₀, w', hp, hq, hw₀, hcopied, hgains⟩ := hcopy copied copy_eq
    obtain rfl : w₀ = w := Option.some.inj (hw₀.symm.trans hw)
    obtain rfl : a = p := Except.ok.inj hp
    obtain rfl : copyTarget = q := Except.ok.inj hq
    obtain ⟨node, hnode, hdx⟩ := hgains.exists_duplicate hx
    obtain ⟨node', hnode', hdy⟩ := hgains.exists_duplicate hy
    exact ⟨w', node, node', by rw [hcopied], hnode, hdx.sourceOfBased 1 rfl, hnode',
      hdy.sourceOfAdded rfl, OrderedMap.contains_iff.2 ⟨_, hgains.kept _ _ hy⟩⟩
  · obtain ⟨p, q, w₁, w', hp, hq, hcopy, hmoved, hgone, hkept⟩ := hmove moved move_eq
    obtain rfl : a = p := Except.ok.inj hp
    obtain rfl : moveTarget = q := Except.ok.inj hq
    refine ⟨w', by rw [hmoved], ?_, ?_⟩
    · rw [hgone, Path.isAtOrBelow_join, if_pos rfl]
    · have hcopied : w₁.contains (moveTarget.join x) = true := by
        have hworking := congrArg (fun out : Outcome => out.1.working) hcopy
        obtain rfl := Option.some.inj hworking
        rfl
      rw [OrderedMap.contains, hkept]
      exact hcopied

end TreeDelta
