import TreeDelta.Proofs.InPlace
import TreeDelta.Proofs.PathOrder
import TreeDelta.Proofs.Shape
set_option autoImplicit false

namespace TreeDelta

open Repository

/-- Puts what lies at or below `q` in a list of records of revision `n` at `p`, one after the other,
and stops at the first that does not. -/
def putRun (p q : Path) (n : Nat) : List (Path × Record) → WorkingTree → WorkingTree
  | [], w => w
  | (k, record) :: rest, w =>
    match k.below? q with
    | none => w
    | some rel => putRun p q n rest (w.insert (p.join rel) (.ofRecord record k n))

theorem putRun_eq (p q : Path) (n : Nat) (records : List (Path × Record)) (w : WorkingTree) :
    putRun p q n records w =
      w.insertMany (((records.takeWhile fun e => e.1.isAtOrBelow q).filterMap fun e =>
        (e.1.below? q).map fun rel => (rel, e.2)).map fun e =>
          (p.join e.1, .ofRecord e.2 (q.join e.1) n)) := by
  induction records generalizing w with
  | nil => rfl
  | cons e rest ih =>
    obtain ⟨k, record⟩ := e
    unfold putRun
    cases hk : k.below? q with
    | none =>
      rw [List.takeWhile_cons_of_neg (by simp [Path.isAtOrBelow, hk])]
      rfl
    | some rel =>
      dsimp only
      rw [ih, List.takeWhile_cons_of_pos (by simp [Path.isAtOrBelow, hk])]
      simp only [List.filterMap_cons, hk, Option.map_some, List.map_cons]
      rw [Path.below?_eq_some_iff.1 hk]
      rfl

theorem putRun_entriesFrom (p q : Path) (n : Nat) (s : Snapshot) (w : WorkingTree) :
    putRun p q n (s.entriesFrom q) w = w.insertMany (switchedNodes s p q n) := by
  have hsubtree : (s.entries.filter fun e => e.1.isAtOrBelow q).filterMap
      (fun e => (e.1.below? q).map fun rel => (rel, e.2)) = subtree s q := by
    rw [List.filterMap_filter]
    refine List.filterMap_congr fun e _ => ?_
    cases hk : e.1.below? q with
    | none => simp [Path.isAtOrBelow, hk]
    | some rel => simp [Path.isAtOrBelow, hk]
  rw [putRun_eq, takeWhile_entriesFrom, hsubtree]
  rfl

variable {r r' : Repository} {path url : String} {n : Nat}

theorem insertMany_switchedNodes_root (w : WorkingTree) (s : Snapshot) (n : Nat) :
    (withoutSubtree w .root).insertMany (switchedNodes s .root .root n) =
      WorkingTree.ofSnapshot s n := by
  refine OrderedMap.ext_get? fun k => ?_
  have hbelow := get?_switched_below (w := w) (p := .root) (q := .root) (n := n) (s := s) k
  rw [Path.root_join] at hbelow
  rw [hbelow, WorkingTree.ofSnapshot, OrderedMap.get?_map]

/-- A switch leaves what lies outside of its place as it is. At its place and below is exactly what
the revision has at and below the place in the repository, unmodified, and reading the revision from
that place on up to the first node outside brings it there. -/
theorem switch_entries (h : r.edit (.switch path url n) = (r', .ok ())) :
    ∃ p q s w w', readPath path = .ok p ∧ readPath (repositoryPath url) = .ok q ∧
      r.snapshot? n = some s ∧ r.working = some w ∧ r' = { r with working := some w' } ∧
      (∀ k, k.isAtOrBelow p = false → w'.get? k = w.get? k) ∧
      (∀ rel, w'.get? (p.join rel) = (s.get? (q.join rel)).map fun record =>
        { kind := record.kind, content := record.content, props := record.props,
          reposPath := q.join rel, base := some n, changed := some record.changed,
          copySource := none, replaced := false }) ∧
      w' = putRun p q n (s.entriesFrom q) (withoutSubtree w p) ∧
      (p = .root → q = .root → r.checkout n = .ok r') := by
  obtain ⟨p, q, w, s, here, there, hpath, hurl, hw, hs, -, -, -, rfl⟩ :=
    switch_eq_ok (InPlace.attempt_eq_ok h)
  refine ⟨p, q, s, w, _, hpath, hurl, hs, hw, rfl, fun k hk => get?_switched_outside hk,
    fun rel => get?_switched_below rel, (putRun_entriesFrom p q n s _).symm, ?_⟩
  rintro rfl rfl
  rw [insertMany_switchedNodes_root, checkout, snapshot_eq_ok_iff.2 hs]
  rfl

namespace SwitchedApart

def draft : Draft :=
  Draft.empty.applyAll [.directory "A/x", .directory "A+", .directory "A-1", .directory "B/y"]

def operations : List Operation := [.commit draft, .checkout 1]

def repository : Repository := Repository.empty.runAll operations

def switched : Repository := ((Operation.edit (.switch "B" "^/A" 1)).run repository).1

theorem switch_eq : repository.edit (.switch "B" "^/A" 1) = (switched, .ok ()) := rfl

def a : Path := Path.root.child ⟨"A", Eq.refl true⟩

def b : Path := Path.root.child ⟨"B", Eq.refl true⟩

def x : Path := Path.root.child ⟨"x", Eq.refl true⟩

def y : Path := Path.root.child ⟨"y", Eq.refl true⟩

theorem snapshot_get? : ∃ s, repository.snapshot? 1 = some s ∧
    s.get? (a.join x) = some ⟨.directory, none, .empty, none, 1⟩ ∧ s.get? (a.join y) = none :=
  ⟨_, rfl, rfl, rfl⟩

end SwitchedApart

open SwitchedApart in
theorem switch_entries_apart :
    repository.edit (.switch "B" "^/A" 1) = (switched, .ok ()) ∧
      ∃ w, switched.working = some w ∧ w.get? (b.join y) = none ∧
        w.get? (b.join x) =
          some ⟨.directory, none, .empty, a.join x, some 1, some 1, none, false⟩ := by
  obtain ⟨p, q, s, w, w', hp, hq, hs, -, hswitched, -, hentries, -, -⟩ := switch_entries switch_eq
  obtain ⟨s', hs', hx, hy⟩ := snapshot_get?
  obtain rfl : s' = s := Option.some.inj (hs'.symm.trans hs)
  obtain rfl : b = p := Except.ok.inj hp
  obtain rfl : a = q := Except.ok.inj hq
  refine ⟨switch_eq, w', by rw [hswitched], ?_, ?_⟩
  · rw [hentries, hy, Option.map_none]
  · rw [hentries, hx, Option.map_some]

end TreeDelta
