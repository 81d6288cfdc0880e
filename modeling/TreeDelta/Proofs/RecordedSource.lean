import TreeDelta.Proofs.Bookkeeping
set_option autoImplicit false

namespace TreeDelta

open Repository WorkingNode

def Snapshot.Follows (s : Snapshot) (r : Repository) : Prop :=
  s.All fun p record => record.changed = r.nextRevision ∨ r.youngestSnapshot.get? p = some record

/-- Every record stands in all revisions from its last change up to its own. -/
def Repository.RecordsStand (r : Repository) : Prop :=
  ∀ {n p record}, r.HasRecord n p record → ∀ m, record.changed ≤ m → m ≤ n → r.HasRecord m p record

variable {r r' : Repository}

theorem Record.carry_cases (old : Option Record) (new : Record) :
    (carry old new = new ∧ ∀ record, old = some record → record.sameNode new = false) ∨
      old = some (carry old new) := by
  unfold carry
  split
  · split
    · exact .inr rfl
    · rename_i hsame
      refine .inl ⟨rfl, fun record hrecord => ?_⟩
      cases hrecord
      exact Bool.eq_false_iff.2 hsame
  · exact .inl ⟨rfl, fun record hrecord => by cases hrecord⟩

theorem snapshotOf_follows (r : Repository) (d : Draft) : (r.snapshotOf d).Follows r := by
  refine OrderedMap.all_map_iff.2 fun p node _ => ?_
  rcases Record.carry_cases (r.youngestSnapshot.get? p) (node.record r.nextRevision) with
    ⟨hnew, -⟩ | hold
  · rw [hnew]
    exact .inl rfl
  · exact .inr hold

theorem recordOf_eq_carry (r : Repository) (p : Path) (node : WorkingNode) :
    ∃ new, new.changed = r.nextRevision ∧
      r.recordOf p node = .carry (if node.replaced then none else r.youngestSnapshot.get? p) new :=
  ⟨_, rfl, rfl⟩

theorem recordOf_follows (r : Repository) (w : WorkingTree) : Snapshot.Follows (w.map r.recordOf) r := by
  refine OrderedMap.all_map_iff.2 fun p node _ => ?_
  obtain ⟨new, hchanged, hcarry⟩ := recordOf_eq_carry r p node
  rw [hcarry]
  rcases Record.carry_cases (if node.replaced then none else r.youngestSnapshot.get? p) new with
    ⟨hnew, -⟩ | hold
  · rw [hnew]
    exact .inl hchanged
  · refine .inr ?_
    by_cases hreplaced : node.replaced = true
    · rw [if_pos hreplaced] at hold
      cases hold
    · rw [if_neg hreplaced] at hold ⊢
      exact hold

theorem hasRecord_append {s : Snapshot} {n : Nat} {p : Path} {record : Record}
    (hrevisions : r'.revisions = r.revisions ++ [s]) :
    r'.HasRecord n p record ↔
      r.HasRecord n p record ∨ n = r.nextRevision ∧ s.get? p = some record := by
  simp only [HasRecord, snapshot?_append hrevisions]
  constructor
  · rintro ⟨t, ht | ⟨rfl, rfl⟩, hget⟩
    · exact .inl ⟨t, ht, hget⟩
    · exact .inr ⟨rfl, hget⟩
  · rintro (⟨t, ht, hget⟩ | ⟨rfl, hget⟩)
    · exact ⟨t, .inl ht, hget⟩
    · exact ⟨s, .inr ⟨rfl, rfl⟩, hget⟩

theorem hasRecord_youngest {p : Path} {record : Record} :
    r.HasRecord r.youngest p record ↔ r.youngestSnapshot.get? p = some record := by
  simp [HasRecord, snapshot?_youngest]

namespace Repository.RecordsStand

theorem of_revisions (h : r.RecordsStand) (hrevisions : r'.revisions = r.revisions) :
    r'.RecordsStand := by
  intro n p record
  simp only [HasRecord, snapshot?_eq_of_revisions hrevisions]
  exact h

theorem append (h : r.RecordsStand) {s : Snapshot} (hs : s.Follows r)
    (hrevisions : r'.revisions = r.revisions ++ [s]) : r'.RecordsStand := by
  intro n p record hrecord m hchanged hm
  rw [hasRecord_append hrevisions] at hrecord ⊢
  rcases hrecord with hrecord | ⟨rfl, hget⟩
  · exact .inl (h hrecord m hchanged hm)
  · rcases Nat.eq_or_lt_of_le hm with rfl | hlt
    · exact .inr ⟨rfl, hget⟩
    · have hyoungest : r.youngestSnapshot.get? p = some record :=
        (hs p record hget).resolve_left fun heq => absurd hchanged (by omega)
      exact .inl (h (hasRecord_youngest.2 hyoungest) m hchanged (Nat.le_of_lt_succ hlt))

end Repository.RecordsStand

theorem Step.recordsStand {op : Operation} {out : Outcome} (h : Step r op out) (hr : r.RecordsStand) :
    out.1.RecordsStand := by
  cases h with
  | failed data _ => exact hr.of_revisions rfl
  | keptContent data => exact hr.of_revisions rfl
  | edited data hchanges => exact hr.of_revisions hchanges.frame.1
  | checkedOut _ => exact hr.of_revisions rfl
  | @committed d _ _ => exact hr.append (snapshotOf_follows r d) rfl
  | @committedWorkingCopy w _ _ => exact hr.append (recordOf_follows r w) rfl

theorem Repository.Reachable.hasRecord_since (h : r.Reachable) : r.RecordsStand := by
  induction h with
  | empty =>
    rintro n p record ⟨s, hs, hget⟩ m - hm
    obtain rfl : n = 0 := Nat.le_zero.1 (le_youngest_of_snapshot? hs)
    obtain rfl : m = 0 := Nat.le_zero.1 hm
    exact ⟨s, hs, hget⟩
  | @run r _ op ih => exact (step_run r op).recordsStand ih

theorem commitWorkingCopy_eq_ok (h : r.commitWorkingCopy = .ok r') :
    ∃ w, r.working = some w ∧ (∀ p node, w.get? p = some node → node.reposPath = p) ∧
      r'.revisions = r.revisions ++ [w.map r.recordOf] ∧
      r'.working = some (.ofSnapshot (w.map r.recordOf) r'.youngest) := by
  obtain ⟨w, hw, h⟩ := bind_eq_ok_iff.1 h
  rw [workingTree_eq_ok_iff] at hw
  split at h
  · cases h
  · rename_i hplace
    cases h
    refine ⟨w, hw, fun p node hnode => ?_, rfl, ?_⟩
    · simpa using List.find?_eq_none.1 hplace (p, node) (OrderedMap.get?_eq_some_iff.1 hnode)
    · rw [youngest, List.length_append]
      rfl

theorem copySource?_eq {n : Nat} {s : Snapshot} (hs : r.snapshot? n = some s) (p : Path) :
    r.copySource? p (.revision n) = .ok ((s.get? p).bind Record.copySource) := by
  rw [copySource?, snapshot_eq_ok_iff.2 hs]
  rfl

theorem copySource?_of_hasRecord {n : Nat} {p : Path} {record : Record} (h : r.HasRecord n p record) :
    r.copySource? p (.revision n) = .ok record.copySource := by
  obtain ⟨s, hs, hget⟩ := h
  rw [copySource?_eq hs, hget]
  rfl

theorem source_map_recordOf (r : Repository) {w : WorkingTree} {p : Path} {node : WorkingNode}
    (hnode : w.get? p = some node) :
    (OrderedMap.get? (w.map r.recordOf) p).bind Record.copySource =
      if node.base.isNone then node.copySource
      else (r.youngestSnapshot.get? p).bind Record.copySource := by
  rw [OrderedMap.get?_map, hnode, Option.map_some, Option.bind_some, recordOf,
    (Record.carry_fields _ _).2.2.2]

theorem snapshot?_commitWorkingCopy {w : WorkingTree}
    (h : r'.revisions = r.revisions ++ [w.map r.recordOf]) :
    r'.snapshot? r'.youngest = some (w.map r.recordOf) := by
  rw [snapshot?_append h]
  refine .inr ⟨?_, rfl⟩
  rw [youngest, h, List.length_append]
  rfl

/-- The sources of the revision that a commit of the working copy makes. A node with a base has the
one of the youngest revision before; if the node did not change after its base, that is the one of
the base. -/
theorem copySource_commitWorkingCopy (hr : r.Arises) (h : r.commitWorkingCopy = .ok r') :
    ∃ w, r.working = some w ∧
      (∀ p, w.get? p = none → r'.copySource? p (.revision r'.youngest) = .ok none) ∧
      ∀ p node, w.get? p = some node →
        (node.base = none → r'.copySource? p (.revision r'.youngest) = .ok node.copySource) ∧
        ∀ b, node.base = some b →
          r'.copySource? p (.revision r'.youngest) = r.copySource? p (.revision r.youngest) ∧
          ∀ record, r.HasRecord r.youngest p record → record.changed ≤ b →
            r'.copySource? p (.revision r'.youngest) = r.copySource? p (.revision b) := by
  obtain ⟨w, hw, -, hrevisions, -⟩ := commitWorkingCopy_eq_ok h
  have hs := snapshot?_commitWorkingCopy hrevisions
  refine ⟨w, hw, fun p hp => ?_, fun p node hnode => ⟨fun hbase => ?_, fun b hbase => ?_⟩⟩
  · rw [copySource?_eq hs, OrderedMap.get?_map, hp]
    rfl
  · rw [copySource?_eq hs, source_map_recordOf r hnode, hbase]
    rfl
  · have hyoungest :
        r'.copySource? p (.revision r'.youngest) = r.copySource? p (.revision r.youngest) := by
      rw [copySource?_eq hs, copySource?_eq (snapshot?_youngest r), source_map_recordOf r hnode, hbase]
      rfl
    refine ⟨hyoungest, fun record hrecord hchanged => ?_⟩
    obtain ⟨-, ⟨s, hs', -⟩, -⟩ := ((hr.booksKept.working hw p node hnode).atBase hbase).record
    have hbefore := hr.reachable.hasRecord_since hrecord b hchanged (le_youngest_of_snapshot? hs')
    rw [hyoungest, copySource?_of_hasRecord hrecord, copySource?_of_hasRecord hbefore]

namespace LaterSource

def f : Path := Path.root.child ⟨"f", Eq.refl true⟩

def g : Path := Path.root.child ⟨"g", Eq.refl true⟩

def operations : List Operation :=
  [.commit (Draft.empty.applyAll [.directory "f", .directory "g"]),
   .commit (Draft.empty.applyAll [.directory "f", .directory "g", .copiedFrom "f" "g" 1]),
   .checkout 1]

def repository : Repository := Repository.empty.runAll operations

theorem repository_arises : repository.Arises := by
  refine Repository.Arises.empty.runAll fun d hd => ?_
  have hdraft : d = Draft.empty.applyAll [.directory "f", .directory "g"] ∨
      d = Draft.empty.applyAll [.directory "f", .directory "g", .copiedFrom "f" "g" 1] := by
    simpa [operations] using hd
  rcases hdraft with rfl | rfl
  · exact .new _
  · exact .new _

def node (p : Path) : WorkingNode := ⟨.directory, none, .empty, p, some 1, some 1, none, false⟩

theorem working_get? : ∃ w, repository.working = some w ∧ w.get? f = some (node f) ∧
    w.get? g = some (node g) :=
  ⟨_, rfl, rfl, rfl⟩

def committed : Repository := (Operation.commitWorkingCopy.run repository).1

theorem commitWorkingCopy_eq : repository.commitWorkingCopy = .ok committed := rfl

end LaterSource

open LaterSource in
theorem copySource_commitWorkingCopy_later :
    repository.Arises ∧ repository.commitWorkingCopy = .ok committed ∧
      (∃ w, repository.working = some w ∧ w.get? f = some (node f) ∧ w.get? g = some (node g)) ∧
      committed.copySource? f (.revision 3) = .ok (some ⟨g, 1⟩) ∧
      repository.HasRecord 2 g ⟨.directory, none, .empty, none, 1⟩ ∧
      committed.copySource? g (.revision 3) = repository.copySource? g (.revision 1) := by
  obtain ⟨w, hw, -, hall⟩ := copySource_commitWorkingCopy repository_arises commitWorkingCopy_eq
  obtain ⟨w', hw', hf, hg⟩ := working_get?
  obtain rfl : w = w' := Option.some.inj (hw.symm.trans hw')
  have hrecord : repository.HasRecord 2 g ⟨.directory, none, .empty, none, 1⟩ :=
    ⟨_, rfl, by decide +kernel⟩
  refine ⟨repository_arises, commitWorkingCopy_eq, ⟨w, hw, hf, hg⟩, ?_, hrecord, ?_⟩
  · exact ((hall f _ hf).2 1 rfl).1.trans (by decide +kernel)
  · exact ((hall g _ hg).2 1 rfl).2 _ hrecord (Nat.le_refl 1)

open LaterSource in
theorem copySource_commitWorkingCopy_ne_base :
    ¬ ∀ (r r' : Repository) (w : WorkingTree) (p : Path) (node : WorkingNode),
      r.Arises → r.commitWorkingCopy = .ok r' → r.working = some w → w.get? p = some node →
      (node.base = none → r'.copySource? p (.revision r'.youngest) = .ok node.copySource) ∧
      ∀ b, node.base = some b →
        r'.copySource? p (.revision r'.youngest) = r.copySource? p (.revision b) := by
  intro hkeeps
  obtain ⟨w, hw, hf, -⟩ := working_get?
  have heq := (hkeeps _ _ w f _ repository_arises commitWorkingCopy_eq hw hf).2 1 rfl
  exact absurd heq (by decide +kernel)

end TreeDelta
