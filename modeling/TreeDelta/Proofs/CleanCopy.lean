import TreeDelta.Proofs.NearestRecord
import TreeDelta.Proofs.RecordedSource
import TreeDelta.Proofs.SelfComparison
set_option autoImplicit false

namespace TreeDelta

open Repository

def WorkingNode.state (node : WorkingNode) : NodeState := ⟨node.kind, node.content, node.props⟩

/-- The working copy is what a checkout of revision `n` makes it. -/
def Repository.IsCleanAt (r : Repository) (n : Nat) : Prop :=
  ∃ s, r.snapshot? n = some s ∧ r.working = some (.ofSnapshot s n)

variable {r r' : Repository} {n : Nat} {s : Snapshot}

theorem checkout_isCleanAt (h : r.checkout n = .ok r') : r'.IsCleanAt n := by
  obtain ⟨s, hs, h⟩ := bind_eq_ok_iff.1 h
  cases h
  exact ⟨s, snapshot_eq_ok_iff.1 hs, rfl⟩

theorem commitWorkingCopy_isCleanAt (h : r.commitWorkingCopy = .ok r') : r'.IsCleanAt r'.youngest := by
  obtain ⟨w, -, -, hrevisions, hworking⟩ := commitWorkingCopy_eq_ok h
  exact ⟨_, snapshot?_commitWorkingCopy hrevisions, hworking⟩

theorem Repository.IsCleanAt.checkout_eq (h : r.IsCleanAt n) : r.checkout n = .ok r := by
  obtain ⟨s, hs, hw⟩ := h
  rw [checkout, snapshot_eq_ok_iff.2 hs]
  exact congrArg (fun w => Except.ok { r with working := w }) hw.symm

theorem state_ofRecord_recordOf (r : Repository) (p q : Path) (n : Nat) (node : WorkingNode) :
    (WorkingNode.ofRecord (r.recordOf p node) q n).state = node.state := by
  rw [WorkingNode.state, WorkingNode.state, NodeState.mk.injEq]
  exact ⟨(Record.carry_fields _ _).1, (Record.carry_fields _ _).2.1, (Record.carry_fields _ _).2.2.1⟩

theorem locate_recorded {w : WorkingTree} (hw : r.working = some w) {p : Path} {node : WorkingNode}
    (hnode : w.get? p = some node) {b c : Nat} (hbase : node.base = some b)
    (hchanged : node.changed = some c) {revision : RevisionSpec} (hne : revision ≠ .working) {m : Nat}
    (hm : Endpoint.recordedRevision r.store ⟨.workingCopy p, revision⟩ ⟨node.reposPath, b, c⟩ = .ok m) :
    Endpoint.locate r.store ⟨.workingCopy p, revision⟩ = .ok ⟨.revision m, node.reposPath⟩ := by
  have hrecorded : recorded r.store p = .ok ⟨node.reposPath, b, c⟩ := by
    have hsearch := recordedFrom_of_known hw .root none p.ancestors.reverse hnode
    rw [hbase, hchanged, Path.join_root, Option.getD_none, Path.join_root] at hsearch
    exact hsearch
  rw [locate_of_recorded hrecorded hne, hm]
  rfl

theorem locate_base (hw : r.working = some (.ofSnapshot s n)) {p : Path} (hp : s.contains p = true) :
    Endpoint.locate r.store ⟨.workingCopy p, .base⟩ = .ok ⟨.revision n, p⟩ := by
  obtain ⟨record, hrecord⟩ := OrderedMap.contains_iff.1 hp
  have hnode : (WorkingTree.ofSnapshot s n).get? p = some (.ofRecord record p n) := by
    rw [WorkingTree.ofSnapshot, OrderedMap.get?_map, hrecord, Option.map_some]
  exact locate_recorded hw hnode rfl rfl (by decide) rfl

theorem clean_views (hs : r.snapshot? n = some s) (hw : r.working = some (.ofSnapshot s n)) :
    ∃ v v', r.view? (.revision n) = some v ∧ r.view? .workingCopy = some v' ∧
      (∀ p, (v.nodes.get? p).map Node.state = (v'.nodes.get? p).map Node.state) ∧
      (∀ p, v'.nodes.contains p = true ↔ s.contains p = true) ∧ (∀ p, v'.recorded p = none) ∧
      v'.nodes.All fun _ node => node.replaced = false := by
  refine ⟨_, _, congrArg (Option.map _) hs, congrArg (Option.map _) hw, fun p => ?_, fun p => ?_,
    fun p => ?_, ?_⟩
  · simp only [WorkingTree.ofSnapshot, OrderedMap.get?_map, Option.map_map]
    rfl
  · rw [OrderedMap.contains_map, WorkingTree.ofSnapshot, OrderedMap.contains_map]
  · simp only [WorkingTree.ofSnapshot, OrderedMap.get?_map]
    cases s.get? p with
    | none => rfl
    | some record => rfl
  · exact OrderedMap.all_map_iff.2 (OrderedMap.all_map_iff.2 fun _ _ _ => rfl)

theorem states_eq_of_reads {w w' : TreeWalk} {v v' : View} {depth : Depth} {t t' : NodeTree}
    (ht : ∀ rel m, t.nodes.get? rel = some m ↔ w.Reads v depth rel m)
    (ht' : ∀ rel m, t'.nodes.get? rel = some m ↔ w'.Reads v' depth rel m)
    (hsame : ∀ rel, (v.nodes.get? (w.base.join rel)).map Node.state =
      (v'.nodes.get? (w'.base.join rel)).map Node.state) (rel : Path) :
    (t.nodes.get? rel).map Node.state = (t'.nodes.get? rel).map Node.state := by
  cases hm : t.nodes.get? rel with
  | some m =>
    obtain ⟨m', hm', hstate⟩ := ((ht rel m).1 hm).transfer hsame
    rw [(ht' rel m').2 hm', Option.map_some, Option.map_some, hstate]
  | none =>
    cases hm' : t'.nodes.get? rel with
    | none => rfl
    | some m' =>
      obtain ⟨m, hread, -⟩ := ((ht' rel m').1 hm').transfer fun rel => (hsame rel).symm
      rw [(ht rel m).2 hread] at hm
      cases hm

theorem NodeTree.isAbsent_eq_false {t : NodeTree} {rel : Path} {m : Node}
    (h : t.nodes.get? rel = some m) : t.isAbsent = false :=
  List.isEmpty_eq_false_iff_exists_mem.2 ⟨_, OrderedMap.get?_eq_some_iff.1 h⟩

theorem Repository.IsCleanAt.resolvePair_alike (h : r.IsCleanAt n) {w : WorkingTree} {p : Path}
    (hw : r.working = some w) (hp : w.contains p = true) (o : Options) :
    ∃ t t', resolvePair r.store ⟨.workingCopy p, .base⟩ ⟨.workingCopy p, .working⟩ o = .ok (t, t') ∧
      Alike o t t' ∧ ∀ rel m, t'.nodes.get? rel = some m → m.replaced = false := by
  obtain ⟨s, hs, hclean⟩ := h
  obtain rfl : w = .ofSnapshot s n := Option.some.inj (hw.symm.trans hclean)
  have hp' : s.contains p = true := by rwa [WorkingTree.ofSnapshot, OrderedMap.contains_map] at hp
  obtain ⟨v, v', hv, hv', hstates, hplaces, hsources, hflags⟩ := clean_views hs hclean
  obtain ⟨t, ht, hreads⟩ := resolveTree_reads (o := o) (locate_base hclean hp') hv
  obtain ⟨t', ht', hreads'⟩ := resolveTree_reads (o := o) (e := ⟨.workingCopy p, .working⟩)
    (l := ⟨.workingCopy, p⟩) rfl hv'
  have hplain : ∀ rel m, t'.nodes.get? rel = some m → m.copySource = none ∧ m.replaced = false := by
    intro rel m hm
    obtain ⟨node, inherited, hnode, rfl⟩ := ((hreads' rel m).1 hm).eq_placed
    refine ⟨?_, hflags _ node hnode⟩
    simp [TreeWalk.placed, TreeWalk.attached, TreeWalk.candidateSource, walkAt, hsources]
  have hpresent : t'.isAbsent = false := by
    obtain ⟨node, hnode⟩ := OrderedMap.contains_iff.1 ((hplaces p).2 hp')
    exact NodeTree.isAbsent_eq_false ((hreads' .root _).2 (.root hnode))
  refine ⟨t, t', ?_, ⟨states_eq_of_reads hreads hreads' fun rel => hstates (p.join rel), ?_, ?_⟩,
    fun rel m hm => (hplain rel m hm).2⟩
  · rw [resolvePair, ht, ht']
    simp only [bind, Except.bind, hpresent, Bool.and_false]
    rfl
  · intro rel a b _ hb
    rw [decidingSource, (hplain rel b hb).1]
    rfl
  · exact fun _ _ _ hq hm hbelow hne => resolveTree_directory_above ht' hq hm hbelow hne

theorem Repository.IsCleanAt.compareTrees_eq (h : r.IsCleanAt n) {w : WorkingTree} {p : Path}
    (hw : r.working = some w) (hp : w.contains p = true) {o : Options} (hvalid : o.validate = .ok ())
    (root : Option String) :
    compareTrees r.store ⟨⟨.workingCopy p, .base⟩, ⟨.workingCopy p, .working⟩, root, o⟩ = .ok [] := by
  obtain ⟨t, t', hpair, halike, hflags⟩ := h.resolvePair_alike hw hp o
  rw [compareTrees, hvalid, hpair]
  simp only [bind, Except.bind]
  rw [halike.changedPairs_eq_nil_iff.2 fun _ => hflags]
  rfl

/-- Right after a checkout or a commit a comparison with the base finds nothing, whatever is
compared. A commit changes no node and leaves what a checkout of the new revision leaves. -/
theorem compareTrees_clean (h : (∃ n, r.checkout n = .ok r') ∨ r.commitWorkingCopy = .ok r') :
    ∃ w', r'.working = some w' ∧
      (∀ (p : Path) (o : Options) (root : Option String), w'.contains p = true → o.validate = .ok () →
        compareTrees r'.store ⟨⟨.workingCopy p, .base⟩, ⟨.workingCopy p, .working⟩, root, o⟩ = .ok []) ∧
      (r.commitWorkingCopy = .ok r' → ∃ w, r.working = some w ∧
        (∀ p, (w'.get? p).map WorkingNode.state = (w.get? p).map WorkingNode.state) ∧
        r'.checkout r'.youngest = .ok r') := by
  obtain ⟨n, hclean⟩ : ∃ n, r'.IsCleanAt n := by
    rcases h with ⟨n, h⟩ | h
    · exact ⟨n, checkout_isCleanAt h⟩
    · exact ⟨_, commitWorkingCopy_isCleanAt h⟩
  obtain ⟨s, hs, hw'⟩ := id hclean
  refine ⟨_, hw', fun p o root hp hvalid => hclean.compareTrees_eq hw' hp hvalid root, fun hcommit => ?_⟩
  obtain ⟨w, hw, -, -, hworking⟩ := commitWorkingCopy_eq_ok hcommit
  refine ⟨w, hw, fun p => ?_, (commitWorkingCopy_isCleanAt hcommit).checkout_eq⟩
  rw [Option.some.inj (hw'.symm.trans hworking), WorkingTree.ofSnapshot, OrderedMap.get?_map,
    OrderedMap.get?_map, Option.map_map, Option.map_map]
  exact congrArg (Option.map · (w.get? p)) (funext fun node => state_ofRecord_recordOf r p p _ node)

namespace CommittedCopy

def origin : Path := Path.root.child ⟨"d", Eq.refl true⟩

def target : Path := Path.root.child ⟨"g", Eq.refl true⟩

def repository : Repository :=
  Repository.empty.runAll
    [.commit (Draft.empty.applyAll [.directory "d/e"]), .checkout 1, .edit (.copy "d" "g")]

def committed : Repository := (Operation.commitWorkingCopy.run repository).1

theorem commitWorkingCopy_eq : repository.commitWorkingCopy = .ok committed := rfl

def options : Options := { Options.default with noticeAncestry := true }

end CommittedCopy

open CommittedCopy in
theorem compareTrees_clean_copy :
    repository.commitWorkingCopy = .ok committed ∧ options.validate = .ok () ∧
      committed.copySource? target (.revision 2) = .ok (some ⟨origin, 1⟩) ∧
      (∃ w', committed.working = some w' ∧ w'.contains target = true) ∧
      compareTrees committed.store ⟨⟨.workingCopy target, .base⟩, ⟨.workingCopy target, .working⟩, none,
        options⟩ = .ok [] ∧
      committed.checkout 2 = .ok committed := by
  obtain ⟨w', hw', hcompare, hcommit⟩ := compareTrees_clean (.inr commitWorkingCopy_eq)
  obtain ⟨w, -, -, hcheckout⟩ := hcommit commitWorkingCopy_eq
  have htarget : w'.contains target = true := by
    cases hw'
    decide +kernel
  exact ⟨commitWorkingCopy_eq, rfl, by decide +kernel, ⟨w', hw', htarget⟩,
    hcompare target options none htarget rfl, hcheckout⟩

end TreeDelta
