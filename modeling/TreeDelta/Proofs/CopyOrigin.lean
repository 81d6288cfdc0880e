import TreeDelta.Proofs.NodeState
import TreeDelta.Proofs.Operation
import TreeDelta.Proofs.ResolvedTree
import TreeDelta.Proofs.Verdict
set_option autoImplicit false

namespace TreeDelta

open Repository

def Record.state (record : Record) : NodeState := ⟨record.kind, record.content, record.props⟩

def Repository.stateAt (r : Repository) (n : Nat) (p : Path) : Option NodeState :=
  (r.snapshot? n).bind fun s => (s.get? p).map Record.state

variable {r : Repository}

theorem node?_revision {p : Path} {n : Nat} {m : Node}
    (h : r.node? p (.revision n) = .ok (some m)) :
    r.stateAt n p = some m.state ∧ m.reposPath = some p := by
  obtain ⟨s, hs, h⟩ := bind_eq_ok_iff.1 h
  obtain ⟨record, hrecord, rfl⟩ := Option.map_eq_some_iff.1 (Except.ok.inj h)
  refine ⟨?_, rfl⟩
  rw [stateAt, snapshot_eq_ok_iff.1 hs, Option.bind_some, hrecord]
  rfl

theorem node?_workingCopy_origin {p : Path} {m : Node}
    (h : r.node? p .workingCopy = .ok (some m)) : m.origin = .workingCopy := by
  obtain ⟨w, -, h⟩ := bind_eq_ok_iff.1 h
  obtain ⟨node, -, rfl⟩ := Option.map_eq_some_iff.1 (Except.ok.inj h)
  rfl

/-- A node of a resolved tree that counts as the source of a copy is committed,
and it is what its tree's revision has at the source's path. -/
theorem stateAt_of_isCopySource {w : TreeWalk} {t : NodeTree} {rel : Path} {a : Node}
    {source : CopySource} (hstore : w.store = r.store) (ht : w.Sound t)
    (ha : t.nodes.get? rel = some a) (hsource : a.isCopySource source = true) :
    ∃ n, t.origin = .revision n ∧ r.stateAt n source.path = some a.state := by
  obtain ⟨m, hm, heq⟩ := ht.nodes rel a ha
  simp only [Node.isCopySource, Bool.and_eq_true, beq_iff_eq] at hsource
  obtain ⟨⟨-, hcommitted⟩, hplace⟩ := hsource
  have hstate : a.state = m.state := by rw [heq]; rfl
  have hrepos : a.reposPath = m.reposPath := by rw [heq]
  have horigin : a.origin = m.origin := by rw [heq]
  rw [hstore] at hm
  rw [hrepos] at hplace
  rw [horigin] at hcommitted
  rw [ht.origin]
  cases hw : w.origin with
  | revision n =>
    rw [hw] at hm
    obtain ⟨hat, hpath⟩ := node?_revision hm
    rw [hpath] at hplace
    rw [Option.some.inj hplace] at hat
    exact ⟨n, rfl, hstate ▸ hat⟩
  | workingCopy =>
    rw [hw] at hm
    rw [node?_workingCopy_origin hm] at hcommitted
    cases hcommitted

theorem stateAt_of_copySources {w : TreeWalk} {t : NodeTree} {source : CopySource} {n : Node}
    (hstore : w.store = r.store) (ht : w.Sound t) (hn : t.copySources.get? source = some n) :
    r.stateAt source.revision source.path = some n.state := by
  obtain ⟨m, hm, heq⟩ := ht.copySources source n hn
  have hstate : n.state = m.state := by rw [heq]; rfl
  rw [hstore] at hm
  rw [hstate]
  exact (node?_revision hm).1

/-- The left side of a copy onto a node of the old tree is the copy's source as
its own revision has it. It is the old node exactly if the revision of the old
tree has the same at the path of the source. -/
theorem copied_left_state_iff {e e' : Endpoint} {o : Options} {old new : NodeTree} {pair : NodePair}
    {a : Node} (hresolve : resolvePair r.store e e' o = .ok (old, new))
    (hpair : pair ∈ matchTrees o old new) (hcopied : pair.change = .copied)
    (ha : old.nodes.get? pair.path = some a) :
    ∃ n source, old.origin = .revision n ∧ pair.copiedFrom = some (source, pair.left) ∧
      r.stateAt n source.path = some a.state ∧
      r.stateAt source.revision source.path = some pair.left.state ∧
      (pair.left.state = a.state ↔
        r.stateAt source.revision source.path = r.stateAt n source.path) := by
  obtain ⟨hold, hnew⟩ := resolvePair_eq_ok hresolve
  obtain ⟨l, -, hold⟩ := resolveTree_sound hold
  obtain ⟨l', -, hnew⟩ := resolveTree_sound hnew
  obtain ⟨u, hverdict⟩ := verdict_of_mem_matchTrees hpair
  generalize pair.path = path at ha hverdict
  cases hverdict with
  | copied b source node hnone _ _ =>
    rw [hnone] at ha
    cases ha
  | copiedOnto a' b source node ha' hb hs hr =>
    obtain rfl : a' = a := Option.some.inj (ha'.symm.trans ha)
    have hsource : a'.isCopySource source = true := by
      simp only [Node.isReplacedByCopy, Bool.or_eq_false_iff, Bool.not_eq_false'] at hr
      exact hr.1
    obtain ⟨n, horigin, hat⟩ := stateAt_of_isCopySource rfl hold ha hsource
    have hleft := stateAt_of_copySources rfl hnew (decidingSource_some hs).2
    refine ⟨n, source, horigin, rfl, hat, hleft, ?_⟩
    rw [hat, hleft, Option.some.injEq]
  | _ => cases hcopied

namespace MovedBack

def path : Path := ⟨[⟨"d", by decide⟩]⟩

def props (value : String) : Props := OrderedMap.empty.insert "p" value

def snapshot (n : Nat) (value : String) : Snapshot :=
  Snapshot.bare.insert path ⟨.directory, none, props value, none, n⟩

def source : CopySource := ⟨path, 1⟩

/-- The directory changed in revision 2, and the working copy moved the one of revision 1. -/
def repository : Repository where
  blobs := .empty
  revisions := [snapshot 1 "1", snapshot 2 "2"]
  working := some <| (WorkingTree.ofSnapshot .bare 1).insert path
    { WorkingNode.added .directory none path true with props := props "1", copySource := some source }

def draft (value : String) : Draft := Draft.empty.applyAll [.directory "d", .setProp "d" "p" value]

def operations : List Operation :=
  [.commit (draft "1"), .commit (draft "2"), .checkout 1, .edit (.move "d" "e"), .edit (.move "e" "d")]

def node (origin : Origin) (value : String) : Node :=
  { Node.bare path .directory origin with props := props value, reposPath := some path }

def root (origin : Origin) : Node := { Node.bare .root .directory origin with reposPath := some .root }

def moved : Node := { node .workingCopy "1" with copySource := some source, replaced := true }

def old : NodeTree where
  origin := .revision 2
  location := .root
  nodes := (OrderedMap.empty.insert .root (root (.revision 2))).insert path (node (.revision 2) "2")
  copySources := .empty

def new : NodeTree where
  origin := .workingCopy
  location := .root
  nodes := (OrderedMap.empty.insert .root (root .workingCopy)).insert path moved
  copySources := OrderedMap.empty.insert source (node (.revision 1) "1")

def pair : NodePair where
  path := path
  change := .copied
  left := node (.revision 1) "1"
  right := moved
  copiedFrom := some (source, node (.revision 1) "1")

theorem resolvePair_eq :
    resolvePair repository.store ⟨.workingCopy .root, .number 2⟩ ⟨.workingCopy .root, .working⟩
      .default = .ok (old, new) := rfl

theorem pair_mem : pair ∈ matchTrees .default old new := by decide

theorem old_get? : old.nodes.get? pair.path = some (node (.revision 2) "2") := rfl

end MovedBack

open MovedBack in
theorem copied_left_movedBack :
    resolvePair repository.store ⟨.workingCopy .root, .number 2⟩ ⟨.workingCopy .root, .working⟩
        .default = .ok (old, new) ∧
      pair ∈ matchTrees .default old new ∧ old.nodes.get? pair.path = some (node (.revision 2) "2") ∧
      pair.left.state ≠ (node (.revision 2) "2").state := by
  refine ⟨resolvePair_eq, pair_mem, old_get?, ?_⟩
  obtain ⟨n, s, horigin, hfrom, -, -, hiff⟩ := copied_left_state_iff resolvePair_eq pair_mem rfl old_get?
  cases horigin
  cases hfrom
  have hchanged : repository.stateAt 1 path ≠ repository.stateAt 2 path := by decide +kernel
  exact fun heq => hchanged (hiff.1 heq)

open MovedBack in
theorem copied_left_ne_old :
    ¬ ∀ (r : Repository) (e e' : Endpoint) (o : Options) (old new : NodeTree) (pair : NodePair)
      (a : Node), r.Reachable → resolvePair r.store e e' o = .ok (old, new) →
      pair ∈ matchTrees o old new → pair.change = .copied → old.nodes.get? pair.path = some a →
      pair.left.state = a.state := by
  intro hleft
  have hrun : repository = Repository.empty.runAll operations := by decide +kernel
  have hreachable : repository.Reachable := by
    rw [hrun]
    exact Reachable.empty.runAll _
  have hstate := hleft _ _ _ _ _ _ _ _ hreachable resolvePair_eq pair_mem rfl old_get?
  have hprops : props "1" = props "2" := congrArg NodeState.props hstate
  have hvalue : some "1" = some "2" := by
    simpa [props] using congrArg (fun m => m.get? "p") hprops
  exact absurd hvalue (by decide)

end TreeDelta
