import TreeDelta.Proofs.NodeState
import TreeDelta.Proofs.Verdict
set_option autoImplicit false

namespace TreeDelta

/-- Takes a pair as an edit. It fails where the states are not what the pair
says; a replacement has to be split first. -/
def NodePair.replay (v : States) (p : NodePair) : Option States :=
  match p.change with
  | .added | .copied => some (v.insert p.path p.right.state)
  | .deleted => if v.get? p.path = some p.left.state then some (v.erase p.path) else none
  | .modified =>
    if v.get? p.path = some p.left.state then some (v.insert p.path p.right.state) else none
  | .unchanged => if v.get? p.path = some p.right.state then some v else none
  | .replaced => none

def States.settle (v : States) (path : Path) (s : Option NodeState) : States :=
  match s with
  | some s => v.insert path s
  | none => v.erase path

theorem States.get?_settle_self (v : States) (path : Path) (s : Option NodeState) :
    (v.settle path s).get? path = s := by
  cases s <;> simp [settle]

theorem States.get?_settle_ne (v : States) {path q : Path} (s : Option NodeState) (h : q ≠ path) :
    (v.settle path s).get? q = v.get? q := by
  cases s with
  | none => exact OrderedMap.get?_erase_ne v h
  | some s => exact OrderedMap.get?_insert_ne v s h

theorem States.settle_of_get? {v : States} {path : Path} {s : NodeState}
    (h : v.get? path = some s) : v.settle path (some s) = v := by
  refine OrderedMap.ext_get? fun q => ?_
  by_cases hq : q = path
  · rw [hq, get?_settle_self, h]
  · exact get?_settle_ne v (some s) hq

theorem States.settle_settle (v : States) (path : Path) (s s' : Option NodeState) :
    (v.settle path s).settle path s' = v.settle path s' := by
  refine OrderedMap.ext_get? fun q => ?_
  by_cases hq : q = path
  · rw [hq, get?_settle_self, get?_settle_self]
  · rw [get?_settle_ne _ _ hq, get?_settle_ne _ _ hq, get?_settle_ne _ _ hq]

theorem Node.state_eq_of_differs {a b : Node} (hk : a.kind = b.kind) (hd : a.differs b = false) :
    a.state = b.state := by
  simp only [Node.differs, Bool.or_eq_false_iff, bne_eq_false_iff_eq] at hd
  simp [Node.state, hk, hd.1, hd.2]

theorem Node.kind_eq_of_isReplacedBy {o : Options} {u : Bool} {a b : Node}
    (h : a.isReplacedBy o u b = false) : a.kind = b.kind := by
  simp only [Node.isReplacedBy, Bool.or_eq_false_iff, bne_eq_false_iff_eq] at h
  exact h.1

variable {o : Options} {old new : NodeTree}

theorem Verdict.replay {u : Bool} {path : Path} {p : NodePair} {v : States}
    (h : Verdict o old new u path p) (hv : v.get? path = old.states.get? path)
    (hp : old.nodes.contains path = true ∨ new.nodes.contains path = true) :
    p.expand.foldlM NodePair.replay v = some (v.settle path (new.states.get? path)) := by
  rw [NodeTree.get?_states] at hv ⊢
  cases h with
  | absent ha hb => simp [OrderedMap.contains, ha, hb] at hp
  | deleted a ha hb =>
    simp [NodePair.expand, NodePair.replay, hv, ha, hb, States.settle]
  | added b ha hb hs => simp [NodePair.expand, NodePair.replay, hb, States.settle]
  | copied b source node ha hb hs => simp [NodePair.expand, NodePair.replay, hb, States.settle]
  | copiedOnto a b source node ha hb hs hr =>
    simp [NodePair.expand, NodePair.replay, hb, States.settle]
  | replacedByCopy a b source node ha hb hs hr =>
    have hset := v.settle_settle path none (some b.state)
    simp only [States.settle] at hset
    simp [NodePair.expand, NodePair.deletion, NodePair.addition, NodePair.replay, hv, ha, hb,
      States.settle, hset]
  | replaced a b ha hb hs hr =>
    have hset := v.settle_settle path none (some b.state)
    simp only [States.settle] at hset
    simp [NodePair.expand, NodePair.deletion, NodePair.addition, NodePair.replay, hv, ha, hb,
      States.settle, hset]
  | modified a b ha hb hs hr hd =>
    simp [NodePair.expand, NodePair.replay, hv, ha, hb, States.settle]
  | unchanged a b ha hb hs hr hd =>
    have hab := Node.state_eq_of_differs (Node.kind_eq_of_isReplacedBy hr) hd
    have hb' : v.get? path = some b.state := by simp [hv, ha, hab]
    simp [NodePair.expand, NodePair.replay, hb', hb, States.settle_of_get?]

/-- A run over the paths still to come. What lies elsewhere is settled already. -/
theorem classifyAll_replay {replaced paths : List Path} {v : States} (hnodup : paths.Nodup)
    (hcover : ∀ path ∈ paths, old.nodes.contains path = true ∨ new.nodes.contains path = true)
    (hrest : ∀ path ∈ paths, v.get? path = old.states.get? path)
    (hdone : ∀ path, path ∉ paths → v.get? path = new.states.get? path) :
    ((classifyAll o old new replaced paths).flatMap NodePair.expand).foldlM NodePair.replay v =
      some new.states := by
  induction paths generalizing replaced v with
  | nil =>
    have hv : v = new.states := OrderedMap.ext_get? fun q => hdone q (by simp)
    simp [classifyAll, hv]
  | cons path paths ih =>
    obtain ⟨hpath, hnodup⟩ := List.nodup_cons.1 hnodup
    have hstep := (classify_verdict o old new (replaced.any path.isAtOrBelow) path).replay
      (hrest path (by simp)) (hcover path (by simp))
    simp only [classifyAll, List.flatMap_cons, List.foldlM_append, hstep, Option.bind_eq_bind,
      Option.bind_some]
    refine ih hnodup (fun q hq => hcover q (by simp [hq])) ?_ ?_
    · intro q hq
      have hne : q ≠ path := fun h => hpath (h ▸ hq)
      rw [States.get?_settle_ne v _ hne, hrest q (by simp [hq])]
    · intro q hq
      by_cases hne : q = path
      · rw [hne, States.get?_settle_self]
      · rw [States.get?_settle_ne v _ hne, hdone q (by simp [hne, hq])]

def Node.IsVoid (n : Node) : Prop := n.kind = .nonexistent ∧ n.content = none ∧ n.props = .empty

theorem Node.isVoid_nonexistent (path : Path) (origin : Origin) :
    (Node.nonexistent path origin).IsVoid :=
  ⟨rfl, rfl, rfl⟩

def NodeTree.AllPresent (t : NodeTree) : Prop :=
  ∀ path n, t.nodes.get? path = some n → n.isPresent = true

def NodePair.IsSound (p : NodePair) : Prop :=
  (p.copiedFrom.isSome = true ↔ p.change = .copied) ∧
    match p.change with
    | .added => p.left.IsVoid ∧ p.right.isPresent = true
    | .deleted => p.left.isPresent = true ∧ p.right.IsVoid
    | .modified | .unchanged => p.left.kind = p.right.kind ∧ p.left.isPresent = true
    | .copied => p.right.isPresent = true
    | .replaced => False

theorem Verdict.isSound {u : Bool} {path : Path} {p q : NodePair}
    (h : Verdict o old new u path p) (hold : old.AllPresent) (hnew : new.AllPresent)
    (hp : old.nodes.contains path = true ∨ new.nodes.contains path = true) (hq : q ∈ p.expand) :
    q.IsSound := by
  cases h with
  | absent ha hb => simp [OrderedMap.contains, ha, hb] at hp
  | deleted a ha hb =>
    obtain rfl : q = _ := by simpa [NodePair.expand] using hq
    exact ⟨by simp, hold path a ha, Node.isVoid_nonexistent _ _⟩
  | added b ha hb hs =>
    obtain rfl : q = _ := by simpa [NodePair.expand] using hq
    exact ⟨by simp, Node.isVoid_nonexistent _ _, hnew path b hb⟩
  | copied b source node ha hb hs =>
    obtain rfl : q = _ := by simpa [NodePair.expand] using hq
    exact ⟨by simp, hnew path b hb⟩
  | copiedOnto a b source node ha hb hs hr =>
    obtain rfl : q = _ := by simpa [NodePair.expand] using hq
    exact ⟨by simp, hnew path b hb⟩
  | replacedByCopy a b source node ha hb hs hr =>
    simp only [NodePair.expand, if_true, List.mem_cons, List.not_mem_nil, or_false] at hq
    rcases hq with rfl | rfl
    · exact ⟨by simp [NodePair.deletion], hold path a ha, Node.isVoid_nonexistent _ _⟩
    · exact ⟨by simp [NodePair.addition], hnew path b hb⟩
  | replaced a b ha hb hs hr =>
    simp only [NodePair.expand, if_true, List.mem_cons, List.not_mem_nil, or_false] at hq
    rcases hq with rfl | rfl
    · exact ⟨by simp [NodePair.deletion], hold path a ha, Node.isVoid_nonexistent _ _⟩
    · exact ⟨by simp [NodePair.addition], Node.isVoid_nonexistent _ _, hnew path b hb⟩
  | modified a b ha hb hs hr hd =>
    obtain rfl : q = _ := by simpa [NodePair.expand] using hq
    exact ⟨by simp, Node.kind_eq_of_isReplacedBy hr, hold path a ha⟩
  | unchanged a b ha hb hs hr hd =>
    obtain rfl : q = _ := by simpa [NodePair.expand] using hq
    exact ⟨by simp, Node.kind_eq_of_isReplacedBy hr, hold path a ha⟩

/-- The pairs walk both trees in order, they replay one into the other, and each
of them holds what its verdict says. -/
theorem matchTrees_replay (o : Options) (old new : NodeTree) :
    ((matchTrees o old new).map NodePair.path).Pairwise (fun p q => compare p q = .lt) ∧
    (∀ path, path ∈ (matchTrees o old new).map NodePair.path ↔
      old.nodes.contains path = true ∨ new.nodes.contains path = true) ∧
    ((matchTrees o old new).flatMap NodePair.expand).foldlM NodePair.replay old.states =
      some new.states ∧
    (old.AllPresent → new.AllPresent →
      ∀ p ∈ (matchTrees o old new).flatMap NodePair.expand, p.IsSound) := by
  have hmem : ∀ path, path ∈ old.nodes.unionKeys new.nodes ↔
      old.nodes.contains path = true ∨ new.nodes.contains path = true :=
    fun path => OrderedMap.mem_unionKeys_iff
  rw [matchTrees_paths]
  refine ⟨OrderedMap.unionKeys_ascending _ _, hmem, ?_, ?_⟩
  · refine classifyAll_replay (OrderedMap.unionKeys_nodup _ _) (fun path => (hmem path).1)
      (fun _ _ => rfl) ?_
    intro path hpath
    obtain ⟨hold, hnew⟩ := not_or.1 (mt (hmem path).2 hpath)
    rw [NodeTree.get?_states, NodeTree.get?_states, OrderedMap.get?_eq_none_iff.2 hold,
      OrderedMap.get?_eq_none_iff.2 hnew]
  · intro hold hnew q hq
    obtain ⟨p, hp, hq⟩ := List.mem_flatMap.1 hq
    obtain ⟨u, hverdict⟩ := verdict_of_mem_matchTrees hp
    have hpath : p.path ∈ old.nodes.unionKeys new.nodes := by
      rw [← matchTrees_paths o]
      exact List.mem_map_of_mem hp
    exact hverdict.isSound hold hnew ((hmem p.path).1 hpath) hq

def NodeTree.single (n : Node) : NodeTree := ⟨n.origin, .root, OrderedMap.empty.insert .root n, .empty⟩

theorem NodeTree.single_allPresent {n : Node} (h : n.isPresent = true) : (single n).AllPresent := by
  intro path m hm
  simp only [single, OrderedMap.get?_insert, OrderedMap.get?_empty] at hm
  split at hm
  · rw [← Option.some.inj hm]
    exact h
  · cases hm

theorem matchTrees_replay_kindChange :
    let old := NodeTree.single (.bare .root .file (.revision 1))
    let new := NodeTree.single (.bare .root .directory .workingCopy)
    old.AllPresent ∧ new.AllPresent ∧
      ∀ p ∈ (matchTrees .default old new).flatMap NodePair.expand, p.IsSound := by
  intro old new
  have hold : old.AllPresent := NodeTree.single_allPresent rfl
  have hnew : new.AllPresent := NodeTree.single_allPresent rfl
  exact ⟨hold, hnew, (matchTrees_replay .default old new).2.2.2 hold hnew⟩

end TreeDelta
