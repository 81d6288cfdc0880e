import TreeDelta.NodePair
import TreeDelta.Proofs.OrderedMap
set_option autoImplicit false

namespace TreeDelta

/-- A copy onto a node that is not its source, or not of its kind, replaces it. -/
def Node.isReplacedByCopy (a b : Node) (source : CopySource) : Bool :=
  !a.isCopySource source || a.kind != b.kind

def Node.isReplacedBy (o : Options) (underReplaced : Bool) (a b : Node) : Bool :=
  a.kind != b.kind || (o.noticeAncestry && (b.replaced || underReplaced))

/-- The pair that a path becomes. `u` tells that it lies below a replaced directory. -/
inductive Verdict (o : Options) (old new : NodeTree) (u : Bool) (path : Path) : NodePair → Prop
  | absent (ha : old.nodes.get? path = none) (hb : new.nodes.get? path = none) :
    Verdict o old new u path
      ⟨path, .unchanged, .nonexistent path old.origin, .nonexistent path new.origin, none⟩
  | deleted (a : Node) (ha : old.nodes.get? path = some a) (hb : new.nodes.get? path = none) :
    Verdict o old new u path ⟨path, .deleted, a, .nonexistent path new.origin, none⟩
  | added (b : Node) (ha : old.nodes.get? path = none) (hb : new.nodes.get? path = some b)
      (hs : decidingSource o new none b = none) :
    Verdict o old new u path ⟨path, .added, .nonexistent path old.origin, b, none⟩
  | copied (b : Node) (source : CopySource) (node : Node) (ha : old.nodes.get? path = none)
      (hb : new.nodes.get? path = some b)
      (hs : decidingSource o new none b = some (source, node)) :
    Verdict o old new u path ⟨path, .copied, node, b, some (source, node)⟩
  | replacedByCopy (a b : Node) (source : CopySource) (node : Node)
      (ha : old.nodes.get? path = some a) (hb : new.nodes.get? path = some b)
      (hs : decidingSource o new (some a) b = some (source, node))
      (hr : a.isReplacedByCopy b source = true) :
    Verdict o old new u path ⟨path, .replaced, a, b, some (source, node)⟩
  | copiedOnto (a b : Node) (source : CopySource) (node : Node)
      (ha : old.nodes.get? path = some a) (hb : new.nodes.get? path = some b)
      (hs : decidingSource o new (some a) b = some (source, node))
      (hr : a.isReplacedByCopy b source = false) :
    Verdict o old new u path ⟨path, .copied, node, b, some (source, node)⟩
  | replaced (a b : Node) (ha : old.nodes.get? path = some a) (hb : new.nodes.get? path = some b)
      (hs : decidingSource o new (some a) b = none) (hr : a.isReplacedBy o u b = true) :
    Verdict o old new u path ⟨path, .replaced, a, b, none⟩
  | modified (a b : Node) (ha : old.nodes.get? path = some a) (hb : new.nodes.get? path = some b)
      (hs : decidingSource o new (some a) b = none) (hr : a.isReplacedBy o u b = false)
      (hd : a.differs b = true) :
    Verdict o old new u path ⟨path, .modified, a, b, none⟩
  | unchanged (a b : Node) (ha : old.nodes.get? path = some a) (hb : new.nodes.get? path = some b)
      (hs : decidingSource o new (some a) b = none) (hr : a.isReplacedBy o u b = false)
      (hd : a.differs b = false) :
    Verdict o old new u path ⟨path, .unchanged, a, b, none⟩

variable (o : Options) (old new : NodeTree)

theorem classify_verdict (u : Bool) (path : Path) :
    Verdict o old new u path (classify o old new u path) := by
  unfold classify
  cases ha : old.nodes.get? path with
  | none =>
    cases hb : new.nodes.get? path with
    | none => exact .absent ha hb
    | some b =>
      cases hs : decidingSource o new none b with
      | none => simpa only [hs] using .added b ha hb hs
      | some s => simpa only [hs] using .copied b s.1 s.2 ha hb hs
  | some a =>
    cases hb : new.nodes.get? path with
    | none => exact .deleted a ha hb
    | some b =>
      cases hs : decidingSource o new (some a) b with
      | some s =>
        simp only [hs]
        split
        · exact .replacedByCopy a b s.1 s.2 ha hb hs ‹_›
        · exact .copiedOnto a b s.1 s.2 ha hb hs (Bool.eq_false_iff.2 ‹_›)
      | none =>
        simp only [hs]
        split
        · exact .replaced a b ha hb hs ‹_›
        · split
          · exact .modified a b ha hb hs (Bool.eq_false_iff.2 ‹_›) ‹_›
          · exact .unchanged a b ha hb hs (Bool.eq_false_iff.2 ‹_›) (Bool.eq_false_iff.2 ‹_›)

@[simp] theorem classify_path (u : Bool) (path : Path) : (classify o old new u path).path = path := by
  have h := classify_verdict o old new u path
  generalize classify o old new u path = p at h ⊢
  cases h <;> rfl

theorem classifyAll_paths (replaced paths : List Path) :
    (classifyAll o old new replaced paths).map NodePair.path = paths := by
  induction paths generalizing replaced with
  | nil => rfl
  | cons path paths ih => simp [classifyAll, ih]

theorem matchTrees_paths : (matchTrees o old new).map NodePair.path = old.nodes.unionKeys new.nodes :=
  classifyAll_paths o old new [] _

variable {o old new}

theorem verdict_of_mem_classifyAll {replaced paths : List Path} {p : NodePair}
    (h : p ∈ classifyAll o old new replaced paths) : ∃ u, Verdict o old new u p.path p := by
  induction paths generalizing replaced with
  | nil => simp [classifyAll] at h
  | cons path paths ih =>
    rcases List.mem_cons.1 h with rfl | h
    · refine ⟨replaced.any path.isAtOrBelow, ?_⟩
      rw [classify_path]
      exact classify_verdict o old new _ path
    · exact ih h

theorem verdict_of_mem_matchTrees {p : NodePair} (h : p ∈ matchTrees o old new) :
    ∃ u, Verdict o old new u p.path p :=
  verdict_of_mem_classifyAll h

/-- A deciding source is the node's own, and the new tree holds the node it names. -/
theorem decidingSource_some {a : Option Node} {b : Node} {source : CopySource} {node : Node}
    (h : decidingSource o new a b = some (source, node)) :
    b.copySource = some source ∧ new.copySources.get? source = some node := by
  unfold decidingSource at h
  obtain ⟨s, hs, h⟩ := Option.bind_eq_some_iff.1 h
  obtain ⟨_, _, h⟩ := Option.bind_eq_some_iff.1 h
  obtain ⟨n, hn, h⟩ := Option.bind_eq_some_iff.1 h
  have hsn : (s, n) = (source, node) := by
    cases a with
    | none => simpa using h
    | some a =>
      obtain ⟨_, _, h⟩ := Option.bind_eq_some_iff.1 h
      simpa using h
  cases hsn
  exact ⟨hs, hn⟩

end TreeDelta
