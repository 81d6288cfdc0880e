import TreeDelta.NodeTree
set_option autoImplicit false

namespace TreeDelta

structure NodeState where
  kind : NodeKind
  content : Option ContentId
  props : Props
deriving DecidableEq

def Node.state (n : Node) : NodeState := ⟨n.kind, n.content, n.props⟩

theorem Node.state_eq_iff {a b : Node} :
    a.state = b.state ↔ a.kind = b.kind ∧ a.content = b.content ∧ a.props = b.props := by
  rw [state, state, NodeState.mk.injEq]

abbrev States := OrderedMap Path NodeState

def NodeTree.states (t : NodeTree) : States := t.nodes.map fun _ n => n.state

theorem NodeTree.get?_states (t : NodeTree) (path : Path) :
    t.states.get? path = (t.nodes.get? path).map Node.state := by
  rw [states, OrderedMap.get?_map]

end TreeDelta
