import TreeDelta.Alignment.Search
import TreeDelta.Alignment.Slide
set_option autoImplicit false

namespace TreeDelta.Alignment

inductive Block where
  | same (old new len : Nat)
  | change (old oldLen new newLen : Nat)
deriving DecidableEq, Repr

namespace Block

def swap : Block → Block
  | same old new len => same new old len
  | change old oldLen new newLen => change new newLen old oldLen

theorem swap_swap (b : Block) : b.swap.swap = b := by cases b <;> rfl

def old : Block → Nat
  | same old _ _ | change old _ _ _ => old

def new : Block → Nat
  | same _ new _ | change _ _ new _ => new

def oldLen : Block → Nat
  | same _ _ len => len
  | change _ oldLen _ _ => oldLen

def newLen : Block → Nat
  | same _ _ len => len
  | change _ _ _ newLen => newLen

def oldEnd (b : Block) : Nat := b.old + b.oldLen

def newEnd (b : Block) : Nat := b.new + b.newLen

/-- Joins a run with the block after it. A change takes its places from its first
deletion and its first insertion. -/
def cons (r : Run) (bs : List Block) : List Block :=
  match r.kind, bs with
  | .keep, same _ _ len :: bs => same r.old r.new (r.len + len) :: bs
  | .keep, bs => same r.old r.new r.len :: bs
  | .delete, change _ oldLen new newLen :: bs =>
    change r.old (r.len + oldLen) (if newLen = 0 then r.new else new) newLen :: bs
  | .delete, bs => change r.old r.len r.new 0 :: bs
  | .insert, change old oldLen _ newLen :: bs =>
    change (if oldLen = 0 then r.old else old) oldLen r.new (r.len + newLen) :: bs
  | .insert, bs => change r.old 0 r.new r.len :: bs

def ofRuns (rs : List Run) : List Block := rs.foldr cons []

end Block

variable {α : Type} [DecidableEq α]

def alignInOrder (old new : List α) : List Block := Block.ofRuns (slideAll old new (runs old new))

def align [Ord α] (old new : List α) : List Block :=
  if (compare old new).isLE then alignInOrder old new
  else (alignInOrder new old).map Block.swap

def trimFirst (n : Nat) : List Block → List Block
  | .same old new len :: bs => .same (old + (len - n)) (new + (len - n)) (len - (len - n)) :: bs
  | bs => bs

def trimLast (n : Nat) : List Block → List Block
  | [] => []
  | [.same old new len] => [.same old new (len - (len - n))]
  | b :: bs => b :: trimLast n bs

/-- Cuts at every kept stretch longer than `2 * n`, of which `n` elements stay on
either side. `pending` is the group read so far, backwards. A last group without
a change is dropped. -/
def groupFrom (n : Nat) : List Block → List Block → List (List Block)
  | pending, [] =>
    match pending with
    | [] | [.same ..] => []
    | _ => [pending.reverse]
  | pending, .same old new len :: bs =>
    if len > 2 * n then
      (.same old new n :: pending).reverse ::
        groupFrom n [.same (old + (len - n)) (new + (len - n)) n] bs
    else groupFrom n (.same old new len :: pending) bs
  | pending, b :: bs => groupFrom n (b :: pending) bs

def groups (n : Nat) (bs : List Block) : List (List Block) :=
  groupFrom n [] (trimLast n (trimFirst n bs))

end TreeDelta.Alignment
