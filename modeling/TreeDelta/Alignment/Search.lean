import TreeDelta.Alignment.Run
set_option autoImplicit false

/-!
# The search for a short alignment

Common ends are kept. Between them a point on a shortest path through the edit
grid splits the problem in two (Myers' linear-space method): the paths from both
corners grow by one edit at a time until they meet. Diagonal `k` holds the points
whose place in the old list is `k` ahead of that in the new one. Without a point
that splits the problem everything is deleted and inserted.
-/
namespace TreeDelta.Alignment

variable {α : Type} [DecidableEq α]

structure Frontier where
  middle : Nat
  reach : Array Int

namespace Frontier

def start (bound : Nat) : Frontier := ⟨bound + 1, Array.replicate (2 * bound + 3) 0⟩

def get (f : Frontier) (k : Int) : Int := f.reach.getD (k + f.middle).toNat 0

def set (f : Frontier) (k x : Int) : Frontier :=
  { f with reach := f.reach.setIfInBounds (k + f.middle).toNat x }

end Frontier

def agreement (xs ys : Array α) : Nat → Nat → Nat → Nat
  | 0, _, _ => 0
  | fuel + 1, i, j =>
    match xs[i]?, ys[j]? with
    | some x, some y => if x = y then agreement xs ys fuel (i + 1) (j + 1) + 1 else 0
    | _, _ => 0

def advance (xs ys : Array α) (d k : Int) (f : Frontier) : Int × Int × Int :=
  let x :=
    if k = -d ∨ (k ≠ d ∧ f.get (k - 1) < f.get (k + 1)) then f.get (k + 1) else f.get (k - 1) + 1
  let y := x - k
  let more :=
    if x < xs.size ∧ 0 ≤ y ∧ y < ys.size then agreement xs ys xs.size x.toNat y.toNat else 0
  (x, y, more)

def diagonals (d : Nat) : List Int := (List.range (d + 1)).map fun (i : Nat) => (d : Int) - 2 * (i : Int)

/-- A sweep either goes on with its frontier or has met the other side. -/
abbrev Sweep := Except (Int × Int) Frontier

/-- Advances the paths from the start. They meet those from the end on a diagonal
that both have reached; the point is where the last edit ended. -/
def sweepForward (xs ys : Array α) (d : Nat) (back : Frontier) (f : Frontier) (k : Int) : Sweep :=
  let delta : Int := (xs.size : Int) - ys.size
  let (x, y, more) := advance xs ys d k f
  let f := f.set k (x + more)
  if delta % 2 ≠ 0 ∧ (k - delta).natAbs + 1 ≤ d ∧ x + more + back.get (delta - k) ≥ xs.size then
    .error (x, y)
  else .ok f

def sweepBackward (xs ys : Array α) (d : Nat) (forth : Frontier) (f : Frontier) (k : Int) : Sweep :=
  let delta : Int := (xs.size : Int) - ys.size
  let (x, y, more) := advance xs ys d k f
  let f := f.set k (x + more)
  if delta % 2 = 0 ∧ (k - delta).natAbs ≤ d ∧ x + more + forth.get (delta - k) ≥ xs.size then
    .error ((xs.size : Int) - (x + more), (ys.size : Int) - (y + more))
  else .ok f

def sweepBoth (xs ys xs' ys' : Array α) (fs : Frontier × Frontier) (d : Nat) :
    Except (Int × Int) (Frontier × Frontier) := do
  let forth ← (diagonals d).foldlM (sweepForward xs ys d fs.2) fs.1
  let back ← (diagonals d).foldlM (sweepBackward xs' ys' d forth) fs.2
  return (forth, back)

def middlePoint (xs ys : List α) : Option (Int × Int) :=
  let bound := (xs.length + ys.length + 1) / 2 + 1
  let f := Frontier.start bound
  let sweep := sweepBoth xs.toArray ys.toArray xs.reverse.toArray ys.reverse.toArray
  match (List.range bound).foldlM sweep (f, f) with
  | .error point => some point
  | .ok _ => none

def splitPoint (xs ys : List α) : Option (Nat × Nat) :=
  match middlePoint xs ys with
  | none => none
  | some (x, y) =>
    if 0 ≤ x ∧ 0 ≤ y ∧ x ≤ xs.length ∧ y ≤ ys.length ∧ 0 < x + y ∧ x + y < xs.length + ys.length then
      some (x.toNat, y.toNat)
    else none

def run (kind : RunKind) (old new len : Nat) : List Run :=
  if len = 0 then [] else [⟨kind, old, new, len⟩]

/-- The runs that turn `xs`, found at `a`, into `ys`, found at `c`. -/
def runsWithin : Nat → Nat → Nat → List α → List α → List Run
  | 0, a, c, xs, ys => run .delete a c xs.length ++ run .insert a c ys.length
  | fuel + 1, a, c, xs, ys =>
    let p := commonStart xs ys
    let s := commonEnd (xs.drop p) (ys.drop p)
    let xs' := slice xs p (xs.length - p - s)
    let ys' := slice ys p (ys.length - p - s)
    let middle :=
      match (if xs'.isEmpty || ys'.isEmpty then none else splitPoint xs' ys') with
      | none => run .delete (a + p) (c + p) xs'.length ++ run .insert (a + p) (c + p) ys'.length
      | some (x, y) =>
        runsWithin fuel (a + p) (c + p) (xs'.take x) (ys'.take y) ++
          runsWithin fuel (a + p + x) (c + p + y) (xs'.drop x) (ys'.drop y)
    run .keep a c p ++ middle ++ run .keep (a + p + xs'.length) (c + p + ys'.length) s

def runs (xs ys : List α) : List Run := runsWithin (xs.length + ys.length) 0 0 xs ys

end TreeDelta.Alignment
