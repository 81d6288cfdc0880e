set_option autoImplicit false

namespace TreeDelta.Alignment

inductive RunKind where
  | keep
  | delete
  | insert
deriving DecidableEq, Repr

structure Run where
  kind : RunKind
  old : Nat
  new : Nat
  len : Nat
deriving DecidableEq, Repr

variable {α : Type} [DecidableEq α]

def commonStart : List α → List α → Nat
  | x :: xs, y :: ys => if x = y then commonStart xs ys + 1 else 0
  | _, _ => 0

def commonEnd (xs ys : List α) : Nat := commonStart xs.reverse ys.reverse

def slice {α : Type} (l : List α) (start len : Nat) : List α := (l.drop start).take len

theorem commonStart_le_left (xs ys : List α) : commonStart xs ys ≤ xs.length := by
  fun_induction commonStart xs ys with
  | case1 x xs ys ih => simpa using ih
  | case2 => simp
  | case3 => simp

theorem commonStart_le_right (xs ys : List α) : commonStart xs ys ≤ ys.length := by
  fun_induction commonStart xs ys with
  | case1 x xs ys ih => simpa using ih
  | case2 => simp
  | case3 => simp

theorem take_commonStart (xs ys : List α) :
    xs.take (commonStart xs ys) = ys.take (commonStart xs ys) := by
  fun_induction commonStart xs ys with
  | case1 x xs ys ih => simpa using ih
  | case2 => simp
  | case3 => simp

end TreeDelta.Alignment
