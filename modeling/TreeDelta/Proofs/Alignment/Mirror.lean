import TreeDelta.Alignment.Block
set_option autoImplicit false

namespace TreeDelta.Alignment

section Groups

variable {n : Nat} {bs : List Block}

theorem trimFirst_map_swap : trimFirst n (bs.map Block.swap) = (trimFirst n bs).map Block.swap := by
  rcases bs with _ | ⟨_ | _, bs⟩ <;> rfl

theorem trimLast_map_swap : trimLast n (bs.map Block.swap) = (trimLast n bs).map Block.swap := by
  induction bs with
  | nil => rfl
  | cons b bs ih =>
    rcases b with _ | _
    · cases bs with
      | nil => rfl
      | cons c bs => exact congrArg (List.cons _) ih
    · exact congrArg (List.cons _) ih

theorem groupFrom_map_swap (pending : List Block) :
    groupFrom n (pending.map Block.swap) (bs.map Block.swap) =
      (groupFrom n pending bs).map (List.map Block.swap) := by
  induction bs generalizing pending with
  | nil =>
    rcases pending with _ | ⟨_ | _, _ | _⟩ <;> simp [groupFrom, Block.swap]
  | cons b bs ih =>
    cases b with
    | same i j len =>
      have hcut := ih [.same (i + (len - n)) (j + (len - n)) n]
      have hwhole := ih (.same i j len :: pending)
      simp only [List.map_cons, List.map_nil, Block.swap] at hcut hwhole
      simp only [List.map_cons, Block.swap, groupFrom]
      split
      · simp [hcut, Block.swap]
      · exact hwhole
    | change a oldLen b newLen =>
      exact ih (.change a oldLen b newLen :: pending)

theorem groups_map_swap : groups n (bs.map Block.swap) = (groups n bs).map (List.map Block.swap) := by
  rw [groups, groups, trimFirst_map_swap, trimLast_map_swap]
  exact groupFrom_map_swap []

end Groups

section Align

variable {α : Type} [DecidableEq α] [Ord α]

theorem align_comm [Std.TransOrd α] [Std.LawfulEqOrd α] {old new : List α} (h : old ≠ new) :
    align new old = (align old new).map Block.swap := by
  unfold align
  rw [Std.OrientedOrd.eq_swap (a := new) (b := old)]
  cases hcompare : compare old new with
  | lt => rfl
  | eq => exact absurd (Std.LawfulEqOrd.eq_of_compare hcompare) h
  | gt =>
    simp [Function.comp_def, Block.swap_swap]

end Align

end TreeDelta.Alignment
