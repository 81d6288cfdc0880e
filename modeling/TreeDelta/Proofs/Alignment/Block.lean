import TreeDelta.Alignment.Block
import TreeDelta.Proofs.Alignment.Slide
set_option autoImplicit false

/-!
# Alignments as edit scripts

A block trace follows blocks as a trace follows runs. With `exact` every block
gives its place in both lists. Without it a change that only inserts need not
say where in the old list it stands, nor one that only deletes where in the new
one: sliding moves changes past each other and leaves such places as they were.

Every alignment is a block trace (`align_trace`).
-/
namespace TreeDelta.Alignment

variable {α : Type} {old new : List α} {exact : Bool}

inductive BlockTrace (exact : Bool) (old new : List α) : Nat → Nat → List Block → Nat → Nat → Prop
  | nil (i j : Nat) : BlockTrace exact old new i j [] i j
  | same {i j len i' j' : Nat} {bs : List Block} (h : Agree old new i j len)
      (tail : BlockTrace exact old new (i + len) (j + len) bs i' j') :
    BlockTrace exact old new i j (.same i j len :: bs) i' j'
  | change {i j a oldLen b newLen i' j' : Nat} {bs : List Block} (hi : i + oldLen ≤ old.length)
      (hj : j + newLen ≤ new.length) (ha : exact = true ∨ oldLen ≠ 0 → a = i)
      (hb : exact = true ∨ newLen ≠ 0 → b = j)
      (tail : BlockTrace exact old new (i + oldLen) (j + newLen) bs i' j') :
    BlockTrace exact old new i j (.change a oldLen b newLen :: bs) i' j'

/-- An ordered script without gaps that turns `old` into `new`. -/
def IsEditScript (old new : List α) (bs : List Block) : Prop :=
  BlockTrace true old new 0 0 bs old.length new.length

theorem BlockTrace.append {i j k l i' j' : Nat} {bs cs : List Block}
    (h : BlockTrace exact old new i j bs k l) (h' : BlockTrace exact old new k l cs i' j') :
    BlockTrace exact old new i j (bs ++ cs) i' j' := by
  induction h with
  | nil => exact h'
  | same hlen _ ih => exact .same hlen (ih h')
  | change hi hj ha hb _ ih => exact .change hi hj ha hb (ih h')

theorem blockTrace_append_iff {i j i' j' : Nat} {bs cs : List Block} :
    BlockTrace exact old new i j (bs ++ cs) i' j' ↔
      ∃ k l, BlockTrace exact old new i j bs k l ∧ BlockTrace exact old new k l cs i' j' := by
  constructor
  · intro h
    induction bs generalizing i j with
    | nil => exact ⟨i, j, .nil i j, h⟩
    | cons b bs ih =>
      cases h with
      | same hlen tail =>
        obtain ⟨k, l, hbs, hcs⟩ := ih tail
        exact ⟨k, l, .same hlen hbs, hcs⟩
      | change hi hj ha hb tail =>
        obtain ⟨k, l, hbs, hcs⟩ := ih tail
        exact ⟨k, l, .change hi hj ha hb hbs, hcs⟩
  · rintro ⟨k, l, hbs, hcs⟩
    exact hbs.append hcs

theorem BlockTrace.swap {i j i' j' : Nat} {bs : List Block}
    (h : BlockTrace exact old new i j bs i' j') :
    BlockTrace exact new old j i (bs.map Block.swap) j' i' := by
  induction h with
  | nil => exact .nil _ _
  | same hlen _ ih => exact .same hlen.symm ih
  | change hi hj ha hb _ ih => exact .change hj hi hb ha ih

theorem blockTrace_cons_keep {i j len i' j' : Nat} {bs : List Block} (h : Agree old new i j len)
    (tail : BlockTrace false old new (i + len) (j + len) bs i' j') :
    BlockTrace false old new i j (Block.cons ⟨.keep, i, j, len⟩ bs) i' j' := by
  cases tail with
  | nil => exact .same h (.nil _ _)
  | same h' tail =>
    rw [Nat.add_assoc, Nat.add_assoc] at tail
    exact .same (h.append h') tail
  | change hi hj ha hb tail => exact .same h (.change hi hj ha hb tail)

theorem blockTrace_cons_delete {i j c len i' j' : Nat} {bs : List Block} (h : i + len ≤ old.length)
    (hj : j ≤ new.length) (tail : BlockTrace false old new (i + len) j bs i' j') :
    BlockTrace false old new i j (Block.cons ⟨.delete, i, c, len⟩ bs) i' j' := by
  cases tail with
  | nil => exact .change h hj (fun _ => rfl) (by simp) (.nil _ _)
  | same h' tail => exact .change h hj (fun _ => rfl) (by simp) (.same h' tail)
  | @change _ _ a oldLen b newLen _ _ _ hi' hj' ha hb tail =>
    rw [Nat.add_assoc] at tail hi'
    refine .change hi' hj' (fun _ => rfl) ?_ tail
    intro hnew
    simp only [Bool.false_eq_true, false_or] at hnew
    rw [if_neg hnew]
    exact hb (.inr hnew)

theorem blockTrace_cons_insert {i j a len i' j' : Nat} {bs : List Block} (hi : i ≤ old.length)
    (h : j + len ≤ new.length) (tail : BlockTrace false old new i (j + len) bs i' j') :
    BlockTrace false old new i j (Block.cons ⟨.insert, a, j, len⟩ bs) i' j' := by
  cases tail with
  | nil => exact .change hi h (by simp) (fun _ => rfl) (.nil _ _)
  | same h' tail => exact .change hi h (by simp) (fun _ => rfl) (.same h' tail)
  | @change _ _ a' oldLen b newLen _ _ _ hi' hj' ha hb tail =>
    rw [Nat.add_assoc] at tail hj'
    refine .change hi' hj' ?_ (fun _ => rfl) tail
    intro hold
    simp only [Bool.false_eq_true, false_or] at hold
    rw [if_neg hold]
    exact ha (.inr hold)

theorem BlockTrace.start_le {i j i' j' : Nat} {bs : List Block}
    (h : BlockTrace exact old new i j bs i' j') (hi : i' ≤ old.length) (hj : j' ≤ new.length) :
    i ≤ old.length ∧ j ≤ new.length := by
  cases h with
  | nil => exact ⟨hi, hj⟩
  | same hlen _ =>
    have ho := hlen.old_le
    have hn := hlen.new_le
    omega
  | change hi hj _ _ _ => omega

theorem ofRuns_trace {rs : List Run} {i j i' j' : Nat} (h : Trace old new i j rs i' j')
    (hi : i' ≤ old.length) (hj : j' ≤ new.length) :
    BlockTrace false old new i j (Block.ofRuns rs) i' j' := by
  induction h with
  | nil => exact .nil _ _
  | keep hlen _ ih => exact blockTrace_cons_keep hlen (ih hi hj)
  | delete hlen _ ih =>
    have tail := ih hi hj
    exact blockTrace_cons_delete hlen (tail.start_le hi hj).2 tail
  | insert hlen _ ih =>
    have tail := ih hi hj
    exact blockTrace_cons_insert (tail.start_le hi hj).1 hlen tail

section Align

variable [DecidableEq α]

theorem alignInOrder_trace (old new : List α) :
    BlockTrace false old new 0 0 (alignInOrder old new) old.length new.length :=
  ofRuns_trace (slideAll_trace (runs_trace old new)) (Nat.le_refl _) (Nat.le_refl _)

theorem align_trace [Ord α] (old new : List α) :
    BlockTrace false old new 0 0 (align old new) old.length new.length := by
  unfold align
  split
  · exact alignInOrder_trace old new
  · exact (alignInOrder_trace new old).swap

/-- The alignment of the two lists, in the order that it is made in, gives every
place in both. -/
def AlignsExactly [Ord α] (old new : List α) : Prop :=
  if (compare old new).isLE then IsEditScript old new (alignInOrder old new)
  else IsEditScript new old (alignInOrder new old)

theorem AlignsExactly.isEditScript [Ord α] {old new : List α} (h : AlignsExactly old new) :
    IsEditScript old new (align old new) := by
  unfold AlignsExactly at h
  unfold align
  split at h
  · rename_i hle
    rw [if_pos hle]
    exact h
  · rename_i hle
    rw [if_neg hle]
    exact BlockTrace.swap h

/-- Here a deletion slid up past a kept stretch, and not its place in the new list. -/
example : ¬ IsEditScript [1, 2, 2, 2] [2, 2, 2, 2] (alignInOrder [1, 2, 2, 2] [2, 2, 2, 2]) := by
  intro h
  have hblocks : alignInOrder [1, 2, 2, 2] [2, 2, 2, 2] =
      [.change 0 1 1 0, .same 1 0 3, .change 3 0 3 1] := rfl
  rw [hblocks] at h
  cases h with
  | change _ _ _ hb => exact absurd (hb (.inl rfl)) (by decide)

theorem commonEnd_nil_left (ys : List α) : commonEnd [] ys = 0 := rfl

theorem runs_nil_left (ys : List α) : runs [] ys = run .insert 0 0 ys.length := by
  cases ys with
  | nil => rfl
  | cons y ys => simp [runs, runsWithin, commonStart, commonEnd_nil_left, slice, run]

theorem slideAll_singleton (old new : List α) (r : Run) : slideAll old new [r] = [r] := by
  obtain ⟨fuel, hfuel⟩ : ∃ fuel, slideBound [r] * slideBound [r] = fuel + 1 :=
    Nat.exists_eq_succ_of_ne_zero (by simp [slideBound])
  have hpass : ∀ kind, slidePass old new kind (fuel + 1) [] [r] = [r] := by
    intro kind
    obtain ⟨bound, hbound⟩ : ∃ bound, slideBound [r] = bound + 1 := ⟨2 * r.len, rfl⟩
    have hmove : slideDown old new (bound + 1) (slideUp old new (bound + 1) ⟨[], r, []⟩) = ⟨[], r, []⟩ := rfl
    have hend : ∀ rs, slidePass old new kind fuel rs [] = rs.reverse := fun rs => by
      cases fuel with
      | zero => exact List.append_nil _
      | succ _ => rfl
    simp only [slidePass, List.nil_append, hbound, hmove, hend]
    split <;> rfl
  simp only [slideAll, hfuel, hpass]

theorem alignInOrder_nil_left (ys : List α) : IsEditScript [] ys (alignInOrder [] ys) := by
  rw [alignInOrder, runs_nil_left, run]
  split
  · rename_i hlen
    rw [List.length_eq_zero_iff.1 hlen]
    exact .nil 0 0
  · have hend : BlockTrace true [] ys 0 (0 + ys.length) [] 0 ys.length := by
      rw [Nat.zero_add]
      exact .nil _ _
    rw [slideAll_singleton]
    exact .change (Nat.zero_le _) (Nat.le_of_eq (Nat.zero_add _)) (fun _ => rfl) (fun _ => rfl) hend

theorem alignsExactly_of_nil [Ord α] {old new : List α} (h : old = [] ∨ new = []) :
    AlignsExactly old new := by
  unfold AlignsExactly
  rcases h with rfl | rfl
  · rw [if_pos]
    · exact alignInOrder_nil_left new
    · cases new <;> rfl
  · cases old with
    | nil => exact alignInOrder_nil_left []
    | cons x xs => exact alignInOrder_nil_left _

end Align

end TreeDelta.Alignment
