import TreeDelta.Hunk
import TreeDelta.Proofs.Alignment.Block
set_option autoImplicit false

namespace TreeDelta

open TreeDelta.Alignment

variable {o : Options} {exact : Bool}

def lineKeys (o : Options) (data : Bytes) : List Bytes := (splitLines data).map (Line.key o)

def SameKeys (o : Options) (ls ls' : List Line) : Prop := ls.map (Line.key o) = ls'.map (Line.key o)

theorem SameKeys.cons {l l' : Line} {ls ls' : List Line} (h : l.key o = l'.key o)
    (hs : SameKeys o ls ls') : SameKeys o (l :: ls) (l' :: ls') := by
  rw [SameKeys, List.map_cons, List.map_cons, h, hs]

theorem SameKeys.append {xs xs' ys ys' : List Line} (hx : SameKeys o xs xs') (hy : SameKeys o ys ys') :
    SameKeys o (xs ++ ys) (xs' ++ ys') := by
  rw [SameKeys, List.map_append, List.map_append, hx, hy]

/-- Marked lines that make the second list of the first one. Kept lines are those
of the first list and have the keys of those of the second. -/
inductive Edits (o : Options) : List HunkLine → List Line → List Line → Prop
  | nil : Edits o [] [] []
  | context {l l' : Line} {ls : List HunkLine} {os ns : List Line} (h : l.key o = l'.key o)
      (tail : Edits o ls os ns) : Edits o (⟨.context, l⟩ :: ls) (l :: os) (l' :: ns)
  | deleted {l : Line} {ls : List HunkLine} {os ns : List Line} (tail : Edits o ls os ns) :
    Edits o (⟨.deleted, l⟩ :: ls) (l :: os) ns
  | added {l : Line} {ls : List HunkLine} {os ns : List Line} (tail : Edits o ls os ns) :
    Edits o (⟨.added, l⟩ :: ls) os (l :: ns)

theorem Edits.append {ls ls' : List HunkLine} {os os' ns ns' : List Line} (h : Edits o ls os ns)
    (h' : Edits o ls' os' ns') : Edits o (ls ++ ls') (os ++ os') (ns ++ ns') := by
  induction h with
  | nil => exact h'
  | context hkey _ ih => exact .context hkey ih
  | deleted _ ih => exact .deleted ih
  | added _ ih => exact .added ih

theorem edits_markAll_context {os ns : List Line} (h : SameKeys o os ns) :
    Edits o (markAll .context os) os ns := by
  induction os generalizing ns with
  | nil =>
    cases ns with
    | nil => exact .nil
    | cons n ns => simp [SameKeys] at h
  | cons l os ih =>
    cases ns with
    | nil => simp [SameKeys] at h
    | cons n ns =>
      have hkeys := List.cons.inj h
      exact .context hkeys.1 (ih hkeys.2)

theorem edits_markAll_deleted (os : List Line) : Edits o (markAll .deleted os) os [] := by
  induction os with
  | nil => exact .nil
  | cons l os ih => exact .deleted ih

theorem edits_markAll_added (ns : List Line) : Edits o (markAll .added ns) [] ns := by
  induction ns with
  | nil => exact .nil
  | cons l ns ih => exact .added ih

theorem drop_eq_slice_append {α : Type} (l : List α) (i n : Nat) :
    l.drop i = slice l i n ++ l.drop (i + n) := by
  rw [← List.drop_drop]
  exact (List.take_append_drop n (l.drop i)).symm

theorem slice_of_start {α : Type} (l : List α) {a i n : Nat} (h : n ≠ 0 → a = i) :
    slice l a n = slice l i n := by
  by_cases hn : n = 0
  · simp [slice, hn]
  · rw [h hn]

variable {old new : List Line}

theorem map_slice {α β : Type} (f : α → β) (l : List α) (i n : Nat) :
    (slice l i n).map f = slice (l.map f) i n := by
  rw [slice, slice, List.map_take, List.map_drop]

theorem Alignment.Agree.sameKeys {i j len : Nat}
    (h : Agree (old.map (Line.key o)) (new.map (Line.key o)) i j len) :
    SameKeys o (slice old i len) (slice new j len) := by
  rw [SameKeys, map_slice, map_slice]
  exact h.slice_eq

def EditsBetween (o : Options) (old new : List Line) (ls : List HunkLine) (i j k l : Nat) : Prop :=
  ∃ os ns, Edits o ls os ns ∧ old.drop i = os ++ old.drop k ∧ new.drop j = ns ++ new.drop l ∧
    i + os.length = k ∧ j + ns.length = l

theorem editsBetween_nil (i j : Nat) : EditsBetween o old new [] i j i j :=
  ⟨[], [], .nil, rfl, rfl, rfl, rfl⟩

theorem editsBetween_slice {i j m n : Nat} {ls : List HunkLine} (hi : i + m ≤ old.length)
    (hj : j + n ≤ new.length) (h : Edits o ls (slice old i m) (slice new j n)) :
    EditsBetween o old new ls i j (i + m) (j + n) := by
  refine ⟨slice old i m, slice new j n, h, drop_eq_slice_append old i m,
    drop_eq_slice_append new j n, ?_, ?_⟩
  · rw [length_slice hi]
  · rw [length_slice hj]

theorem EditsBetween.append {i j k l i' j' : Nat} {ls ls' : List HunkLine}
    (h : EditsBetween o old new ls i j k l) (h' : EditsBetween o old new ls' k l i' j') :
    EditsBetween o old new (ls ++ ls') i j i' j' := by
  obtain ⟨os, ns, hedits, hold, hnew, hk, hl⟩ := h
  obtain ⟨os', ns', hedits', hold', hnew', hi', hj'⟩ := h'
  refine ⟨os ++ os', ns ++ ns', hedits.append hedits', ?_, ?_, ?_, ?_⟩
  · rw [hold, hold', List.append_assoc]
  · rw [hnew, hnew', List.append_assoc]
  · rw [List.length_append]
    omega
  · rw [List.length_append]
    omega

theorem Alignment.BlockTrace.edits {i j k l : Nat} {bs : List Block}
    (h : BlockTrace exact (old.map (Line.key o)) (new.map (Line.key o)) i j bs k l) :
    EditsBetween o old new (bs.flatMap (blockLines old new)) i j k l := by
  induction h with
  | nil => exact editsBetween_nil _ _
  | @same i j len k l bs hlen _ ih =>
    have ho := hlen.old_le
    have hn := hlen.new_le
    rw [List.length_map] at ho hn
    exact (editsBetween_slice ho hn (edits_markAll_context hlen.sameKeys)).append ih
  | @change i j a oldLen b newLen k l bs ho hn ha hb _ ih =>
    rw [List.length_map] at ho hn
    have hlines := (edits_markAll_deleted (slice old i oldLen)).append
      (edits_markAll_added (o := o) (slice new j newLen))
    rw [List.append_nil, List.nil_append] at hlines
    rw [List.flatMap_cons, blockLines, slice_of_start old fun h => ha (.inr h),
      slice_of_start new fun h => hb (.inr h)]
    exact (editsBetween_slice ho hn hlines).append ih

theorem diffLines_eq (o : Options) (old new : Bytes) :
    diffLines o old new =
      if lineKeys o old = lineKeys o new then ⟨[]⟩
      else ⟨hunksOf o.contextLines (splitLines old) (splitLines new)
        (align (lineKeys o old) (lineKeys o new))⟩ := rfl

end TreeDelta
