import TreeDelta.Alignment.Search
set_option autoImplicit false

/-!
# Traces of an alignment

A trace follows runs from a place in each list to another and finds no gap: every
run starts where the one before ended, and what is kept is the same in both
lists. The place that a deletion names in the new list, and an insertion in the
old one, is not looked at here.
-/
namespace TreeDelta.Alignment

variable {α : Type} {old new : List α}

structure Agree (old new : List α) (i j len : Nat) : Prop where
  old_le : i + len ≤ old.length
  new_le : j + len ≤ new.length
  eq : ∀ k < len, old[i + k]? = new[j + k]?

theorem Agree.zero {i j : Nat} (hi : i ≤ old.length) (hj : j ≤ new.length) : Agree old new i j 0 :=
  ⟨hi, hj, fun k hk => absurd hk (Nat.not_lt_zero k)⟩

theorem Agree.take {i j len k : Nat} (h : Agree old new i j len) (hk : k ≤ len) :
    Agree old new i j k := by
  have ho := h.old_le
  have hn := h.new_le
  exact ⟨by omega, by omega, fun m hm => h.eq m (by omega)⟩

theorem Agree.drop {i j len k : Nat} (h : Agree old new i j len) (hk : k ≤ len) :
    Agree old new (i + k) (j + k) (len - k) := by
  have ho := h.old_le
  have hn := h.new_le
  refine ⟨by omega, by omega, fun m hm => ?_⟩
  rw [Nat.add_assoc, Nat.add_assoc]
  exact h.eq (k + m) (by omega)

theorem Agree.append {i j a b : Nat} (h : Agree old new i j a)
    (h' : Agree old new (i + a) (j + a) b) : Agree old new i j (a + b) := by
  have ho := h'.old_le
  have hn := h'.new_le
  refine ⟨by omega, by omega, fun k hk => ?_⟩
  by_cases hka : k < a
  · exact h.eq k hka
  · obtain ⟨m, rfl⟩ := Nat.exists_eq_add_of_le (Nat.le_of_not_lt hka)
    rw [← Nat.add_assoc, ← Nat.add_assoc]
    exact h'.eq m (by omega)

theorem Agree.symm {i j len : Nat} (h : Agree old new i j len) : Agree new old j i len :=
  ⟨h.new_le, h.old_le, fun k hk => (h.eq k hk).symm⟩

inductive Trace (old new : List α) : Nat → Nat → List Run → Nat → Nat → Prop
  | nil (i j : Nat) : Trace old new i j [] i j
  | keep {i j len i' j' : Nat} {rs : List Run} (h : Agree old new i j len)
      (tail : Trace old new (i + len) (j + len) rs i' j') :
    Trace old new i j (⟨.keep, i, j, len⟩ :: rs) i' j'
  | delete {i j c len i' j' : Nat} {rs : List Run} (h : i + len ≤ old.length)
      (tail : Trace old new (i + len) j rs i' j') :
    Trace old new i j (⟨.delete, i, c, len⟩ :: rs) i' j'
  | insert {i j a len i' j' : Nat} {rs : List Run} (h : j + len ≤ new.length)
      (tail : Trace old new i (j + len) rs i' j') :
    Trace old new i j (⟨.insert, a, j, len⟩ :: rs) i' j'

theorem Trace.append {i j k l i' j' : Nat} {xs ys : List Run} (h : Trace old new i j xs k l)
    (h' : Trace old new k l ys i' j') : Trace old new i j (xs ++ ys) i' j' := by
  induction h with
  | nil => exact h'
  | keep hlen _ ih => exact .keep hlen (ih h')
  | delete hlen _ ih => exact .delete hlen (ih h')
  | insert hlen _ ih => exact .insert hlen (ih h')

theorem trace_append_iff {i j i' j' : Nat} {xs ys : List Run} :
    Trace old new i j (xs ++ ys) i' j' ↔
      ∃ k l, Trace old new i j xs k l ∧ Trace old new k l ys i' j' := by
  constructor
  · intro h
    induction xs generalizing i j with
    | nil => exact ⟨i, j, .nil i j, h⟩
    | cons r xs ih =>
      cases h with
      | keep hlen tail =>
        obtain ⟨k, l, hxs, hys⟩ := ih tail
        exact ⟨k, l, .keep hlen hxs, hys⟩
      | delete hlen tail =>
        obtain ⟨k, l, hxs, hys⟩ := ih tail
        exact ⟨k, l, .delete hlen hxs, hys⟩
      | insert hlen tail =>
        obtain ⟨k, l, hxs, hys⟩ := ih tail
        exact ⟨k, l, .insert hlen hxs, hys⟩
  · rintro ⟨k, l, hxs, hys⟩
    exact hxs.append hys

theorem trace_run_keep {i j len : Nat} (h : Agree old new i j len) :
    Trace old new i j (run .keep i j len) (i + len) (j + len) := by
  unfold run
  split
  · rename_i hlen
    rw [hlen]
    exact .nil i j
  · exact .keep h (.nil _ _)

theorem trace_run_delete {i j c len : Nat} (h : i + len ≤ old.length) :
    Trace old new i j (run .delete i c len) (i + len) j := by
  unfold run
  split
  · rename_i hlen
    rw [hlen]
    exact .nil i j
  · exact .delete h (.nil _ _)

theorem trace_run_insert {i j a len : Nat} (h : j + len ≤ new.length) :
    Trace old new i j (run .insert a j len) i (j + len) := by
  unfold run
  split
  · rename_i hlen
    rw [hlen]
    exact .nil i j
  · exact .insert h (.nil _ _)

section Ends

variable [DecidableEq α]

theorem getElem?_eq_of_lt_commonStart {xs ys : List α} {k : Nat} (h : k < commonStart xs ys) :
    xs[k]? = ys[k]? := by
  have ht := congrArg (fun l : List α => l[k]?) (take_commonStart xs ys)
  simpa [List.getElem?_take, h] using ht

theorem commonEnd_le_left (xs ys : List α) : commonEnd xs ys ≤ xs.length := by
  simpa [commonEnd] using commonStart_le_left xs.reverse ys.reverse

theorem commonEnd_le_right (xs ys : List α) : commonEnd xs ys ≤ ys.length := by
  simpa [commonEnd] using commonStart_le_right xs.reverse ys.reverse

theorem getElem?_eq_of_lt_commonEnd {xs ys : List α} {k : Nat} (h : k < commonEnd xs ys) :
    xs[xs.length - commonEnd xs ys + k]? = ys[ys.length - commonEnd xs ys + k]? := by
  have hx := commonEnd_le_left xs ys
  have hy := commonEnd_le_right xs ys
  -- Counted from the back, the place `k` of the common end is its place `commonEnd - 1 - k`.
  have hk : commonEnd xs ys - 1 - k < commonStart xs.reverse ys.reverse := by
    unfold commonEnd at h ⊢
    omega
  have hb := getElem?_eq_of_lt_commonStart hk
  rw [List.getElem?_reverse (by omega), List.getElem?_reverse (by omega)] at hb
  have ex : xs.length - 1 - (commonEnd xs ys - 1 - k) = xs.length - commonEnd xs ys + k := by omega
  have ey : ys.length - 1 - (commonEnd xs ys - 1 - k) = ys.length - commonEnd xs ys + k := by omega
  rwa [ex, ey] at hb

end Ends

/-- `xs` stands in `l` from `a` on. -/
structure Sits (l : List α) (a : Nat) (xs : List α) : Prop where
  le : a + xs.length ≤ l.length
  eq : ∀ k < xs.length, l[a + k]? = xs[k]?

theorem sits_self (l : List α) : Sits l 0 l := ⟨by simp, fun k _ => by simp⟩

theorem Sits.take {l xs : List α} {a : Nat} (h : Sits l a xs) (n : Nat) : Sits l a (xs.take n) := by
  have hle := h.le
  refine ⟨by rw [List.length_take]; omega, fun k hk => ?_⟩
  rw [List.length_take] at hk
  rw [h.eq k (by omega), List.getElem?_take, if_pos (by omega)]

theorem Sits.drop {l xs : List α} {a n : Nat} (h : Sits l a xs) (hn : n ≤ xs.length) :
    Sits l (a + n) (xs.drop n) := by
  have hle := h.le
  refine ⟨by rw [List.length_drop]; omega, fun k hk => ?_⟩
  rw [List.length_drop] at hk
  rw [Nat.add_assoc, h.eq (n + k) (by omega), List.getElem?_drop]

theorem sits_slice {l : List α} {a n : Nat} (h : a + n ≤ l.length) : Sits l a (slice l a n) := by
  have hlen : (slice l a n).length = n := by simp only [slice, List.length_take, List.length_drop]; omega
  refine ⟨by omega, fun k hk => ?_⟩
  rw [slice, List.getElem?_take, if_pos (by omega), List.getElem?_drop]

theorem mem_of_mem_slice {l : List α} {x : α} {a n : Nat} (h : x ∈ slice l a n) : x ∈ l :=
  List.mem_of_mem_drop (List.mem_of_mem_take h)

theorem length_slice {l : List α} {a n : Nat} (h : a + n ≤ l.length) : (slice l a n).length = n := by
  simp only [slice, List.length_take, List.length_drop]
  omega

theorem Agree.slice_eq {i j len : Nat} (h : Agree old new i j len) :
    slice old i len = slice new j len := by
  have hold := length_slice h.old_le
  have hnew := length_slice h.new_le
  refine List.ext_getElem? fun k => ?_
  by_cases hk : k < len
  · rw [← (sits_slice h.old_le).eq k (by omega), ← (sits_slice h.new_le).eq k (by omega), h.eq k hk]
  · rw [List.getElem?_eq_none (by omega), List.getElem?_eq_none (by omega)]

theorem trace_replaceAll {a c p q : Nat} {xs ys : List α} (hx : Sits old a xs) (hy : Sits new c ys) :
    Trace old new a c (run .delete a q xs.length ++ run .insert p c ys.length)
      (a + xs.length) (c + ys.length) :=
  (trace_run_delete hx.le).append (trace_run_insert hy.le)

section Search

variable [DecidableEq α]

theorem Agree.of_commonStart {a c : Nat} {xs ys : List α} (hx : Sits old a xs) (hy : Sits new c ys) :
    Agree old new a c (commonStart xs ys) := by
  have hlx := commonStart_le_left xs ys
  have hly := commonStart_le_right xs ys
  have hox := hx.le
  have hny := hy.le
  refine ⟨by omega, by omega, fun k hk => ?_⟩
  rw [hx.eq k (by omega), hy.eq k (by omega), getElem?_eq_of_lt_commonStart hk]

theorem Agree.of_commonEnd {a c : Nat} {xs ys : List α} (hx : Sits old a xs) (hy : Sits new c ys) :
    Agree old new (a + (xs.length - commonEnd xs ys)) (c + (ys.length - commonEnd xs ys))
      (commonEnd xs ys) := by
  have hlx := commonEnd_le_left xs ys
  have hly := commonEnd_le_right xs ys
  have hox := hx.le
  have hny := hy.le
  refine ⟨by omega, by omega, fun k hk => ?_⟩
  rw [Nat.add_assoc, Nat.add_assoc, hx.eq _ (by omega), hy.eq _ (by omega)]
  exact getElem?_eq_of_lt_commonEnd hk

theorem splitPoint_le {xs ys : List α} {x y : Nat} (h : splitPoint xs ys = some (x, y)) :
    x ≤ xs.length ∧ y ≤ ys.length := by
  unfold splitPoint at h
  split at h
  · cases h
  · split at h
    · simp only [Option.some.injEq, Prod.mk.injEq] at h
      omega
    · cases h

theorem runsWithin_trace (fuel : Nat) {a c : Nat} {xs ys : List α} (hx : Sits old a xs)
    (hy : Sits new c ys) :
    Trace old new a c (runsWithin fuel a c xs ys) (a + xs.length) (c + ys.length) := by
  induction fuel generalizing a c xs ys with
  | zero => exact trace_replaceAll hx hy
  | succ fuel ih =>
    have hpx := commonStart_le_left xs ys
    have hpy := commonStart_le_right xs ys
    have hfront := Agree.of_commonStart hx hy
    have hback := Agree.of_commonEnd (hx.drop hpx) (hy.drop hpy)
    simp only [runsWithin]
    generalize commonStart xs ys = p at *
    have hsx := commonEnd_le_left (xs.drop p) (ys.drop p)
    have hsy := commonEnd_le_right (xs.drop p) (ys.drop p)
    generalize commonEnd (xs.drop p) (ys.drop p) = s at *
    rw [List.length_drop] at hsx hsy hback
    rw [List.length_drop] at hback
    have hx' : Sits old (a + p) (slice xs p (xs.length - p - s)) := (hx.drop hpx).take _
    have hy' : Sits new (c + p) (slice ys p (ys.length - p - s)) := (hy.drop hpy).take _
    have hlx : (slice xs p (xs.length - p - s)).length = xs.length - p - s := length_slice (by omega)
    have hly : (slice ys p (ys.length - p - s)).length = ys.length - p - s := length_slice (by omega)
    rw [← hlx, ← hly] at hback
    generalize slice xs p (xs.length - p - s) = xs' at *
    generalize slice ys p (ys.length - p - s) = ys' at *
    have hend := trace_run_keep hback
    rw [show a + p + xs'.length + s = a + xs.length by omega,
      show c + p + ys'.length + s = c + ys.length by omega] at hend
    refine ((trace_run_keep hfront).append ?_).append hend
    split
    · exact trace_replaceAll hx' hy'
    · rename_i x y hsplit
      have hle : x ≤ xs'.length ∧ y ≤ ys'.length := by
        split at hsplit
        · cases hsplit
        · exact splitPoint_le hsplit
      have h₁ := ih (hx'.take x) (hy'.take y)
      have h₂ := ih (hx'.drop hle.1) (hy'.drop hle.2)
      rw [List.length_take, List.length_take, Nat.min_eq_left hle.1, Nat.min_eq_left hle.2] at h₁
      rw [List.length_drop, List.length_drop, show a + p + x + (xs'.length - x) = a + p + xs'.length by omega,
        show c + p + y + (ys'.length - y) = c + p + ys'.length by omega] at h₂
      exact h₁.append h₂

theorem runs_trace (old new : List α) :
    Trace old new 0 0 (runs old new) old.length new.length := by
  simpa [runs] using runsWithin_trace (old.length + new.length) (sits_self old) (sits_self new)

end Search

end TreeDelta.Alignment
