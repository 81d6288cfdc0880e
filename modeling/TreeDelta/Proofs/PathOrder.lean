import Mathlib.Data.List.TakeWhile
import TreeDelta.Proofs.Subtree
set_option autoImplicit false

namespace TreeDelta

theorem compare_append_left {α : Type} [Ord α] [Std.ReflOrd α] (l a b : List α) :
    compare (l ++ a) (l ++ b) = compare a b := by
  induction l with
  | nil => rfl
  | cons x l ih =>
    have hx : compare x x = .eq := Std.ReflCmp.compare_self
    rw [List.cons_append, List.cons_append, List.compare_cons_cons, ih, hx, Ordering.eq_then]

theorem compare_append_cons (l m : List Name) (n : Name) : compare l (l ++ n :: m) = .lt := by
  induction l with
  | nil => rfl
  | cons a l ih => simp [List.compare_cons_cons, ih]

theorem exists_append_of_between {l m rel : List Name} (hfirst : compare l m ≠ .gt)
    (hlast : compare m (l ++ rel) ≠ .gt) : ∃ way, m = l ++ way := by
  induction l generalizing m with
  | nil => exact ⟨m, rfl⟩
  | cons n l ih =>
    cases m with
    | nil => exact absurd rfl hfirst
    | cons n' m =>
      rw [List.compare_cons_cons] at hfirst
      rw [List.cons_append, List.compare_cons_cons] at hlast
      cases hname : compare n n' with
      | lt => simp [Std.OrientedCmp.gt_of_lt hname] at hlast
      | gt => simp [hname] at hfirst
      | eq =>
        obtain rfl : n = n' := Std.LawfulEqCmp.eq_of_compare hname
        simp only [Std.ReflCmp.compare_self, Ordering.eq_then] at hfirst hlast
        obtain ⟨way, rfl⟩ := ih hfirst hlast
        exact ⟨way, rfl⟩

namespace Path

theorem compare_join (d p q : Path) : compare (d.join p) (d.join q) = compare p q :=
  compare_append_left d.names p.names q.names

theorem compare_of_below {p q : Path} (h : p.isAtOrBelow q = true) (hne : p ≠ q) :
    compare q p = .lt := by
  obtain ⟨⟨rel⟩, rfl⟩ := isAtOrBelow_iff.1 h
  cases rel with
  | nil => exact absurd (join_root q) hne
  | cons n rel => exact compare_append_cons q.names rel n

theorem compare_child (p : Path) (n m : Name) : compare (p.child n) (p.child m) = compare n m := by
  have hjoin := p.compare_join ⟨[n]⟩ ⟨[m]⟩
  change compare (p.child n) (p.child m) = compare [n] [m] at hjoin
  rw [hjoin, List.compare_cons_cons]
  simp

theorem compare_lt_child {p k : Path} {n m : Name} (h : compare n m = .lt)
    (hk : k.isAtOrBelow (p.child n) = true) : compare k (p.child m) = .lt := by
  obtain ⟨⟨rel⟩, rfl⟩ := isAtOrBelow_iff.1 hk
  have hjoin := p.compare_join ⟨n :: rel⟩ ⟨[m]⟩
  rw [join_cons] at hjoin
  change compare ((p.child n).join ⟨rel⟩) (p.child m) = compare (n :: rel) [m] at hjoin
  rw [hjoin, List.compare_cons_cons, h]
  rfl

theorem compare_lt_child_self (p : Path) (n : Name) : compare p (p.child n) = .lt :=
  compare_append_cons p.names [] n

theorem isAtOrBelow_of_between {p k q : Path} (hfirst : compare p k ≠ .gt)
    (hlast : compare k q ≠ .gt) (hq : q.isAtOrBelow p = true) : k.isAtOrBelow p = true := by
  obtain ⟨⟨rel⟩, rfl⟩ := isAtOrBelow_iff.1 hq
  obtain ⟨way, hway⟩ := exists_append_of_between hfirst hlast
  exact isAtOrBelow_iff.2 ⟨⟨way⟩, congrArg mk hway⟩

end Path

/-- A scan that skips what comes before a stretch and ends where the stretch does finds all of it. -/
theorem takeWhile_dropWhile_eq_filter {α : Type} {before inside : α → Bool} {l : List α}
    (hbefore : l.Pairwise fun a b => before b = true → before a = true)
    (hinside : l.Pairwise fun a b => inside b = true → before a = true ∨ inside a = true)
    (hapart : ∀ a ∈ l, before a = true → inside a = false) :
    (l.dropWhile before).takeWhile inside = l.filter inside := by
  induction l with
  | nil => rfl
  | cons a l ih =>
    obtain ⟨hfirst, hbefore⟩ := List.pairwise_cons.1 hbefore
    obtain ⟨hstretch, hinside⟩ := List.pairwise_cons.1 hinside
    have hrest := ih hbefore hinside fun b hb => hapart b (List.mem_cons_of_mem a hb)
    cases ha : before a with
    | true =>
      rw [List.dropWhile_cons_of_pos ha, hrest]
      rw [List.filter_cons_of_neg (by simp [hapart a List.mem_cons_self ha])]
    | false =>
      have hnone : ∀ b ∈ l, before b = false := fun b hb =>
        Bool.eq_false_iff.2 fun hb' => by simp [hfirst b hb hb'] at ha
      rw [List.dropWhile_cons_of_neg (by simp [ha])]
      cases hin : inside a with
      | true =>
        have hall : l.dropWhile before = l := List.dropWhile_eq_self_iff.2 fun hl => by
          simp [hnone _ (List.getElem_mem hl)]
        rw [hall] at hrest
        rw [List.takeWhile_cons_of_pos hin, hrest, List.filter_cons_of_pos hin]
      | false =>
        have hnothing : l.filter inside = [] := List.filter_eq_nil_iff.2 fun b hb hb' => by
          rcases hstretch b hb hb' with h | h
          · simp [h] at ha
          · simp [h] at hin
        rw [List.takeWhile_cons_of_neg (by simp [hin]), List.filter_cons_of_neg (by simp [hin]),
          hnothing]

def OrderedMap.entriesFrom {κ ν : Type} [Ord κ] (m : OrderedMap κ ν) (k : κ) : List (κ × ν) :=
  m.entries.dropWhile fun e => compare e.1 k == .lt

theorem takeWhile_entriesFrom {ν : Type} (tree : OrderedMap Path ν) (p : Path) :
    ((tree.entriesFrom p).takeWhile fun e => e.1.isAtOrBelow p) =
      tree.entries.filter fun e => e.1.isAtOrBelow p := by
  refine takeWhile_dropWhile_eq_filter (tree.ascending.imp fun {a b} hab hb => ?_)
    (tree.ascending.imp fun {a b} hab hb => ?_) fun a _ ha => ?_
  · rw [beq_iff_eq] at hb ⊢
    exact Std.TransCmp.lt_trans hab hb
  · by_cases ha : compare a.1 p = .lt
    · exact .inl (beq_iff_eq.2 ha)
    · refine .inr (Path.isAtOrBelow_of_between (fun h => ha (Std.OrientedCmp.lt_of_gt h)) ?_ hb)
      simp [hab]
  · rw [beq_iff_eq] at ha
    rw [Bool.eq_false_iff]
    intro hbelow
    by_cases hne : a.1 = p
    · simp [hne] at ha
    · have hlt := Path.compare_of_below hbelow hne
      simp [Std.OrientedCmp.gt_of_lt hlt] at ha

end TreeDelta
