import Mathlib.Data.List.Chain
import TreeDelta.Hunk
set_option autoImplicit false

namespace TreeDelta

def leadingContext (ls : List HunkLine) : Nat := (ls.takeWhile (·.mark == .context)).length

def trailingContext (ls : List HunkLine) : Nat := leadingContext ls.reverse

def ContextWithin (m : Nat) (ls : List HunkLine) : Prop := ∀ s, s <:+ ls → leadingContext s ≤ m

def DeletionsFirst (ls : List HunkLine) : Prop :=
  ls.IsChain fun x y => x.mark = .added → y.mark ≠ .deleted

/-- What a hunk shows with `n` lines of context. -/
structure ShapedLines (n : Nat) (ls : List HunkLine) : Prop where
  changed : ∃ l ∈ ls, l.mark ≠ .context
  lead : leadingContext ls ≤ n
  trail : trailingContext ls ≤ n
  context : ContextWithin (2 * n) ls
  order : DeletionsFirst ls

def StartsChanged (ls : List HunkLine) : Prop := ∀ x ∈ ls.head?, x.mark ≠ .context

theorem leadingContext_eq_zero {ls : List HunkLine} (h : StartsChanged ls) : leadingContext ls = 0 := by
  cases ls with
  | nil => rfl
  | cons x ls =>
    have hx : x.mark ≠ .context := h x rfl
    simp [leadingContext, hx]

theorem leadingContext_markAll (cs : List Line) {ls : List HunkLine} (h : StartsChanged ls) :
    leadingContext (markAll .context cs ++ ls) = cs.length := by
  induction cs with
  | nil => exact leadingContext_eq_zero h
  | cons c cs ih => simpa [leadingContext, markAll] using ih

theorem contextWithin_nil (m : Nat) : ContextWithin m [] := by
  intro s hs
  rw [List.suffix_nil.1 hs]
  exact Nat.zero_le m

theorem contextWithin_cons {m : Nat} {x : HunkLine} {ls : List HunkLine}
    (hx : leadingContext (x :: ls) ≤ m) (h : ContextWithin m ls) : ContextWithin m (x :: ls) := by
  intro s hs
  rcases List.suffix_cons_iff.1 hs with rfl | hs
  · exact hx
  · exact h s hs

theorem contextWithin_markAll {m : Nat} {cs : List Line} (hcs : cs.length ≤ m) {ls : List HunkLine}
    (hls : StartsChanged ls) (h : ContextWithin m ls) : ContextWithin m (markAll .context cs ++ ls) := by
  induction cs with
  | nil => exact h
  | cons c cs ih =>
    have hlead := leadingContext_markAll (c :: cs) hls
    exact contextWithin_cons (by rwa [← hlead] at hcs) (ih (Nat.le_of_succ_le hcs))

theorem contextWithin_markAll_changed {m : Nat} {mark : Mark} (hmark : mark ≠ .context) (xs : List Line)
    {ls : List HunkLine} (h : ContextWithin m ls) : ContextWithin m (markAll mark xs ++ ls) := by
  induction xs with
  | nil => exact h
  | cons x xs ih =>
    refine contextWithin_cons ?_ ih
    rw [leadingContext_eq_zero (by simpa [StartsChanged] using hmark)]
    exact Nat.zero_le m

theorem deletionsFirst_markAll {mark : Mark} {ls : List HunkLine} (h : DeletionsFirst ls)
    (hnext : mark = .added → ∀ y ∈ ls.head?, y.mark ≠ .deleted) (xs : List Line) :
    DeletionsFirst (markAll mark xs ++ ls) := by
  induction xs with
  | nil => exact h
  | cons x xs ih =>
    refine List.isChain_cons.2 ⟨fun y hy hmark => ?_, ih⟩
    cases xs with
    | nil => exact hnext hmark y hy
    | cons x' xs =>
      cases hy
      exact fun hdeleted => by rw [hmark] at hdeleted; cases hdeleted

/-- Changes with runs of context of at most `m` lines between them. -/
inductive ChangedLines (m : Nat) : List HunkLine → Prop
  | change {ds as : List Line} (h : ds ++ as ≠ []) :
    ChangedLines m (markAll .deleted ds ++ markAll .added as)
  | cons {ds as cs : List Line} {ls : List HunkLine} (h : ds ++ as ≠ []) (hcs : cs ≠ [])
      (hle : cs.length ≤ m) (tail : ChangedLines m ls) :
    ChangedLines m (markAll .deleted ds ++ markAll .added as ++ (markAll .context cs ++ ls))

theorem startsChanged_change {ds as : List Line} (h : ds ++ as ≠ []) (rest : List HunkLine) :
    StartsChanged (markAll .deleted ds ++ markAll .added as ++ rest) := by
  rcases ds with _ | ⟨d, ds⟩
  · rcases as with _ | ⟨a, as⟩
    · exact absurd rfl h
    · simp [StartsChanged, markAll]
  · simp [StartsChanged, markAll]

theorem startsChanged_change_reverse {ds as : List Line} (h : ds ++ as ≠ []) (rest : List HunkLine) :
    StartsChanged ((markAll .deleted ds ++ markAll .added as).reverse ++ rest) := by
  rcases List.eq_nil_or_concat as with rfl | ⟨as, a, rfl⟩
  · rcases List.eq_nil_or_concat ds with rfl | ⟨ds, d, rfl⟩
    · exact absurd rfl h
    · simp [StartsChanged, markAll]
  · simp [StartsChanged, markAll]

namespace ChangedLines

variable {m : Nat} {ls rest : List HunkLine}

theorem startsChanged (h : ChangedLines m ls) : StartsChanged (ls ++ rest) := by
  cases h with
  | change h => exact startsChanged_change h rest
  | cons h =>
    rw [List.append_assoc]
    exact startsChanged_change h _

theorem reverse_startsChanged (h : ChangedLines m ls) : StartsChanged (ls.reverse ++ rest) := by
  induction h generalizing rest with
  | change h => exact startsChanged_change_reverse h rest
  | cons _ _ _ _ ih =>
    rw [List.reverse_append, List.reverse_append, List.append_assoc, List.append_assoc]
    exact ih

theorem exists_changed (h : ChangedLines m ls) : ∃ l ∈ ls, l.mark ≠ .context := by
  have hstart : StartsChanged (ls ++ []) := h.startsChanged
  have hne : ls ≠ [] := by
    cases h with
    | change h => simpa [markAll] using h
    | cons _ hcs => simp [markAll, hcs]
  obtain ⟨x, ls, rfl⟩ := List.exists_cons_of_ne_nil hne
  exact ⟨x, List.mem_cons_self, hstart x rfl⟩

theorem contextWithin (h : ChangedLines m ls) (hrest : ContextWithin m rest) : ContextWithin m (ls ++ rest) := by
  induction h with
  | change =>
    rw [List.append_assoc]
    exact contextWithin_markAll_changed (by decide) _ (contextWithin_markAll_changed (by decide) _ hrest)
  | cons _ _ hle tail ih =>
    rw [List.append_assoc, List.append_assoc, List.append_assoc]
    exact contextWithin_markAll_changed (by decide) _ <|
      contextWithin_markAll_changed (by decide) _ (contextWithin_markAll hle tail.startsChanged ih)

theorem deletionsFirst (h : ChangedLines m ls) (hrest : DeletionsFirst rest)
    (hnext : ∀ y ∈ rest.head?, y.mark ≠ .deleted) : DeletionsFirst (ls ++ rest) := by
  induction h with
  | change =>
    rw [List.append_assoc]
    exact deletionsFirst_markAll (deletionsFirst_markAll hrest (fun _ => hnext) _) (by simp) _
  | @cons ds as cs ls _ hcs _ _ ih =>
    rw [List.append_assoc, List.append_assoc, List.append_assoc]
    refine deletionsFirst_markAll (deletionsFirst_markAll (deletionsFirst_markAll ih (by simp) _)
      (fun _ => ?_) _) (by simp) _
    rcases cs with _ | ⟨c, cs⟩
    · exact absurd rfl hcs
    · simp [markAll]

theorem trailingContext_eq (h : ChangedLines m ls) (cs cs' : List Line) :
    trailingContext (markAll .context cs ++ (ls ++ markAll .context cs')) = cs'.length := by
  have hreverse : (markAll .context cs').reverse = markAll .context cs'.reverse := by simp [markAll]
  rw [trailingContext, List.reverse_append, List.reverse_append, List.append_assoc, hreverse,
    leadingContext_markAll _ h.reverse_startsChanged, List.length_reverse]

theorem shapedLines {n : Nat} (h : ChangedLines (2 * n) ls) {cs cs' : List Line} (hcs : cs.length ≤ n)
    (hcs' : cs'.length ≤ n) : ShapedLines n (markAll .context cs ++ (ls ++ markAll .context cs')) := by
  have hcontext : ContextWithin (2 * n) (markAll .context cs' ++ []) :=
    contextWithin_markAll (by omega) (by simp [StartsChanged]) (contextWithin_nil (2 * n))
  have horder : DeletionsFirst (markAll .context cs' ++ []) := deletionsFirst_markAll .nil (by simp) cs'
  have hnext : ∀ y ∈ (markAll .context cs').head?, y.mark ≠ .deleted := by cases cs' <;> simp [markAll]
  rw [List.append_nil] at hcontext horder
  refine ⟨?_, ?_, ?_, ?_, ?_⟩
  · obtain ⟨l, hl, hmark⟩ := h.exists_changed
    exact ⟨l, List.mem_append_right _ (List.mem_append_left _ hl), hmark⟩
  · rwa [leadingContext_markAll cs h.startsChanged]
  · rwa [h.trailingContext_eq]
  · exact contextWithin_markAll (by omega) h.startsChanged (h.contextWithin hcontext)
  · exact deletionsFirst_markAll (h.deletionsFirst horder hnext) (by simp) cs

end ChangedLines

end TreeDelta
