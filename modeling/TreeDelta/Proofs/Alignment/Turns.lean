import TreeDelta.Alignment.Block
set_option autoImplicit false

namespace TreeDelta.Alignment

theorem run_nonempty (kind : RunKind) (old new len : Nat) : ∀ r ∈ run kind old new len, r.len ≠ 0 := by
  unfold run
  split
  · simp
  · rename_i hlen
    simpa using hlen

theorem keepBefore_nonempty {r : Run} {rs : List Run} (hr : r.len ≠ 0) (hrs : ∀ x ∈ rs, x.len ≠ 0) :
    ∀ x ∈ keepBefore r rs, x.len ≠ 0 := by
  cases rs with
  | nil => simpa [keepBefore] using hr
  | cons x rs =>
    have hx := List.forall_mem_cons.1 hrs
    rw [keepBefore]
    split
    · exact List.forall_mem_cons.2 ⟨by dsimp only; omega, hx.2⟩
    · exact List.forall_mem_cons.2 ⟨hr, hrs⟩

theorem keepAfter_nonempty {r : Run} {rs : List Run} (hr : r.len ≠ 0) (hrs : ∀ x ∈ rs, x.len ≠ 0) :
    ∀ x ∈ keepAfter r rs, x.len ≠ 0 := by
  cases rs with
  | nil => simpa [keepAfter] using hr
  | cons x rs =>
    have hx := List.forall_mem_cons.1 hrs
    rw [keepAfter]
    split
    · exact List.forall_mem_cons.2 ⟨by dsimp only; omega, hx.2⟩
    · exact List.forall_mem_cons.2 ⟨hr, hrs⟩

theorem unlessEmpty_nonempty {r : Run} {rs : List Run} (hrs : ∀ x ∈ rs, x.len ≠ 0) :
    ∀ x ∈ unlessEmpty r rs, x.len ≠ 0 := by
  unfold unlessEmpty
  split
  · exact hrs
  · rename_i hlen
    exact List.forall_mem_cons.2 ⟨hlen, hrs⟩

structure Focus.Nonempty (f : Focus) : Prop where
  before : ∀ r ∈ f.before, r.len ≠ 0
  run : f.run.len ≠ 0
  after : ∀ r ∈ f.after, r.len ≠ 0

section Runs

variable {α : Type} [DecidableEq α]

theorem runsWithin_nonempty (fuel a c : Nat) (xs ys : List α) :
    ∀ r ∈ runsWithin fuel a c xs ys, r.len ≠ 0 := by
  induction fuel generalizing a c xs ys with
  | zero => exact List.forall_mem_append.2 ⟨run_nonempty _ _ _ _, run_nonempty _ _ _ _⟩
  | succ fuel ih =>
    refine List.forall_mem_append.2 ⟨List.forall_mem_append.2 ⟨run_nonempty _ _ _ _, ?_⟩,
      run_nonempty _ _ _ _⟩
    split
    · exact List.forall_mem_append.2 ⟨run_nonempty _ _ _ _, run_nonempty _ _ _ _⟩
    · exact List.forall_mem_append.2 ⟨ih _ _ _ _, ih _ _ _ _⟩

theorem slideUp_nonempty (old new : List α) (fuel : Nat) {f : Focus} (h : f.Nonempty) :
    (slideUp old new fuel f).Nonempty := by
  fun_induction slideUp old new fuel f with
  | case1 => exact h
  | case2 => exact h
  | case3 fuel r after q before hq s hs hlen ih =>
    exact ih ⟨(List.forall_mem_cons.1 h.before).2, h.run, h.after⟩
  | case4 => exact h
  | case5 fuel r after q before hq s hs kept ih =>
    exact ih ⟨unlessEmpty_nonempty (List.forall_mem_cons.1 h.before).2, h.run,
      keepBefore_nonempty hs h.after⟩
  | case6 fuel r after q before hq hkind ih =>
    have hrun := h.run
    dsimp only at hrun
    exact ih ⟨(List.forall_mem_cons.1 h.before).2, by dsimp only; omega, h.after⟩
  | case7 fuel r after q before hq hkind ih =>
    have hbefore := List.forall_mem_cons.1 h.before
    exact ih ⟨hbefore.2, h.run, List.forall_mem_cons.2 ⟨hbefore.1, h.after⟩⟩

theorem slideDown_nonempty (old new : List α) (fuel : Nat) {f : Focus} (h : f.Nonempty) :
    (slideDown old new fuel f).Nonempty := by
  fun_induction slideDown old new fuel f with
  | case1 => exact h
  | case2 => exact h
  | case3 fuel before r x after hx s hs hlen ih =>
    exact ih ⟨h.before, h.run, (List.forall_mem_cons.1 h.after).2⟩
  | case4 => exact h
  | case5 fuel before r x after hx s hs kept ih =>
    exact ih ⟨keepAfter_nonempty hs h.before, h.run,
      unlessEmpty_nonempty (List.forall_mem_cons.1 h.after).2⟩
  | case6 fuel before r x after hx hkind ih =>
    have hrun := h.run
    dsimp only at hrun
    exact ih ⟨h.before, by dsimp only; omega, (List.forall_mem_cons.1 h.after).2⟩
  | case7 fuel before r x after hx hkind ih =>
    have hafter := List.forall_mem_cons.1 h.after
    exact ih ⟨List.forall_mem_cons.2 ⟨hafter.1, h.before⟩, h.run, hafter.2⟩

theorem slidePass_nonempty (old new : List α) (kind : RunKind) (fuel : Nat) {before after : List Run}
    (hbefore : ∀ r ∈ before, r.len ≠ 0) (hafter : ∀ r ∈ after, r.len ≠ 0) :
    ∀ r ∈ slidePass old new kind fuel before after, r.len ≠ 0 := by
  induction fuel generalizing before after with
  | zero =>
    exact List.forall_mem_append.2 ⟨fun r hr => hbefore r (List.mem_reverse.1 hr), hafter⟩
  | succ fuel ih =>
    cases after with
    | nil => exact fun r hr => hbefore r (List.mem_reverse.1 hr)
    | cons r after =>
      have hr := List.forall_mem_cons.1 hafter
      simp only [slidePass]
      split
      · have hfocus : Focus.Nonempty ⟨before, r, after⟩ := ⟨hbefore, hr.1, hr.2⟩
        have hslid := slideDown_nonempty old new (slideBound (before ++ r :: after))
          (slideUp_nonempty old new (slideBound (before ++ r :: after)) hfocus)
        exact ih (List.forall_mem_cons.2 ⟨hslid.run, hslid.before⟩) hslid.after
      · exact ih (List.forall_mem_cons.2 ⟨hr.1, hbefore⟩) hr.2

theorem slideAll_runs_nonempty (old new : List α) : ∀ r ∈ slideAll old new (runs old new), r.len ≠ 0 :=
  slidePass_nonempty old new .insert _ (by simp) <|
    slidePass_nonempty old new .delete _ (by simp) <| runsWithin_nonempty _ _ _ _ _

end Runs

/-- What may come after a change: kept stretches and changes in turn, and none is empty. -/
inductive Turns : List Block → Prop
  | nil : Turns []
  | kept {i j len : Nat} (h : len ≠ 0) : Turns [.same i j len]
  | cons {i j len a oldLen b newLen : Nat} {bs : List Block} (h : len ≠ 0)
      (hchange : oldLen ≠ 0 ∨ newLen ≠ 0) (tail : Turns bs) :
    Turns (.same i j len :: .change a oldLen b newLen :: bs)

inductive InTurn : List Block → Prop
  | turns {bs : List Block} (h : Turns bs) : InTurn bs
  | change {a oldLen b newLen : Nat} {bs : List Block} (hchange : oldLen ≠ 0 ∨ newLen ≠ 0)
      (tail : Turns bs) : InTurn (.change a oldLen b newLen :: bs)

theorem Turns.swap {bs : List Block} (h : Turns bs) : Turns (bs.map Block.swap) := by
  induction h with
  | nil => exact .nil
  | kept hlen => exact .kept hlen
  | cons hlen hchange _ ih => exact .cons hlen hchange.symm ih

theorem InTurn.swap {bs : List Block} (h : InTurn bs) : InTurn (bs.map Block.swap) := by
  cases h with
  | turns h => exact .turns h.swap
  | change hchange tail => exact .change hchange.symm tail.swap

theorem cons_inTurn {r : Run} (hr : r.len ≠ 0) {bs : List Block} (h : InTurn bs) :
    InTurn (Block.cons r bs) := by
  obtain ⟨kind, i, j, len⟩ := r
  dsimp only at hr
  cases h with
  | turns h =>
    cases kind with
    | keep =>
      cases h with
      | nil => exact .turns (.kept hr)
      | kept => exact .turns (.kept (by omega))
      | cons _ hchange tail => exact .turns (.cons (by omega) hchange tail)
    | delete =>
      have hcons : Block.cons ⟨.delete, i, j, len⟩ bs = .change i len j 0 :: bs := by cases h <;> rfl
      exact hcons ▸ .change (.inl hr) h
    | insert =>
      have hcons : Block.cons ⟨.insert, i, j, len⟩ bs = .change i 0 j len :: bs := by cases h <;> rfl
      exact hcons ▸ .change (.inr hr) h
  | change hchange tail =>
    have hlonger : ∀ m, len + m ≠ 0 := fun m => by omega
    cases kind with
    | keep => exact .turns (.cons hr hchange tail)
    | delete => exact .change (.inl (hlonger _)) tail
    | insert => exact .change (.inr (hlonger _)) tail

theorem ofRuns_inTurn {rs : List Run} (h : ∀ r ∈ rs, r.len ≠ 0) : InTurn (Block.ofRuns rs) := by
  induction rs with
  | nil => exact .turns .nil
  | cons r rs ih =>
    have hr := List.forall_mem_cons.1 h
    exact cons_inTurn hr.1 (ih hr.2)

section Align

variable {α : Type} [DecidableEq α]

theorem alignInOrder_inTurn (old new : List α) : InTurn (alignInOrder old new) :=
  ofRuns_inTurn (slideAll_runs_nonempty old new)

theorem align_inTurn [Ord α] (old new : List α) : InTurn (align old new) := by
  unfold align
  split
  · exact alignInOrder_inTurn old new
  · exact (alignInOrder_inTurn new old).swap

end Align

end TreeDelta.Alignment
