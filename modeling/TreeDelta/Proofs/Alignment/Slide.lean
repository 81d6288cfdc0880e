import TreeDelta.Alignment.Slide
import TreeDelta.Proofs.Alignment.Trace
set_option autoImplicit false

namespace TreeDelta.Alignment

variable {α : Type} {old new : List α}

theorem trace_join {i j i' j' : Nat} {q r : Run} {rest : List Run} (hq : q.kind ≠ .keep)
    (hqr : q.kind = r.kind) (h : Trace old new i j (q :: r :: rest) i' j') :
    Trace old new i j ({ q with len := q.len + r.len } :: rest) i' j' := by
  cases h with
  | keep => exact absurd rfl hq
  | delete hlen tail =>
    cases tail with
    | delete hlen' tail' =>
      rw [Nat.add_assoc] at hlen' tail'
      exact .delete hlen' tail'
    | keep | insert => cases hqr
  | insert hlen tail =>
    cases tail with
    | insert hlen' tail' =>
      rw [Nat.add_assoc] at hlen' tail'
      exact .insert hlen' tail'
    | keep | delete => cases hqr

theorem trace_exchange {i j i' j' : Nat} {q r : Run} {rest : List Run} (hq : q.kind ≠ .keep)
    (hr : r.kind ≠ .keep) (hqr : q.kind ≠ r.kind) (h : Trace old new i j (q :: r :: rest) i' j') :
    Trace old new i j (r :: q :: rest) i' j' := by
  cases h with
  | keep => exact absurd rfl hq
  | delete hlen tail =>
    cases tail with
    | keep => exact absurd rfl hr
    | delete => exact absurd rfl hqr
    | insert hlen' tail' => exact .insert hlen' (.delete hlen tail')
  | insert hlen tail =>
    cases tail with
    | keep => exact absurd rfl hr
    | delete hlen' tail' => exact .delete hlen' (.insert hlen tail')
    | insert => exact absurd rfl hqr

theorem trace_of_emptyKeep {i j i' j' : Nat} {q : Run} {rest : List Run} (hq : q.kind = .keep)
    (hlen : q.len = 0) (h : Trace old new i j (q :: rest) i' j') : Trace old new i j rest i' j' := by
  cases h with
  | keep hagree tail =>
    dsimp only at hlen
    subst hlen
    exact tail
  | delete | insert => cases hq

theorem trace_unlessEmpty {i j len i' j' : Nat} {rest : List Run} (h : Agree old new i j len)
    (tail : Trace old new (i + len) (j + len) rest i' j') :
    Trace old new i j (unlessEmpty ⟨.keep, i, j, len⟩ rest) i' j' := by
  unfold unlessEmpty
  split
  · rename_i hlen
    dsimp only at hlen
    subst hlen
    exact tail
  · exact .keep h tail

theorem reverse_unlessEmpty (r : Run) (rest : List Run) :
    (unlessEmpty r rest).reverse = rest.reverse ++ unlessEmpty r [] := by
  unfold unlessEmpty
  split <;> simp

theorem trace_keepBefore {i j len i' j' : Nat} {rest : List Run} (h : Agree old new i j len)
    (tail : Trace old new (i + len) (j + len) rest i' j') :
    Trace old new i j (keepBefore ⟨.keep, i, j, len⟩ rest) i' j' := by
  cases tail with
  | nil => exact .keep h (.nil _ _)
  | keep hagree tail =>
    simp only [keepBefore, if_true, Nat.add_sub_cancel]
    rw [Nat.add_comm]
    rw [Nat.add_assoc, Nat.add_assoc] at tail
    exact .keep (h.append hagree) tail
  | delete hlen tail => exact .keep h (.delete hlen tail)
  | insert hlen tail => exact .keep h (.insert hlen tail)

theorem trace_cons_iff {i j i' j' : Nat} {r : Run} {rs : List Run} :
    Trace old new i j (r :: rs) i' j' ↔
      ∃ k l, Trace old new i j [r] k l ∧ Trace old new k l rs i' j' := by
  rw [← List.singleton_append, trace_append_iff]

theorem trace_reverse_cons_iff {i j i' j' : Nat} {r : Run} {before : List Run} :
    Trace old new i j (r :: before).reverse i' j' ↔
      ∃ k l, Trace old new i j before.reverse k l ∧ Trace old new k l [r] i' j' := by
  rw [List.reverse_cons, trace_append_iff]

theorem trace_keepAfter {i j k l len : Nat} {before : List Run}
    (h : Trace old new i j before.reverse k l) (hagree : Agree old new k l len) :
    Trace old new i j (keepAfter ⟨.keep, k, l, len⟩ before).reverse (k + len) (l + len) := by
  have hpush : Trace old new i j (⟨.keep, k, l, len⟩ :: before).reverse (k + len) (l + len) :=
    trace_reverse_cons_iff.2 ⟨k, l, h, .keep hagree (.nil _ _)⟩
  unfold keepAfter
  split
  · rename_i x rest
    split
    · rename_i hx
      obtain ⟨m, n, hrest, hx'⟩ := trace_reverse_cons_iff.1 h
      cases hx' with
      | keep hagree' tail =>
        cases tail with
        | nil =>
          refine trace_reverse_cons_iff.2 ⟨m, n, hrest, ?_⟩
          rw [Nat.add_assoc, Nat.add_assoc]
          exact .keep (hagree'.append hagree) (.nil _ _)
      | delete | insert => cases hx
    · exact hpush
  · exact hpush

/-- The runs around a focus are a trace, and the run in it is not a kept one. -/
structure Focus.Leads (old new : List α) (i j i' j' : Nat) (f : Focus) : Prop where
  moves : f.run.kind ≠ .keep
  trace : ∃ k l, Trace old new i j f.before.reverse k l ∧ Trace old new k l (f.run :: f.after) i' j'

theorem leads_cons_iff {i j i' j' : Nat} {q r : Run} {before after : List Run} :
    Focus.Leads old new i j i' j' ⟨q :: before, r, after⟩ ↔ r.kind ≠ .keep ∧
      ∃ k l, Trace old new i j before.reverse k l ∧ Trace old new k l (q :: r :: after) i' j' := by
  constructor
  · rintro ⟨hr, m, n, hbefore, htail⟩
    obtain ⟨k, l, hbefore, hq⟩ := trace_reverse_cons_iff.1 hbefore
    exact ⟨hr, k, l, hbefore, hq.append htail⟩
  · rintro ⟨hr, k, l, hbefore, htail⟩
    obtain ⟨m, n, hq, htail⟩ := trace_cons_iff.1 htail
    exact ⟨hr, m, n, trace_reverse_cons_iff.2 ⟨k, l, hbefore, hq⟩, htail⟩

variable [DecidableEq α]

theorem roomAbove_eq {q r : Run} (h : roomAbove old new q r ≠ 0) :
    r.kind = .insert ∧
      roomAbove old new q r = commonEnd (slice old q.old q.len) (slice new r.new r.len) := by
  unfold roomAbove at *
  split at h
  · rename_i hr
    exact ⟨hr, if_pos hr⟩
  · exact absurd rfl h

theorem roomBelow_eq {x r : Run} (h : roomBelow old new x r ≠ 0) :
    r.kind = .insert ∧
      roomBelow old new x r = commonStart (slice old x.old x.len) (slice new r.new r.len) := by
  unfold roomBelow at *
  split at h
  · rename_i hr
    exact ⟨hr, if_pos hr⟩
  · exact absurd rfl h

theorem trace_moveUp {i j i' j' s : Nat} {q r : Run} {after : List Run} (hq : q.kind = .keep)
    (hr : r.kind = .insert)
    (hs : s = commonEnd (slice old q.old q.len) (slice new r.new r.len))
    (h : Trace old new i j (q :: r :: after) i' j') :
    Trace old new i j
      (unlessEmpty { q with len := q.len - s } [] ++ { r with old := r.old - s, new := r.new - s } ::
        keepBefore ⟨.keep, q.old + q.len - s, r.new + r.len - s, s⟩ after) i' j' := by
  cases h with
  | delete | insert => cases hq
  | @keep _ _ len _ _ _ hagree tail =>
    cases tail with
    | keep | delete => cases hr
    | @insert _ _ a rlen _ _ _ hlen tail =>
      dsimp only at hs ⊢
      have hso := commonEnd_le_left (slice old i len) (slice new (j + len) rlen)
      have hsn := commonEnd_le_right (slice old i len) (slice new (j + len) rlen)
      have hend := Agree.of_commonEnd (sits_slice hagree.old_le) (sits_slice hlen)
      rw [length_slice hagree.old_le, length_slice hlen, ← hs] at hend
      rw [length_slice hagree.old_le, ← hs] at hso
      rw [length_slice hlen, ← hs] at hsn
      have hnew : j + len - s = j + (len - s) := by omega
      have hold' : i + len - s = i + (len - s) := by omega
      have hnew' : j + len + rlen - s = j + (len - s) + rlen := by omega
      rw [hnew, hold', hnew']
      rw [show j + len + (rlen - s) = j + (len - s) + rlen by omega] at hend
      have hlen' := hend.new_le
      refine (trace_unlessEmpty (hagree.take (Nat.sub_le len s)) (.nil _ _)).append ?_
      refine .insert (by omega) (trace_keepBefore hend ?_)
      rw [show i + (len - s) + s = i + len by omega,
        show j + (len - s) + rlen + s = j + len + rlen by omega]
      exact tail

theorem slideUp_leads (fuel : Nat) {i j i' j' : Nat} {f : Focus}
    (h : f.Leads old new i j i' j') : (slideUp old new fuel f).Leads old new i j i' j' := by
  induction fuel generalizing f with
  | zero => exact h
  | succ fuel ih =>
    obtain ⟨before, r, after⟩ := f
    cases before with
    | nil => exact h
    | cons q before =>
      obtain ⟨hr, k, l, hbefore, htail⟩ := leads_cons_iff.1 h
      rw [slideUp]
      split
      · rename_i hq
        by_cases hs : roomAbove old new q r = 0
        · simp only [hs, if_true]
          split
          · rename_i hlen
            exact ih ⟨hr, k, l, hbefore, trace_of_emptyKeep hq hlen htail⟩
          · exact h
        · simp only [hs, if_false]
          obtain ⟨hins, hroom⟩ := roomAbove_eq hs
          obtain ⟨m, n, hkept, hrest⟩ := trace_append_iff.1 (trace_moveUp hq hins hroom htail)
          refine ih ⟨hr, m, n, ?_, hrest⟩
          rw [reverse_unlessEmpty]
          exact hbefore.append hkept
      · rename_i hq
        split
        · rename_i hqr
          exact ih ⟨hq, k, l, hbefore, trace_join hq hqr htail⟩
        · rename_i hqr
          exact ih ⟨hr, k, l, hbefore, trace_exchange hq hr hqr htail⟩

theorem trace_moveDown {i j k l i' j' s : Nat} {r x : Run} {before after : List Run}
    (hr : r.kind = .insert) (hx : x.kind = .keep)
    (hs : s = commonStart (slice old x.old x.len) (slice new r.new r.len))
    (hbefore : Trace old new i j before.reverse k l)
    (h : Trace old new k l (r :: x :: after) i' j') :
    Trace old new i j (keepAfter ⟨.keep, x.old, r.new, s⟩ before).reverse (k + s) (l + s) ∧
      Trace old new (k + s) (l + s)
        ({ r with old := r.old + s, new := r.new + s } ::
          unlessEmpty { x with old := x.old + s, new := x.new + s, len := x.len - s } after) i' j' := by
  cases h with
  | keep | delete => cases hr
  | @insert _ _ a rlen _ _ _ hlen tail =>
    cases tail with
    | delete | insert => cases hx
    | @keep _ _ len _ _ _ hagree tail =>
      dsimp only at hs ⊢
      have hso := commonStart_le_left (slice old k len) (slice new l rlen)
      have hstart := Agree.of_commonStart (sits_slice hagree.old_le) (sits_slice hlen)
      rw [length_slice hagree.old_le, ← hs] at hso
      rw [← hs] at hstart
      have hdrop := hagree.drop hso
      have hle := hagree.new_le
      refine ⟨trace_keepAfter hbefore hstart, .insert (by omega) ?_⟩
      rw [show l + s + rlen = l + rlen + s by omega]
      refine trace_unlessEmpty hdrop ?_
      rw [show k + s + (len - s) = k + len by omega,
        show l + rlen + s + (len - s) = l + rlen + len by omega]
      exact tail

theorem slideDown_leads (fuel : Nat) {i j i' j' : Nat} {f : Focus}
    (h : f.Leads old new i j i' j') : (slideDown old new fuel f).Leads old new i j i' j' := by
  induction fuel generalizing f with
  | zero => exact h
  | succ fuel ih =>
    obtain ⟨before, r, after⟩ := f
    cases after with
    | nil => exact h
    | cons x after =>
      obtain ⟨hr, k, l, hbefore, htail⟩ := id h
      dsimp only at hr hbefore htail
      rw [slideDown]
      split
      · rename_i hx
        by_cases hs : roomBelow old new x r = 0
        · simp only [hs, if_true]
          split
          · rename_i hlen
            obtain ⟨m, n, hr', hrest⟩ := trace_cons_iff.1 htail
            exact ih ⟨hr, k, l, hbefore, hr'.append (trace_of_emptyKeep hx hlen hrest)⟩
          · exact h
        · simp only [hs, if_false]
          obtain ⟨hins, hroom⟩ := roomBelow_eq hs
          exact ih ⟨hr, _, _, trace_moveDown hins hx hroom hbefore htail⟩
      · rename_i hx
        split
        · rename_i hxr
          exact ih ⟨hr, k, l, hbefore, trace_join hr hxr.symm htail⟩
        · rename_i hxr
          exact ih (leads_cons_iff.2 ⟨hr, k, l, hbefore, trace_exchange hr hx (Ne.symm hxr) htail⟩)

theorem slidePass_trace {kind : RunKind} (hkind : kind ≠ .keep) (fuel : Nat) {i j i' j' : Nat}
    {before after : List Run} (h : Trace old new i j (before.reverse ++ after) i' j') :
    Trace old new i j (slidePass old new kind fuel before after) i' j' := by
  induction fuel generalizing before after with
  | zero => exact h
  | succ fuel ih =>
    cases after with
    | nil => simpa [slidePass] using h
    | cons r after =>
      rw [slidePass]
      split
      · rename_i hr
        obtain ⟨k, l, hbefore, htail⟩ := trace_append_iff.1 h
        have hfocus : Focus.Leads old new i j i' j' ⟨before, r, after⟩ := ⟨hr ▸ hkind, k, l, hbefore, htail⟩
        have hslid := slideDown_leads (slideBound (before ++ r :: after))
          (slideUp_leads (slideBound (before ++ r :: after)) hfocus)
        obtain ⟨_, m, n, hbefore', htail'⟩ := hslid
        refine ih ?_
        rw [List.reverse_cons, List.append_assoc]
        exact hbefore'.append htail'
      · refine ih ?_
        rw [List.reverse_cons, List.append_assoc]
        exact h

theorem slideAll_trace {rs : List Run} {i j i' j' : Nat} (h : Trace old new i j rs i' j') :
    Trace old new i j (slideAll old new rs) i' j' :=
  slidePass_trace (by decide) _ (slidePass_trace (by decide) _ h)

end TreeDelta.Alignment
