import Mathlib.Data.List.Forall2
import TreeDelta.Proofs.Hunk
import TreeDelta.Proofs.Lines
set_option autoImplicit false

namespace TreeDelta

variable {o o' : Options} {text text' : Bytes}

def notSpace (b : UInt8) : Bool := !isSpaceByte b

def startsBlank (text : Bytes) : Bool := text.head?.any isSpaceByte

@[simp]
theorem startsBlank_cons (b : UInt8) (rest : Bytes) : startsBlank (b :: rest) = isSpaceByte b := rfl

/-- Every run of white space becomes one space; none is left at either end. -/
def innerWords : Bytes → Bytes
  | [] => []
  | b :: rest =>
    if isSpaceByte b then innerWords rest
    else
      let more := innerWords rest
      b :: (if startsBlank rest && !more.isEmpty then 32 :: more else more)

theorem innerWords_cons (b : UInt8) (rest : Bytes) :
    innerWords (b :: rest) =
      if isSpaceByte b then innerWords rest
      else b :: if startsBlank rest && !(innerWords rest).isEmpty then 32 :: innerWords rest
        else innerWords rest := rfl

/-- Read from any point on, the space that is still to come stands between what is kept already and
the words that follow. -/
theorem reverse_foldl_takeByte (text kept : Bytes) (pending : Bool) :
    (text.foldl takeByte (kept, pending)).1.reverse = kept.reverse ++
      if (pending || startsBlank text) && !kept.isEmpty && !(innerWords text).isEmpty then
        32 :: innerWords text
      else innerWords text := by
  induction text generalizing kept pending with
  | nil => simp [innerWords]
  | cons b rest ih =>
    rw [List.foldl_cons, takeByte, startsBlank_cons, innerWords_cons]
    cases hb : isSpaceByte b with
    | true => simp [ih]
    | false => cases hspace : pending && !kept.isEmpty <;> simp [ih, hspace]

theorem foldl_takeByte_of_innerWords {text : Bytes} (h : innerWords text = []) (kept : Bytes)
    (pending : Bool) : text.foldl takeByte (kept, pending) = (kept, pending || !text.isEmpty) := by
  induction text generalizing pending with
  | nil => simp
  | cons b rest ih =>
    rw [innerWords_cons] at h
    split at h
    · rename_i hb
      rw [List.foldl_cons, takeByte, if_pos hb, ih h]
      simp
    · cases h

theorem mem_innerWords {b : UInt8} (h : b ∈ innerWords text) : b = 32 ∨ b ∈ text := by
  fun_induction innerWords text with
  | case1 => cases h
  | case2 _ rest _ ih => exact (ih h).imp_right (List.mem_cons_of_mem _)
  | case3 _ rest _ more ih =>
    rcases List.mem_cons.1 h with rfl | h
    · exact .inr List.mem_cons_self
    · split at h
      · rcases List.mem_cons.1 h with rfl | h
        · exact .inl rfl
        · exact (ih h).imp_right (List.mem_cons_of_mem _)
      · exact (ih h).imp_right (List.mem_cons_of_mem _)

theorem filter_innerWords (text : Bytes) : (innerWords text).filter notSpace = text.filter notSpace := by
  fun_induction innerWords text with
  | case1 => rfl
  | case2 b rest hb ih => rw [ih, List.filter_cons_of_neg (by simpa [notSpace] using hb)]
  | case3 b rest hb more ih =>
    have hnext : (if startsBlank rest && !more.isEmpty then 32 :: more else more).filter
        notSpace = more.filter notSpace := by
      split
      · exact List.filter_cons_of_neg (by decide)
      · rfl
    have hkept : notSpace b = true := by simpa [notSpace] using hb
    rw [List.filter_cons_of_pos hkept, List.filter_cons_of_pos hkept, hnext, ih]

namespace IgnoreSpace

theorem squeeze_change (text : Bytes) :
    change.squeeze text = if innerWords text = [] ∧ text ≠ [] then [32] else innerWords text := by
  by_cases hwords : innerWords text = []
  · simp [squeeze, foldl_takeByte_of_innerWords hwords, hwords]
  · have hkept : (text.foldl takeByte ([], false)).1.reverse = innerWords text := by
      rw [reverse_foldl_takeByte]
      simp
    have hne : (text.foldl takeByte ([], false)).1 ≠ [] := by
      rwa [← hkept, List.reverse_eq_nil_iff] at hwords
    simp [squeeze, hkept, hne, hwords]

theorem squeeze_all (text : Bytes) : all.squeeze text = text.filter notSpace := rfl

theorem squeeze_isPlain (h : IsPlainText text) (space : IgnoreSpace) :
    IsPlainText (space.squeeze text) := by
  cases space with
  | none => exact h
  | change =>
    rw [squeeze_change]
    split
    · exact isPlainText_cons.2 ⟨by decide, isPlainText_nil⟩
    · intro b hb
      rcases mem_innerWords hb with rfl | hb
      · decide
      · exact h b hb
  | all => exact fun b hb => h b (List.mem_of_mem_filter hb)

theorem squeeze_all_change (text : Bytes) : all.squeeze (change.squeeze text) = all.squeeze text := by
  rw [squeeze_all, squeeze_all, squeeze_change]
  split
  · rename_i hblank
    rw [← filter_innerWords text, hblank.1]
    rfl
  · exact filter_innerWords text

def rank : IgnoreSpace → Nat
  | none => 0
  | change => 1
  | all => 2

theorem squeeze_eq_of_rank_le {space space' : IgnoreSpace} (hle : space.rank ≤ space'.rank)
    (h : space.squeeze text = space.squeeze text') : space'.squeeze text = space'.squeeze text' := by
  cases space with
  | none => exact congrArg space'.squeeze h
  | change =>
    cases space' with
    | none => simp [rank] at hle
    | change => exact h
    | all => rw [← squeeze_all_change, h, squeeze_all_change]
  | all =>
    cases space' with
    | none => simp [rank] at hle
    | change => simp [rank] at hle
    | all => exact h

end IgnoreSpace

namespace Line

def counted (o : Options) (l : Line) : Line where
  text := o.ignoreSpace.squeeze l.text
  ending := if o.ignoreEolStyle then none else l.ending

theorem counted_eq_self (hspace : o.ignoreSpace = .none) (heol : o.ignoreEolStyle = false) (l : Line) :
    l.counted o = l := by
  simp [counted, hspace, heol, IgnoreSpace.squeeze]

theorem key_eq_counted (o : Options) (l : Line) : l.key o = (l.counted o).bytes := by
  unfold key counted bytes
  split <;> rfl

theorem key_eq_iff {l l' : Line} (h : IsPlainText l.text) (h' : IsPlainText l'.text) :
    l.key o = l'.key o ↔ l.counted o = l'.counted o := by
  rw [key_eq_counted, key_eq_counted]
  exact ⟨eq_of_bytes (IgnoreSpace.squeeze_isPlain h _) (IgnoreSpace.squeeze_isPlain h' _),
    congrArg bytes⟩

end Line

structure Options.IgnoresAtMost (o o' : Options) : Prop where
  space : o.ignoreSpace.rank ≤ o'.ignoreSpace.rank
  ending : o.ignoreEolStyle = true → o'.ignoreEolStyle = true

theorem Line.counted_eq_of_ignoresAtMost (hle : o.IgnoresAtMost o') {l l' : Line}
    (h : l.counted o = l'.counted o) : l.counted o' = l'.counted o' := by
  obtain ⟨htext, hending⟩ := Line.mk.inj h
  unfold counted
  rw [IgnoreSpace.squeeze_eq_of_rank_le hle.space htext]
  split
  · rfl
  · rename_i hlooks
    have hlooked : ¬ o.ignoreEolStyle = true := fun hignored => hlooks (hle.ending hignored)
    rw [if_neg hlooked, if_neg hlooked] at hending
    rw [hending]

theorem sameKeys_iff {ls ls' : List Line} (h : ∀ l ∈ ls, IsPlainText l.text)
    (h' : ∀ l ∈ ls', IsPlainText l.text) :
    SameKeys o ls ls' ↔ List.Forall₂ (fun l l' => l.counted o = l'.counted o) ls ls' := by
  unfold SameKeys
  induction ls generalizing ls' with
  | nil => cases ls' <;> simp
  | cons l ls ih =>
    cases ls' with
    | nil => simp
    | cons l' ls' =>
      obtain ⟨hl, hls⟩ := List.forall_mem_cons.1 h
      obtain ⟨hl', hls'⟩ := List.forall_mem_cons.1 h'
      rw [List.map_cons, List.map_cons, List.cons.injEq, Line.key_eq_iff hl hl', ih hls hls',
        List.forall₂_cons]

theorem lineKeys_eq_of_ignoresAtMost (hle : o.IgnoresAtMost o') {old new : Bytes}
    (h : lineKeys o old = lineKeys o new) : lineKeys o' old = lineKeys o' new := by
  have hold := splitLines_isPlain old
  have hnew := splitLines_isPlain new
  have hcounted := (sameKeys_iff hold hnew).1 h
  exact (sameKeys_iff hold hnew).2 (hcounted.imp fun _ _ => Line.counted_eq_of_ignoresAtMost hle)

/-- What counts as no difference still does where more is ignored, and counting as no difference is
an equivalence of texts. -/
theorem diffLines_ignoringMore :
    (∀ {o o' : Options}, o.IgnoresAtMost o' → ∀ {old new : Bytes},
      (diffLines o old new).isEmpty = true → (diffLines o' old new).isEmpty = true) ∧
    ∀ o : Options, Equivalence fun old new => (diffLines o old new).isEmpty = true := by
  refine ⟨?_, fun o => ⟨?_, ?_, ?_⟩⟩
  · intro o o' hle old new h
    rw [diffLines_isEmpty_iff] at h ⊢
    exact lineKeys_eq_of_ignoresAtMost hle h
  · exact fun _ => diffLines_isEmpty_iff.2 rfl
  · exact fun h => diffLines_isEmpty_iff.2 (diffLines_isEmpty_iff.1 h).symm
  · exact fun h h' => diffLines_isEmpty_iff.2 ((diffLines_isEmpty_iff.1 h).trans (diffLines_isEmpty_iff.1 h'))

namespace Respaced

def someIgnored : Options := { Options.default with ignoreSpace := .change }

def moreIgnored : Options :=
  { Options.default with ignoreSpace := .all, ignoreEolStyle := true, contextLines := 0 }

def old : Bytes := [97, 9, 32, 98, 13, 10, 32, 10, 99]

def new : Bytes := [97, 32, 98, 32, 13, 10, 9, 9, 10, 32, 99]

end Respaced

open Respaced in
theorem diffLines_ignoringMore_respaced :
    someIgnored.IgnoresAtMost moreIgnored ∧ (diffLines someIgnored old new).isEmpty = true ∧
      (diffLines moreIgnored old new).isEmpty = true := by
  have hle : someIgnored.IgnoresAtMost moreIgnored := ⟨by decide, by decide⟩
  have hsome : (diffLines someIgnored old new).isEmpty = true := by decide
  exact ⟨hle, hsome, diffLines_ignoringMore.1 hle hsome⟩

end TreeDelta
