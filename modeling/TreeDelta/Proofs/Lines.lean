import Mathlib.Data.List.Chain
import TreeDelta.Line
set_option autoImplicit false

namespace TreeDelta

def IsPlainText (text : Bytes) : Prop := ∀ b ∈ text, b ≠ 10 ∧ b ≠ 13

instance (text : Bytes) : Decidable (IsPlainText text) :=
  inferInstanceAs (Decidable (∀ b ∈ text, b ≠ 10 ∧ b ≠ 13))

theorem isPlainText_nil : IsPlainText [] := by simp [IsPlainText]

theorem isPlainText_cons {b : UInt8} {text : Bytes} :
    IsPlainText (b :: text) ↔ (b ≠ 10 ∧ b ≠ 13) ∧ IsPlainText text := List.forall_mem_cons

theorem isPlainText_append {text text' : Bytes} :
    IsPlainText (text ++ text') ↔ IsPlainText text ∧ IsPlainText text' := List.forall_mem_append

theorem splitLines_cons {b : UInt8} (hlf : b ≠ 10) (hcr : b ≠ 13) (rest : Bytes) :
    splitLines (b :: rest) = prependByte b (splitLines rest) := by
  rw [splitLines]
  · exact hlf
  · exact fun _ h => absurd h hcr
  · exact hcr

theorem splitLines_isPlain (data : Bytes) : ∀ l ∈ splitLines data, IsPlainText l.text := by
  fun_induction splitLines data with
  | case1 => simp
  | case2 rest ih => exact List.forall_mem_cons.2 ⟨isPlainText_nil, ih⟩
  | case3 rest ih => exact List.forall_mem_cons.2 ⟨isPlainText_nil, ih⟩
  | case4 rest _ ih => exact List.forall_mem_cons.2 ⟨isPlainText_nil, ih⟩
  | case5 b rest hlf _ hcr ih =>
    generalize splitLines rest = ls at ih
    cases ls with
    | nil => exact List.forall_mem_singleton.2 (isPlainText_cons.2 ⟨⟨hlf, hcr⟩, isPlainText_nil⟩)
    | cons l ls =>
      have hl := List.forall_mem_cons.1 ih
      exact List.forall_mem_cons.2 ⟨isPlainText_cons.2 ⟨⟨hlf, hcr⟩, hl.1⟩, hl.2⟩

variable {text : Bytes}

theorem splitLines_of_isPlain (h : IsPlainText text) (hne : text ≠ []) :
    splitLines text = [⟨text, none⟩] := by
  induction text with
  | nil => exact absurd rfl hne
  | cons b text ih =>
    obtain ⟨⟨hlf, hcr⟩, htext⟩ := isPlainText_cons.1 h
    rw [splitLines_cons hlf hcr]
    by_cases hnil : text = []
    · rw [hnil]
      rfl
    · rw [ih htext hnil]
      rfl

theorem splitLines_append_ended (h : IsPlainText text) {ending : LineEnding} {rest : Bytes}
    (hnext : ending = .cr → rest.head? ≠ some 10) :
    splitLines (text ++ (ending.bytes ++ rest)) = ⟨text, some ending⟩ :: splitLines rest := by
  induction text with
  | nil =>
    cases ending with
    | lf => rfl
    | crlf => rfl
    | cr =>
      refine splitLines.eq_4 rest ?_
      rintro rest' rfl
      exact hnext rfl rfl
  | cons b text ih =>
    obtain ⟨⟨hlf, hcr⟩, htext⟩ := isPlainText_cons.1 h
    rw [List.cons_append, splitLines_cons hlf hcr, ih htext]
    rfl

theorem Line.bytes_eq_nil_iff {l : Line} : l.bytes = [] ↔ l = ⟨[], none⟩ := by
  obtain ⟨text, ending⟩ := l
  rcases ending with _ | (_ | _ | _) <;> simp [Line.bytes, LineEnding.bytes]

/-- Only the line of no bytes at all is not read back. -/
theorem splitLines_bytes {l : Line} (h : IsPlainText l.text) :
    splitLines l.bytes = if l.bytes = [] then [] else [l] := by
  split
  · rename_i hnil
    rw [hnil]
    rfl
  · rename_i hne
    obtain ⟨text, ending⟩ := l
    cases ending with
    | none =>
      have hbytes : Line.bytes ⟨text, none⟩ = text := List.append_nil text
      rw [hbytes] at hne ⊢
      exact splitLines_of_isPlain h hne
    | some ending =>
      have hread : splitLines (text ++ (ending.bytes ++ [])) = [⟨text, some ending⟩] :=
        splitLines_append_ended h fun _ => by simp
      rwa [List.append_nil] at hread

theorem Line.eq_of_bytes {l l' : Line} (h : IsPlainText l.text) (h' : IsPlainText l'.text)
    (hbytes : l.bytes = l'.bytes) : l = l' := by
  by_cases hnil : l.bytes = []
  · rw [bytes_eq_nil_iff.1 hnil, bytes_eq_nil_iff.1 (hbytes.symm.trans hnil)]
  · have hread := splitLines_bytes h
    rw [if_neg hnil, hbytes, splitLines_bytes h', if_neg (hbytes ▸ hnil)] at hread
    exact (List.singleton_inj.1 hread).symm

/-- The first line is ended, and its terminator is not read together with the second line. -/
structure Line.Precedes (l l' : Line) : Prop where
  ended : l.ending ≠ none
  apart : l.ending = some .cr → l'.text = [] → l'.ending ≠ some .lf

theorem head?_bytes_append {l : Line} (h : IsPlainText l.text) (hne : l ≠ ⟨[], none⟩) (rest : Bytes) :
    (l.bytes ++ rest).head? = some 10 ↔ l.text = [] ∧ l.ending = some .lf := by
  obtain ⟨text, ending⟩ := l
  cases text with
  | nil => rcases ending with _ | (_ | _ | _) <;> simp [Line.bytes, LineEnding.bytes] at hne ⊢
  | cons b text => simpa [Line.bytes] using (h b List.mem_cons_self).1

theorem splitLines_joinLines {ls : List Line} (hplain : ∀ l ∈ ls, IsPlainText l.text)
    (hchain : ls.IsChain Line.Precedes) (hne : ⟨[], none⟩ ∉ ls) : splitLines (joinLines ls) = ls := by
  induction ls with
  | nil => rfl
  | cons l ls ih =>
    obtain ⟨hl, hls⟩ := List.forall_mem_cons.1 hplain
    obtain ⟨hlne, hlsne⟩ := List.ne_and_not_mem_of_not_mem_cons hne
    cases ls with
    | nil =>
      have hjoin : joinLines [l] = l.bytes := by simp [joinLines]
      rw [hjoin, splitLines_bytes hl, if_neg fun hnil => hlne (Line.bytes_eq_nil_iff.1 hnil).symm]
    | cons l' ls =>
      obtain ⟨hprecedes, hchain⟩ := List.isChain_cons_cons.1 hchain
      obtain ⟨ending, hending⟩ := Option.ne_none_iff_exists'.1 hprecedes.ended
      -- What follows starts with LF only if the next line is blank.
      have hnext : ending = .cr → (joinLines (l' :: ls)).head? ≠ some 10 := by
        rintro rfl hhead
        have hblank := (head?_bytes_append (hls l' List.mem_cons_self)
          (fun h => hlsne (h ▸ List.mem_cons_self)) (joinLines ls)).1 hhead
        exact hprecedes.apart hending hblank.1 hblank.2
      have hjoin : joinLines (l :: l' :: ls) = l.text ++ (ending.bytes ++ joinLines (l' :: ls)) := by
        simp [joinLines, Line.bytes, hending]
      rw [hjoin, splitLines_append_ended hl hnext, ih hls hchain hlsne, ← hending]

end TreeDelta
