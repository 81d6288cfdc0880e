import TreeDelta.EolStyle
import TreeDelta.Proofs.Lines
set_option autoImplicit false

namespace TreeDelta

structure IsLineList (ls : List Line) : Prop where
  plain : ∀ l ∈ ls, IsPlainText l.text
  ended : ∀ l ∈ ls.dropLast, l.ending ≠ none
  nonempty : ∀ l ∈ ls, l.ending = none → l.text ≠ []
  /-- CR and LF next to each other are one terminator. -/
  apart : ls.IsChain fun l l' => ¬(l.ending = some .cr ∧ l'.text = [] ∧ l'.ending = some .lf)

/-- Without `apart` the same bytes could be cut in two ways. -/
example : joinLines [⟨[], some .cr⟩, ⟨[], some .lf⟩] = joinLines [⟨[], some .crlf⟩] := rfl

theorem isLineList_nil : IsLineList [] := ⟨by simp, by simp, by simp, .nil⟩

theorem forall_mem_dropLast_cons {α : Type} {p : α → Prop} {a : α} {l : List α} :
    (∀ x ∈ (a :: l).dropLast, p x) ↔ (l ≠ [] → p a) ∧ ∀ x ∈ l.dropLast, p x := by
  cases l <;> simp

theorem isLineList_cons {l : Line} {ls : List Line} :
    IsLineList (l :: ls) ↔ IsPlainText l.text ∧ (l.ending = none → l.text ≠ [] ∧ ls = []) ∧
      (l.ending = some .cr → ls.head? ≠ some ⟨[], some .lf⟩) ∧ IsLineList ls := by
  have hhead : (∀ l' ∈ ls.head?, ¬(l.ending = some .cr ∧ l'.text = [] ∧ l'.ending = some .lf)) ↔
      (l.ending = some .cr → ls.head? ≠ some ⟨[], some .lf⟩) := by
    cases ls with
    | nil => simp
    | cons l' ls =>
      obtain ⟨text, ending⟩ := l'
      simp
  constructor
  · rintro ⟨hplain, hended, hnonempty, hapart⟩
    obtain ⟨hl, hplain⟩ := List.forall_mem_cons.1 hplain
    obtain ⟨hlended, hended⟩ := forall_mem_dropLast_cons.1 hended
    obtain ⟨hlnonempty, hnonempty⟩ := List.forall_mem_cons.1 hnonempty
    obtain ⟨hnext, hapart⟩ := List.isChain_cons.1 hapart
    refine ⟨hl, fun hnone => ⟨hlnonempty hnone, ?_⟩, hhead.1 hnext, hplain, hended, hnonempty, hapart⟩
    by_contra hls
    exact hlended hls hnone
  · rintro ⟨hl, hlast, hnext, hplain, hended, hnonempty, hapart⟩
    constructor
    · exact List.forall_mem_cons.2 ⟨hl, hplain⟩
    · exact forall_mem_dropLast_cons.2 ⟨fun hls hnone => hls (hlast hnone).2, hended⟩
    · exact List.forall_mem_cons.2 ⟨fun hnone => (hlast hnone).1, hnonempty⟩
    · exact List.isChain_cons.2 ⟨hhead.2 hnext, hapart⟩

variable {ls : List Line}

theorem IsLineList.prependByte (h : IsLineList ls) {b : UInt8} (hb : b ≠ 10 ∧ b ≠ 13) :
    IsLineList (prependByte b ls) := by
  cases ls with
  | nil =>
    refine isLineList_cons.2 ⟨isPlainText_cons.2 ⟨hb, isPlainText_nil⟩, ?_, ?_, isLineList_nil⟩
    · exact fun _ => ⟨List.cons_ne_nil _ _, rfl⟩
    · exact fun hcr => nomatch hcr
  | cons l ls =>
    obtain ⟨hl, hended, hnext, hls⟩ := isLineList_cons.1 h
    refine isLineList_cons.2 ⟨isPlainText_cons.2 ⟨hb, hl⟩, ?_, hnext, hls⟩
    exact fun hnone => ⟨List.cons_ne_nil _ _, (hended hnone).2⟩

theorem IsLineList.blank (h : IsLineList ls) {ending : LineEnding}
    (hnext : ending = .cr → ls.head? ≠ some ⟨[], some .lf⟩) : IsLineList (⟨[], some ending⟩ :: ls) := by
  refine isLineList_cons.2 ⟨isPlainText_nil, ?_, ?_, h⟩
  · exact fun hnone => nomatch hnone
  · exact fun hcr => hnext (Option.some.inj hcr)

theorem head?_splitLines_ne {data : Bytes} (h : data.head? ≠ some 10) :
    (splitLines data).head? ≠ some ⟨[], some .lf⟩ := by
  intro hhead
  obtain ⟨ls, hls⟩ := List.head?_eq_some_iff.1 hhead
  have hdata := joinLines_splitLines data
  rw [hls] at hdata
  refine h ?_
  rw [← hdata]
  rfl

theorem splitLines_isLineList (data : Bytes) : IsLineList (splitLines data) := by
  fun_induction splitLines data with
  | case1 => exact isLineList_nil
  | case2 rest ih => exact ih.blank (absurd · (by decide))
  | case3 rest ih => exact ih.blank (absurd · (by decide))
  | case4 rest hrest ih =>
    -- A lone CR was read, so what follows does not start with LF.
    refine ih.blank fun _ => head?_splitLines_ne ?_
    intro hhead
    obtain ⟨rest', rfl⟩ := List.head?_eq_some_iff.1 hhead
    exact hrest rest' rfl
  | case5 b rest hlf _ hcr ih => exact ih.prependByte ⟨hlf, hcr⟩

theorem IsLineList.precedes (h : IsLineList ls) : ls.IsChain Line.Precedes := by
  induction ls with
  | nil => exact .nil
  | cons l ls ih =>
    obtain ⟨-, hended, hnext, hls⟩ := isLineList_cons.1 h
    refine List.isChain_cons.2 ⟨fun l' hl' => ⟨fun hnone => ?_, fun hcr htext hlf => hnext hcr ?_⟩, ih hls⟩
    · rw [(hended hnone).2] at hl'
      cases hl'
    · obtain ⟨text, ending⟩ := l'
      obtain rfl : text = [] := htext
      obtain rfl : ending = some .lf := hlf
      exact hl'

theorem IsLineList.splitLines_joinLines (h : IsLineList ls) : splitLines (joinLines ls) = ls :=
  TreeDelta.splitLines_joinLines h.plain h.precedes fun hmem => h.nonempty _ hmem rfl rfl

/-- The lines that are read are the only ones that the text can be cut into. -/
theorem eq_splitLines_iff {data : Bytes} {ls : List Line} :
    ls = splitLines data ↔ IsLineList ls ∧ joinLines ls = data := by
  constructor
  · rintro rfl
    exact ⟨splitLines_isLineList data, joinLines_splitLines data⟩
  · rintro ⟨hls, rfl⟩
    exact hls.splitLines_joinLines.symm

theorem IsLineList.map_apply (h : IsLineList ls) (style : EolStyle) : IsLineList (ls.map style.apply) := by
  induction ls with
  | nil => exact isLineList_nil
  | cons l ls ih =>
    obtain ⟨hl, hended, -, hls⟩ := isLineList_cons.1 h
    refine isLineList_cons.2 ⟨hl, fun hnone => ?_, fun hcr => ?_, ih hls⟩
    · obtain ⟨htext, hnil⟩ := hended (Option.map_eq_none_iff.1 hnone)
      exact ⟨htext, List.map_eq_nil_iff.2 hnil⟩
    · intro hhead
      obtain ⟨_, -, hcr⟩ := Option.map_eq_some_iff.1 hcr
      rw [List.head?_map] at hhead
      obtain ⟨l', -, hl'⟩ := Option.map_eq_some_iff.1 hhead
      obtain ⟨_, -, hlf⟩ := Option.map_eq_some_iff.1 (congrArg Line.ending hl')
      exact absurd (hcr.symm.trans hlf) (by decide)

theorem EolStyle.apply_apply (style style' : EolStyle) (l : Line) :
    style'.apply (style.apply l) = style'.apply l := by
  simp [apply, Option.map_map, Function.comp_def]

/-- A converted text has the lines of the text, the ended ones with the terminator of the style. What
it was converted to before does not matter. -/
theorem convert_lines (style : EolStyle) (data : Bytes) :
    splitLines (style.convert data) =
        (splitLines data).map (fun l => ⟨l.text, l.ending.map fun _ => style.ending⟩) ∧
      ∀ style' : EolStyle, style'.convert (style.convert data) = style'.convert data := by
  have hlines : splitLines (style.convert data) = (splitLines data).map style.apply :=
    ((splitLines_isLineList data).map_apply style).splitLines_joinLines
  refine ⟨hlines, fun style' => ?_⟩
  calc
    style'.convert (style.convert data)
      = joinLines (((splitLines data).map style.apply).map style'.apply) := by rw [EolStyle.convert, hlines]
    _ = joinLines ((splitLines data).map style'.apply) := by
      rw [List.map_map]
      exact congrArg joinLines (List.map_congr_left fun l _ => EolStyle.apply_apply style style' l)
    _ = style'.convert data := rfl

end TreeDelta
