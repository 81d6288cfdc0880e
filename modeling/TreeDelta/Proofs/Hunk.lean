import TreeDelta.Proofs.HunkShape
set_option autoImplicit false

namespace TreeDelta

open TreeDelta.Alignment

variable {o : Options} {exact : Bool}

/-- Hunks that make the second list of the first one, `i` and `j` lines into the
texts. With `exact` their headers give the places. -/
inductive Patches (o : Options) (exact : Bool) :
    Nat → Nat → List Hunk → List Line → List Line → Prop
  | done {i j : Nat} {gap gap' : List Line} (h : SameKeys o gap gap') : Patches o exact i j [] gap gap'
  | hunk {i j : Nat} {hunk : Hunk} {hunks : List Hunk} {gap gap' os ns rest rest' : List Line}
      (h : SameKeys o gap gap') (hlines : Edits o hunk.lines os ns)
      (hat : exact = true → hunk.IsAt (i + gap.length) os.length (j + gap'.length) ns.length)
      (tail : Patches o exact (i + gap.length + os.length) (j + gap'.length + ns.length) hunks rest rest') :
    Patches o exact i j (hunk :: hunks) (gap ++ (os ++ rest)) (gap' ++ (ns ++ rest'))

theorem Excerpts.patches {i j : Nat} {hunks : List Hunk} {ls ls' : List Line}
    (h : Excerpts o exact i j hunks ls ls') : Patches o exact i j hunks ls ls' := by
  induction h with
  | done hgap => exact .done hgap
  | hunk hgap _ hlines _ _ _ hat _ ih => exact .hunk hgap hlines (fun hexact => hat (.inl hexact)) ih

theorem diffLines_patches_of_trace {old new : Bytes}
    (h : lineKeys o old ≠ lineKeys o new →
      BlockTrace exact (lineKeys o old) (lineKeys o new) 0 0 (align (lineKeys o old) (lineKeys o new))
        (lineKeys o old).length (lineKeys o new).length) :
    Patches o exact 0 0 (diffLines o old new).hunks (splitLines old) (splitLines new) :=
  (diffLines_excerpts_of_trace h).patches

theorem diffLines_hunks_eq_nil_iff {old new : Bytes} :
    (diffLines o old new).hunks = [] ↔ lineKeys o old = lineKeys o new := by
  constructor
  · intro hnil
    have hpatch : Patches o false 0 0 (diffLines o old new).hunks (splitLines old) (splitLines new) :=
      diffLines_patches_of_trace fun _ => align_trace _ _
    rw [hnil] at hpatch
    cases hpatch with
    | done h => exact h
  · intro hkeys
    rw [diffLines_eq, if_pos hkeys]

theorem diffLines_isEmpty_iff {old new : Bytes} :
    (diffLines o old new).isEmpty = true ↔ lineKeys o old = lineKeys o new := by
  rw [TextDiff.isEmpty, List.isEmpty_iff, diffLines_hunks_eq_nil_iff]

namespace Hunk

def oldSide (h : Hunk) : List Line := (h.lines.filter (·.mark != .added)).map HunkLine.line

def newSide (h : Hunk) : List Line := (h.lines.filter (·.mark != .deleted)).map HunkLine.line

end Hunk

/-- Puts the hunks into the lines that follow the first `i`. A hunk goes where its
header says, and its old side must stand there. -/
def applyHunks : Nat → List Hunk → List Line → Option (List Line)
  | _, [], ls => some ls
  | i, h :: hs, ls =>
    let gap := h.oldOffset - i
    if i ≤ h.oldOffset ∧ slice ls gap h.oldLen = h.oldSide then
      (applyHunks (i + gap + h.oldLen) hs (ls.drop (gap + h.oldLen))).map fun rest =>
        ls.take gap ++ (h.newSide ++ rest)
    else none

theorem Edits.oldSide_eq {h : Hunk} {os ns : List Line} (hlines : Edits o h.lines os ns) :
    h.oldSide = os := by
  unfold Hunk.oldSide
  generalize h.lines = ls at hlines
  induction hlines with
  | nil => rfl
  | context _ _ ih => exact congrArg _ ih
  | deleted _ ih => exact congrArg _ ih
  | added _ ih => exact ih

theorem Edits.newSide_sameKeys {h : Hunk} {os ns : List Line} (hlines : Edits o h.lines os ns) :
    SameKeys o h.newSide ns := by
  unfold Hunk.newSide
  generalize h.lines = ls at hlines
  induction hlines with
  | nil => rfl
  | context hkey _ ih => exact .cons hkey ih
  | deleted _ ih => exact ih
  | added _ ih => exact .cons rfl ih

theorem Patches.applyHunks {i j : Nat} {hunks : List Hunk} {ls ls' : List Line}
    (h : Patches o true i j hunks ls ls') :
    ∃ out, applyHunks i hunks ls = some out ∧ SameKeys o out ls' := by
  induction h with
  | done h => exact ⟨_, rfl, h⟩
  | @hunk i j hunk hunks gap gap' os ns rest rest' hgap hlines hat _ ih =>
    obtain ⟨out, hout, hkeys⟩ := ih
    have hplace := hat rfl
    have hoffset := hplace.oldOffset_eq
    have hlen := hplace.oldLen
    have hside := hlines.oldSide_eq
    refine ⟨gap ++ (hunk.newSide ++ out), ?_, ?_⟩
    · have hslice : slice (gap ++ (os ++ rest)) gap.length os.length = os := by simp [slice]
      have hrest : (gap ++ (os ++ rest)).drop (gap.length + os.length) = rest := by
        rw [← List.append_assoc, ← List.length_append, List.drop_left]
      rw [TreeDelta.applyHunks, hoffset, hlen, hside, Nat.add_sub_cancel_left, hslice, hrest, hout]
      simp
    · exact hgap.append (hlines.newSide_sameKeys.append hkeys)

theorem Line.key_eq_bytes (hspace : o.ignoreSpace = .none) (heol : o.ignoreEolStyle = false)
    (l : Line) : l.key o = l.bytes := by
  simp [Line.key, Line.bytes, hspace, heol, IgnoreSpace.squeeze]

theorem SameKeys.joinLines_eq (hspace : o.ignoreSpace = .none) (heol : o.ignoreEolStyle = false)
    {ls ls' : List Line} (h : SameKeys o ls ls') : joinLines ls = joinLines ls' := by
  have hkey : Line.key o = Line.bytes := funext (Line.key_eq_bytes hspace heol)
  rw [SameKeys, hkey] at h
  simpa [joinLines, List.flatMap] using congrArg List.flatten h

theorem diffLines_hunks_eq_nil_iff_eq (hspace : o.ignoreSpace = .none)
    (heol : o.ignoreEolStyle = false) {old new : Bytes} :
    (diffLines o old new).hunks = [] ↔ old = new := by
  rw [diffLines_hunks_eq_nil_iff]
  constructor
  · intro hkeys
    have hjoin := SameKeys.joinLines_eq (o := o) hspace heol hkeys
    rwa [joinLines_splitLines, joinLines_splitLines] at hjoin
  · intro h
    rw [h]

/-- The hunks are a patch from the old text to the new one. The places in their
headers are right as far as the alignment is an edit script without gaps. -/
theorem diffLines_patches (o : Options) (old new : Bytes) :
    Patches o false 0 0 (diffLines o old new).hunks (splitLines old) (splitLines new) ∧
    (AlignsExactly (lineKeys o old) (lineKeys o new) →
      Patches o true 0 0 (diffLines o old new).hunks (splitLines old) (splitLines new)) ∧
    (o.ignoreSpace = .none → o.ignoreEolStyle = false →
      (∀ l : Line, l.key o = l.bytes) ∧
      ((diffLines o old new).hunks = [] ↔ old = new) ∧
      (AlignsExactly (lineKeys o old) (lineKeys o new) →
        (applyHunks 0 (diffLines o old new).hunks (splitLines old)).map joinLines = some new)) := by
  have hplaced : AlignsExactly (lineKeys o old) (lineKeys o new) →
      Patches o true 0 0 (diffLines o old new).hunks (splitLines old) (splitLines new) :=
    fun halign => diffLines_patches_of_trace fun _ => halign.isEditScript
  refine ⟨diffLines_patches_of_trace fun _ => align_trace _ _, hplaced, ?_⟩
  intro hspace heol
  refine ⟨Line.key_eq_bytes hspace heol, diffLines_hunks_eq_nil_iff_eq hspace heol, ?_⟩
  intro halign
  obtain ⟨out, hout, hkeys⟩ := (hplaced halign).applyHunks
  rw [hout, Option.map_some, hkeys.joinLines_eq hspace heol, joinLines_splitLines]

theorem diffLines_patches_lastLine :
    let old : Bytes := [97, 10, 98, 10]
    let new : Bytes := [97, 10, 99]
    AlignsExactly (lineKeys .default old) (lineKeys .default new) ∧
      Patches .default true 0 0 (diffLines .default old new).hunks (splitLines old) (splitLines new) ∧
      (applyHunks 0 (diffLines .default old new).hunks (splitLines old)).map joinLines = some new := by
  intro old new
  have hold : lineKeys .default old = [[97, 10], [98, 10]] := by decide
  have hnew : lineKeys .default new = [[97, 10], [99]] := by decide
  have hagree : Agree (lineKeys .default old) (lineKeys .default new) 0 0 1 :=
    ⟨by decide, by decide, by decide⟩
  have hblocks : alignInOrder (lineKeys .default old) (lineKeys .default new) =
      [.same 0 0 1, .change 1 1 1 1] := by
    rw [hold, hnew]
    rfl
  have horder : (compare (lineKeys .default old) (lineKeys .default new)).isLE = true := by
    rw [hold, hnew]
    decide
  have halign : AlignsExactly (lineKeys .default old) (lineKeys .default new) := by
    rw [AlignsExactly, if_pos horder, hblocks]
    exact .same hagree (.change (by decide) (by decide) (fun _ => rfl) (fun _ => rfl) (.nil _ _))
  have hpatch := diffLines_patches .default old new
  exact ⟨halign, hpatch.2.1 halign, (hpatch.2.2 rfl rfl).2.2 halign⟩

end TreeDelta
