import Mathlib.Data.List.DropRight
import Mathlib.Data.List.SplitBy
import TreeDelta.Proofs.LineKey
set_option autoImplicit false

/-!
# Runs of white space as one space

Where runs of white space count as one space, the rule one would expect is that a text counts with
its runs shortened and the last one left out (`normalSpaced`). The key of a line leaves out the first
run as well, and keeps a space for a text of nothing but white space. `diffLines_spaceRuns` says which
lines are the same by their keys and where that is what the rule says.
-/
namespace TreeDelta

variable {o : Options} {b c : UInt8} {rest text : Bytes}

def singleSpaced (text : Bytes) : Bytes :=
  (text.splitBy fun b c => isSpaceByte b && isSpaceByte c).flatMap fun run =>
    if run.all isSpaceByte then [32] else run

def normalSpaced (text : Bytes) : Bytes := (singleSpaced text).rdropWhile isSpaceByte

theorem all_of_isChain {run : Bytes}
    (h : (b :: run).IsChain fun b c => (isSpaceByte b && isSpaceByte c) = true)
    (hb : isSpaceByte b = true) : (b :: run).all isSpaceByte = true := by
  induction run generalizing b with
  | nil => simpa using hb
  | cons c run ih =>
    obtain ⟨hbc, hrun⟩ := List.isChain_cons_cons.1 h
    rw [Bool.and_eq_true] at hbc
    rw [List.all_cons, hb, ih hrun hbc.2]
    rfl

theorem singleSpaced_cons_of_apart (hapart : (isSpaceByte b && startsBlank rest) = false) :
    singleSpaced (b :: rest) = (if isSpaceByte b then 32 else b) :: singleSpaced rest := by
  have hsplit : (b :: rest).splitBy (fun b c => isSpaceByte b && isSpaceByte c) =
      [b] :: rest.splitBy fun b c => isSpaceByte b && isSpaceByte c := by
    refine List.splitBy_append (l := [b]) ?_
    intro x hx y hy
    obtain rfl : b = x := by simpa using hx
    rw [Option.mem_def] at hy
    simpa [startsBlank, hy] using hapart
  rw [singleSpaced, hsplit, List.flatMap_cons]
  cases hb : isSpaceByte b <;> simp [hb, singleSpaced]

theorem singleSpaced_cons_of_run (hb : isSpaceByte b = true) (hrest : startsBlank rest = true) :
    singleSpaced (b :: rest) = singleSpaced rest := by
  have hne : rest ≠ [] := by
    rintro rfl
    cases hrest
  obtain ⟨run, runs, hruns⟩ := List.exists_cons_of_ne_nil
    (List.splitBy_ne_nil (r := fun b c => isSpaceByte b && isSpaceByte c).2 hne)
  obtain ⟨hflatten, hnonempty, hchain, hapart⟩ := List.splitBy_eq_iff.1 hruns
  obtain ⟨c, run, rfl⟩ := List.exists_cons_of_ne_nil (fun h => hnonempty (h ▸ List.mem_cons_self))
  rw [List.flatten_cons, List.cons_append] at hflatten
  have hc : isSpaceByte c = true := by
    rw [hflatten] at hrest
    exact hrest
  have hlonger : (b :: rest).splitBy (fun b c => isSpaceByte b && isSpaceByte c) =
      (b :: c :: run) :: runs := by
    refine List.splitBy_eq_iff.2 ⟨?_, ?_, ?_, ?_⟩
    · rw [hflatten]
      rfl
    · simpa using hnonempty
    · obtain ⟨hrun, hruns⟩ := List.forall_mem_cons.1 hchain
      refine List.forall_mem_cons.2 ⟨List.isChain_cons_cons.2 ⟨?_, hrun⟩, hruns⟩
      rw [hb, hc]
      rfl
    · cases runs with
      | nil => exact List.isChain_singleton _
      | cons run' runs =>
        obtain ⟨⟨_, hne', hbreak⟩, htail⟩ := List.isChain_cons_cons.1 hapart
        exact List.isChain_cons_cons.2 ⟨⟨List.cons_ne_nil _ _, hne', hbreak⟩, htail⟩
  have hall := all_of_isChain (hchain _ List.mem_cons_self) hc
  rw [singleSpaced, singleSpaced, hlonger, hruns, List.flatMap_cons, List.flatMap_cons, hall,
    List.all_cons, hb, hall]
  rfl

theorem singleSpaced_cons (b : UInt8) (rest : Bytes) :
    singleSpaced (b :: rest) =
      if isSpaceByte b && startsBlank rest then singleSpaced rest
      else (if isSpaceByte b then 32 else b) :: singleSpaced rest := by
  split
  · rename_i hrun
    rw [Bool.and_eq_true] at hrun
    exact singleSpaced_cons_of_run hrun.1 hrun.2
  · rename_i hapart
    exact singleSpaced_cons_of_apart (by simpa using hapart)

theorem rdropWhile_cons {α : Type} (p : α → Bool) (x : α) (xs : List α) :
    (x :: xs).rdropWhile p =
      if xs.rdropWhile p = [] ∧ p x = true then [] else x :: xs.rdropWhile p := by
  rw [List.rdropWhile, List.rdropWhile, List.reverse_cons, List.dropWhile_append]
  cases hxs : xs.reverse.dropWhile p with
  | nil => cases hx : p x <;> simp [hx]
  | cons y ys => simp

theorem startsBlank_innerWords (text : Bytes) : startsBlank (innerWords text) = false := by
  induction text with
  | nil => rfl
  | cons b rest ih =>
    rw [innerWords_cons]
    split
    · exact ih
    · rw [startsBlank_cons]
      exact Bool.eq_false_iff.2 ‹_›

theorem dropWhile_innerWords (text : Bytes) :
    (innerWords text).dropWhile isSpaceByte = innerWords text := by
  have hstart := startsBlank_innerWords text
  cases h : innerWords text with
  | nil => rfl
  | cons b rest =>
    rw [h, startsBlank_cons] at hstart
    exact List.dropWhile_cons_of_neg (by simp [hstart])

theorem startsBlank_of_innerWords (h : innerWords text = []) : startsBlank text = !text.isEmpty := by
  cases text with
  | nil => rfl
  | cons b rest =>
    rw [innerWords_cons] at h
    split at h
    · rename_i hb
      rw [startsBlank_cons, hb]
      rfl
    · cases h

/-- White space in front of the first word is one space, and what is left of a text of nothing
else is nothing. -/
theorem normalSpaced_eq (text : Bytes) :
    normalSpaced text =
      if startsBlank text && !(innerWords text).isEmpty then 32 :: innerWords text
      else innerWords text := by
  unfold normalSpaced
  induction text with
  | nil => rfl
  | cons b rest ih =>
    rw [singleSpaced_cons, innerWords_cons, startsBlank_cons]
    cases hb : isSpaceByte b with
    | false => simp [rdropWhile_cons, hb, ih]
    | true =>
      cases hrest : startsBlank rest with
      | true => simpa [hrest] using ih
      | false =>
        have hspace : isSpaceByte 32 = true := rfl
        have hwords : (singleSpaced rest).rdropWhile isSpaceByte = innerWords rest := by
          simpa [hrest] using ih
        -- The space in front stays only if something is left behind it.
        by_cases hnone : innerWords rest = []
        · simp [rdropWhile_cons, hspace, hwords, hnone]
        · simp [rdropWhile_cons, hwords, hnone]

theorem dropWhile_normalSpaced (text : Bytes) :
    (normalSpaced text).dropWhile isSpaceByte = innerWords text := by
  rw [normalSpaced_eq]
  split
  · rw [List.dropWhile_cons_of_pos (by rfl), dropWhile_innerWords]
  · exact dropWhile_innerWords text

theorem startsBlank_normalSpaced (text : Bytes) :
    startsBlank (normalSpaced text) = (startsBlank text && !(innerWords text).isEmpty) := by
  rw [normalSpaced_eq]
  split
  · rename_i hlead
    rw [startsBlank_cons, hlead]
    rfl
  · rename_i hlead
    rw [startsBlank_innerWords, Bool.eq_false_iff.2 hlead]

theorem normalSpaced_eq_iff {a b : Bytes} :
    normalSpaced a = normalSpaced b ↔
      innerWords a = innerWords b ∧ (innerWords a ≠ [] → startsBlank a = startsBlank b) := by
  constructor
  · intro h
    have hwords : innerWords a = innerWords b := by
      rw [← dropWhile_normalSpaced, h, dropWhile_normalSpaced]
    refine ⟨hwords, fun hne => ?_⟩
    have hstart := startsBlank_normalSpaced a
    rw [h, startsBlank_normalSpaced, ← hwords, List.isEmpty_eq_false_iff.2 hne] at hstart
    simpa using hstart.symm
  · rintro ⟨hwords, hstart⟩
    rw [normalSpaced_eq, normalSpaced_eq, ← hwords]
    by_cases hne : innerWords a = []
    · simp [hne]
    · rw [hstart hne]

namespace IgnoreSpace

theorem dropWhile_squeeze_change (text : Bytes) :
    (change.squeeze text).dropWhile isSpaceByte = innerWords text := by
  rw [squeeze_change]
  split
  · rename_i hblank
    rw [hblank.1]
    rfl
  · exact dropWhile_innerWords text

theorem squeeze_change_eq_nil_iff : change.squeeze text = [] ↔ text = [] := by
  rw [squeeze_change]
  constructor
  · intro h
    split at h
    · cases h
    · rename_i hblank
      exact not_not.1 fun hne => hblank ⟨h, hne⟩
  · rintro rfl
    rfl

theorem squeeze_change_eq_iff {a b : Bytes} :
    change.squeeze a = change.squeeze b ↔ innerWords a = innerWords b ∧ (a = [] ↔ b = []) := by
  constructor
  · intro h
    refine ⟨?_, ?_⟩
    · rw [← dropWhile_squeeze_change, h, dropWhile_squeeze_change]
    · rw [← squeeze_change_eq_nil_iff, h, squeeze_change_eq_nil_iff]
  · rintro ⟨hwords, hempty⟩
    simp only [squeeze_change, hwords, ne_eq, hempty]

end IgnoreSpace

variable {a b : Bytes} {ending : Option LineEnding}

theorem lineKeys_line {l : Line} (h : IsPlainText l.text) :
    lineKeys o l.bytes = if l.bytes = [] then [] else [l.key o] := by
  rw [lineKeys, splitLines_bytes h]
  split <;> rfl

theorem key_eq_iff_squeeze (ha : IsPlainText a) (hb : IsPlainText b) :
    Line.key o ⟨a, ending⟩ = Line.key o ⟨b, ending⟩ ↔
      o.ignoreSpace.squeeze a = o.ignoreSpace.squeeze b := by
  rw [Line.key_eq_iff ha hb, Line.counted, Line.counted, Line.mk.injEq, and_iff_left rfl]

theorem diffLines_line_isEmpty_iff (hspace : o.ignoreSpace = .change) (ha : IsPlainText a)
    (hb : IsPlainText b) :
    (diffLines o (Line.bytes ⟨a, ending⟩) (Line.bytes ⟨b, ending⟩)).isEmpty = true ↔
      innerWords a = innerWords b ∧ (a = [] ↔ b = []) := by
  have hkey : Line.key o ⟨a, ending⟩ = Line.key o ⟨b, ending⟩ ↔
      IgnoreSpace.change.squeeze a = IgnoreSpace.change.squeeze b :=
    hspace ▸ key_eq_iff_squeeze ha hb
  rw [diffLines_isEmpty_iff, lineKeys_line ha, lineKeys_line hb, ← IgnoreSpace.squeeze_change_eq_iff]
  constructor
  · intro h
    split at h <;> split at h
    · rename_i hnil hnil'
      rw [(Line.mk.inj (Line.bytes_eq_nil_iff.1 hnil)).1, (Line.mk.inj (Line.bytes_eq_nil_iff.1 hnil')).1]
    · cases h
    · cases h
    · exact hkey.1 (List.singleton_inj.1 h)
  · intro h
    have hempty : a = [] ↔ b = [] := (IgnoreSpace.squeeze_change_eq_iff.1 h).2
    simp only [Line.bytes_eq_nil_iff, Line.mk.injEq, hempty, hkey.2 h]

/-- Two lines with one terminator count as the same exactly if their texts are equal once every run
of white space is one space and none is left at either end, and both are empty or neither is. That
is equality with white space left out at the end only, unless the texts have the same words and only
one of them starts with white space. -/
theorem diffLines_spaceRuns (hspace : o.ignoreSpace = .change) (ha : IsPlainText a) (hb : IsPlainText b) :
    ((diffLines o (Line.bytes ⟨a, ending⟩) (Line.bytes ⟨b, ending⟩)).isEmpty = true ↔
      (normalSpaced a).dropWhile isSpaceByte = (normalSpaced b).dropWhile isSpaceByte ∧
        (a = [] ↔ b = [])) ∧
    (((diffLines o (Line.bytes ⟨a, ending⟩) (Line.bytes ⟨b, ending⟩)).isEmpty = true ↔
        normalSpaced a = normalSpaced b) ↔
      ((normalSpaced a).dropWhile isSpaceByte = (normalSpaced b).dropWhile isSpaceByte →
        startsBlank a = startsBlank b)) := by
  rw [diffLines_line_isEmpty_iff hspace ha hb, dropWhile_normalSpaced, dropWhile_normalSpaced,
    normalSpaced_eq_iff]
  refine ⟨Iff.rfl, ?_⟩
  by_cases hwords : innerWords a = innerWords b
  · rw [and_iff_right hwords, and_iff_right hwords, imp_iff_right hwords]
    by_cases hblank : innerWords a = []
    · have hstart : (a = [] ↔ b = []) ↔ startsBlank a = startsBlank b := by
        rw [startsBlank_of_innerWords hblank, startsBlank_of_innerWords (hwords ▸ hblank)]
        cases a <;> cases b <;> simp
      rw [hstart]
      simp [hblank]
    · have hempty : a = [] ↔ b = [] := by
        refine ⟨?_, ?_⟩
        · rintro rfl
          exact absurd rfl hblank
        · rintro rfl
          exact absurd hwords hblank
      rw [iff_true_left hempty, imp_iff_right hblank]
  · simp [hwords]

namespace SpacedLines

def options : Options := { Options.default with ignoreSpace := .change }

end SpacedLines

open SpacedLines in
theorem diffLines_spaceRuns_twoWords :
    IsPlainText [32, 9, 97, 32, 32, 98, 32] ∧ IsPlainText [12, 97, 32, 98] ∧
      normalSpaced [32, 9, 97, 32, 32, 98, 32] = normalSpaced [12, 97, 32, 98] ∧
      (diffLines options (Line.bytes ⟨[32, 9, 97, 32, 32, 98, 32], some .cr⟩)
        (Line.bytes ⟨[12, 97, 32, 98], some .cr⟩)).isEmpty = true := by
  have hplain : IsPlainText [32, 9, 97, 32, 32, 98, 32] := by decide +kernel
  have hplain' : IsPlainText [12, 97, 32, 98] := by decide +kernel
  have hrule : normalSpaced [32, 9, 97, 32, 32, 98, 32] = normalSpaced [12, 97, 32, 98] := by decide
  have hstart : startsBlank [32, 9, 97, 32, 32, 98, 32] = startsBlank [12, 97, 32, 98] := rfl
  exact ⟨hplain, hplain', hrule,
    ((diffLines_spaceRuns (o := options) rfl hplain hplain').2.2 fun _ => hstart).2 hrule⟩

open SpacedLines in
/-- White space before the first word is left out like that after the last one, and a line of
nothing but white space differs from an empty one. -/
theorem diffLines_spaceRuns_ne_normalSpaced :
    (normalSpaced [32, 97] ≠ normalSpaced [97] ∧ (diffLines options [32, 97, 10] [97, 10]).isEmpty = true) ∧
      normalSpaced [32] = normalSpaced [] ∧ (diffLines options [32, 10] [10]).isEmpty = false := by
  decide

end TreeDelta
