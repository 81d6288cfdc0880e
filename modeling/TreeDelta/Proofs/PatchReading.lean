import Mathlib.Tactic.SplitIfs
import TreeDelta.Patch.Hunks
import TreeDelta.Proofs.Decimal
import TreeDelta.Proofs.Edits
import TreeDelta.Proofs.Lines
set_option autoImplicit false

/-!
# Hunks read back from a patch

A patch is read line by line from its end (`readHunks`): a header closes the hunk whose lines have
been read, and the note on a missing terminator belongs to the line before it. What is printed of
hunks is read as these hunks (`readHunks_hunks`) if headers, notes and lines of hunks are told apart
by how they start (`Legible`), so that two lists of hunks are never printed the same
(`hunks_injective`).
-/
namespace TreeDelta

theorem Bytes.text?_ofString (s : String) : Bytes.text? (Bytes.ofString s) = some s :=
  dif_pos s.isValidUTF8

theorem Bytes.ofString_eq (s : String) : Bytes.ofString s = s.toList.flatMap String.utf8EncodeChar := by
  have hencode : (String.ofList s.toList).toByteArray = s.toList.utf8Encode := String.toByteArray_ofList
  rw [String.ofList_toList] at hencode
  rw [ofString, String.toUTF8, hencode, List.utf8Encode, List.data_toByteArray]

theorem ofNat_isPlain {n : Nat} (hn : n < 256) (hlf : n ≠ 10) (hcr : n ≠ 13) :
    UInt8.ofNat n ≠ 10 ∧ UInt8.ofNat n ≠ 13 := by
  have hvalue : (UInt8.ofNat n).toNat = n := UInt8.toNat_ofNat_of_lt' hn
  constructor
  · intro h
    exact hlf (hvalue.symm.trans (congrArg UInt8.toNat h))
  · intro h
    exact hcr (hvalue.symm.trans (congrArg UInt8.toNat h))

theorem isPlainText_utf8EncodeChar {c : Char} (hlf : c ≠ '\n') (hcr : c ≠ '\r') :
    IsPlainText (String.utf8EncodeChar c) := by
  have hlf' : c.val.toNat ≠ 10 := fun h => hlf (Char.ext (UInt32.toNat_inj.1 h))
  have hcr' : c.val.toNat ≠ 13 := fun h => hcr (Char.ext (UInt32.toNat_inj.1 h))
  have hhigh : ∀ {n : Nat}, 128 ≤ n → n < 256 → UInt8.ofNat n ≠ 10 ∧ UInt8.ofNat n ≠ 13 :=
    fun hn hn' => ofNat_isPlain hn' (by omega) (by omega)
  unfold String.utf8EncodeChar
  dsimp only
  split_ifs <;> simp only [isPlainText_cons, isPlainText_nil, and_true]
  · exact ofNat_isPlain (by omega) hlf' hcr'
  · exact ⟨hhigh (by omega) (by omega), hhigh (by omega) (by omega)⟩
  · exact ⟨hhigh (by omega) (by omega), hhigh (by omega) (by omega), hhigh (by omega) (by omega)⟩
  · exact ⟨hhigh (by omega) (by omega), hhigh (by omega) (by omega), hhigh (by omega) (by omega),
      hhigh (by omega) (by omega)⟩

theorem isPlainText_ofString {s : String} (hlf : '\n' ∉ s.toList) (hcr : '\r' ∉ s.toList) :
    IsPlainText (Bytes.ofString s) := by
  rw [Bytes.ofString_eq]
  intro b hb
  obtain ⟨c, hc, hb⟩ := List.mem_flatMap.1 hb
  exact isPlainText_utf8EncodeChar (ne_of_mem_of_not_mem hc hlf) (ne_of_mem_of_not_mem hc hcr) b hb

def PlainHunks (hs : List Hunk) : Prop := ∀ h ∈ hs, ∀ l ∈ h.lines, IsPlainText l.line.text

instance (hs : List Hunk) : Decidable (PlainHunks hs) :=
  inferInstanceAs (Decidable (∀ h ∈ hs, ∀ l ∈ h.lines, IsPlainText l.line.text))

theorem mem_of_mem_blockLines {old new : List Line} {b : Alignment.Block} {l : HunkLine}
    (h : l ∈ blockLines old new b) : l.line ∈ old ∨ l.line ∈ new := by
  have hslice : ∀ {mark : Mark} {ls : List Line} {i len : Nat},
      l ∈ markAll mark (Alignment.slice ls i len) → l.line ∈ ls := by
    intro mark ls i len hl
    obtain ⟨x, hx, rfl⟩ := List.mem_map.1 hl
    exact Alignment.mem_of_mem_slice hx
  cases b with
  | same => exact .inl (hslice h)
  | change => exact (List.mem_append.1 h).imp hslice hslice

theorem hunkOf?_lines {old new : List Line} {group : List Alignment.Block} {h : Hunk}
    (hh : hunkOf? old new group = some h) : h.lines = group.flatMap (blockLines old new) := by
  unfold hunkOf? at hh
  split at hh
  · rw [← Option.some.inj hh]
  · cases hh

theorem diffLines_plainHunks (o : Options) (old new : Bytes) : PlainHunks (diffLines o old new).hunks := by
  rw [diffLines_eq]
  split
  · exact fun _ hh => absurd hh List.not_mem_nil
  · intro h hh l hl
    obtain ⟨group, -, hgroup⟩ := List.mem_filterMap.1 hh
    rw [hunkOf?_lines hgroup] at hl
    obtain ⟨b, -, hb⟩ := List.mem_flatMap.1 hl
    exact (mem_of_mem_blockLines hb).elim (splitLines_isPlain old _) (splitLines_isPlain new _)

namespace Patch

def markOf? (b : UInt8) : Option Mark :=
  if b = 32 then some .context
  else if b = 43 then some .added
  else if b = 45 then some .deleted
  else none

theorem markOf?_markByte (m : Mark) : markOf? (markByte m) = some m := by cases m <;> rfl

def Unmarked (text : Bytes) : Prop := ∃ b ∈ text.head?, markOf? b = none

instance (text : Bytes) : Decidable (Unmarked text) :=
  inferInstanceAs (Decidable (∃ b ∈ text.head?, markOf? b = none))

theorem Unmarked.ne_nil {text : Bytes} (h : Unmarked text) : text ≠ [] := by
  rintro rfl
  obtain ⟨_, hb, -⟩ := h
  cases hb

theorem Unmarked.append {text : Bytes} (h : Unmarked text) (rest : Bytes) : Unmarked (text ++ rest) := by
  obtain ⟨b, hb, hmark⟩ := h
  exact ⟨b, List.mem_head?_append_of_mem_head? hb, hmark⟩

def readRange (cs : List Char) : Nat × Nat :=
  let start := cs.takeWhile Text.isDigit
  match cs.drop start.length with
  | ',' :: len => ((Text.natOfChars? start).getD 0, (Text.natOfChars? len).getD 0)
  | _ => ((Text.natOfChars? start).getD 0, 1)

theorem range_toList (start len : Nat) :
    (range start len).toList =
      Nat.toDigits 10 start ++ if len = 1 then [] else ',' :: Nat.toDigits 10 len := by
  unfold range
  split
  · simp
  · have hcomma : (toString ",").toList = [','] := rfl
    simp [hcomma]

theorem takeWhile_toDigits (n : Nat) (rest : List Char) :
    (Nat.toDigits 10 n ++ rest).takeWhile Text.isDigit = Nat.toDigits 10 n ++ rest.takeWhile Text.isDigit :=
  List.takeWhile_append_of_pos fun _ => Text.isDigit_of_mem_toDigits

theorem readRange_range (start len : Nat) : readRange (range start len).toList = (start, len) := by
  have hstart : ((range start len).toList).takeWhile Text.isDigit = Nat.toDigits 10 start := by
    rw [range_toList, takeWhile_toDigits]
    split
    · exact List.append_nil _
    · exact List.append_nil _
  rw [readRange, hstart, range_toList, List.drop_left, Text.natOfChars?_toDigits]
  split_ifs with hlen
  · rw [hlen]
    rfl
  · simp only [Text.natOfChars?_toDigits]
    rfl

theorem mem_range {start len : Nat} {c : Char} (h : c ∈ (range start len).toList) :
    c = ',' ∨ Text.isDigit c = true := by
  rw [range_toList, List.mem_append] at h
  rcases h with h | h
  · exact .inr (Text.isDigit_of_mem_toDigits h)
  · split_ifs at h
    · cases h
    · exact (List.mem_cons.1 h).imp_right Text.isDigit_of_mem_toDigits

theorem takeWhile_range (start len : Nat) (rest : List Char) :
    ((range start len).toList ++ ' ' :: rest).takeWhile (· != ' ') = (range start len).toList := by
  have hall : ∀ c ∈ (range start len).toList, (c != ' ') = true := by
    intro c hc
    rw [bne_iff_ne]
    rintro rfl
    exact absurd (mem_range hc) (by decide)
  rw [List.takeWhile_append_of_pos hall, List.takeWhile_cons_of_neg (by decide), List.append_nil]

def readHeader (marker : String) (text : Bytes) : Hunk :=
  let cs := ((Bytes.text? text).getD "").toList.drop (marker.length + 2)
  let old := cs.takeWhile (· != ' ')
  let new := (cs.drop (old.length + 2)).takeWhile (· != ' ')
  { oldStart := (readRange old).1
    oldLen := (readRange old).2
    newStart := (readRange new).1
    newLen := (readRange new).2
    lines := [] }

theorem readHeader_hunkHeader (marker : String) (h : Hunk) :
    readHeader marker (Bytes.ofString (hunkHeader marker h)) = { h with lines := [] } := by
  have hchars : (hunkHeader marker h).toList.drop (marker.length + 2) =
      (range h.oldStart h.oldLen).toList ++
        ' ' :: '+' :: ((range h.newStart h.newLen).toList ++ ' ' :: marker.toList) := by
    have hsplit : (hunkHeader marker h).toList = (marker.toList ++ [' ', '-']) ++
        ((range h.oldStart h.oldLen).toList ++
          ' ' :: '+' :: ((range h.newStart h.newLen).toList ++ ' ' :: marker.toList)) := by
      simp [hunkHeader]
    have hlength : marker.length + 2 = (marker.toList ++ [' ', '-']).length := by
      rw [List.length_append, String.length_toList]
      rfl
    rw [hsplit, hlength, List.drop_left]
  have hnew : ((range h.oldStart h.oldLen).toList ++
      ' ' :: '+' :: ((range h.newStart h.newLen).toList ++ ' ' :: marker.toList)).drop
        ((range h.oldStart h.oldLen).toList.length + 2) =
      (range h.newStart h.newLen).toList ++ ' ' :: marker.toList := by
    rw [← List.drop_drop, List.drop_left]
    rfl
  simp only [readHeader, Bytes.text?_ofString, Option.getD_some, hchars, takeWhile_range, hnew,
    readRange_range]

def printedLine (unended : String) (l : HunkLine) : List Line :=
  match l.line.ending with
  | some ending => [⟨markByte l.mark :: l.line.text, some ending⟩]
  | none => [⟨markByte l.mark :: l.line.text, some .lf⟩, ⟨Bytes.ofString unended, some .lf⟩]

def printedHunk (marker unended : String) (h : Hunk) : List Line :=
  ⟨Bytes.ofString (hunkHeader marker h), some .lf⟩ :: h.lines.flatMap (printedLine unended)

theorem joinLines_flatMap {α : Type} (f : α → List Line) (xs : List α) :
    joinLines (xs.flatMap f) = xs.flatMap fun x => joinLines (f x) := List.flatMap_assoc

theorem joinLines_printedLine (unended : String) (l : HunkLine) :
    joinLines (printedLine unended l) = hunkLine unended l := by
  unfold printedLine hunkLine
  cases l.line.ending with
  | some ending => simp [joinLines, Line.bytes]
  | none => simp [joinLines, Line.bytes, LineEnding.bytes, line]

theorem joinLines_printedHunk (marker unended : String) (h : Hunk) :
    joinLines (printedHunk marker unended h) = hunk marker unended h := by
  have hlines : joinLines (h.lines.flatMap (printedLine unended)) = h.lines.flatMap (hunkLine unended) := by
    simp only [joinLines_flatMap, joinLines_printedLine]
  have hcons : ∀ (l : Line) (ls : List Line), joinLines (l :: ls) = l.bytes ++ joinLines ls :=
    fun _ _ => rfl
  rw [printedHunk, hcons, hlines]
  rfl

theorem hunks_eq_joinLines (marker unended : String) (hs : List Hunk) :
    hunks marker unended hs = joinLines (hs.flatMap (printedHunk marker unended)) := by
  simp only [hunks, joinLines_flatMap, joinLines_printedHunk]

/-- Headers and the note on a missing terminator are lines that cannot be taken for lines of a hunk,
nor for each other. -/
structure Legible (marker unended : String) : Prop where
  marker_plain : IsPlainText (Bytes.ofString marker)
  note_plain : IsPlainText (Bytes.ofString unended)
  marker_unmarked : Unmarked (Bytes.ofString marker)
  note_unmarked : Unmarked (Bytes.ofString unended)
  apart : ¬ Bytes.ofString marker <+: Bytes.ofString unended

theorem legible_text : Legible "@@" "\\ No newline at end of file" := by
  constructor <;> decide +kernel

theorem legible_property : Legible "##" "\\ No newline at end of property" := by
  constructor <;> decide +kernel

section Legible

variable {marker unended : String} (hlegible : Legible marker unended)
include hlegible

theorem isPlainText_hunkHeader (h : Hunk) : IsPlainText (Bytes.ofString (hunkHeader marker h)) := by
  have hrange : ∀ start len, IsPlainText (Bytes.ofString (range start len)) := by
    intro start len
    exact isPlainText_ofString (fun hc => absurd (mem_range hc) (by decide))
      (fun hc => absurd (mem_range hc) (by decide))
  simp only [hunkHeader, Bytes.ofString_append, isPlainText_append]
  refine ⟨⟨⟨⟨⟨⟨hlegible.marker_plain, ?_⟩, hrange _ _⟩, ?_⟩, hrange _ _⟩, ?_⟩, hlegible.marker_plain⟩
  · decide +kernel
  · decide +kernel
  · decide +kernel

theorem hunkHeader_unmarked (h : Hunk) : Unmarked (Bytes.ofString (hunkHeader marker h)) := by
  simp only [hunkHeader, Bytes.ofString_append, List.append_assoc]
  exact hlegible.marker_unmarked.append _

theorem hunkHeader_ne (h : Hunk) : Bytes.ofString (hunkHeader marker h) ≠ Bytes.ofString unended := by
  intro heq
  refine hlegible.apart ?_
  rw [← heq]
  simp [hunkHeader]

theorem mem_printed {hs : List Hunk} (hplain : PlainHunks hs) {l : Line}
    (hl : l ∈ hs.flatMap (printedHunk marker unended)) :
    IsPlainText l.text ∧ l.text ≠ [] ∧ l.ending ≠ none := by
  obtain ⟨h, hh, hl⟩ := List.mem_flatMap.1 hl
  rcases List.mem_cons.1 hl with rfl | hl
  · exact ⟨isPlainText_hunkHeader hlegible h, (hunkHeader_unmarked hlegible h).ne_nil, Option.some_ne_none _⟩
  · obtain ⟨x, hx, hl⟩ := List.mem_flatMap.1 hl
    have htext : IsPlainText (markByte x.mark :: x.line.text) :=
      isPlainText_cons.2 ⟨by cases x.mark <;> decide, hplain h hh x hx⟩
    unfold printedLine at hl
    split at hl
    · obtain rfl := List.mem_singleton.1 hl
      exact ⟨htext, List.cons_ne_nil _ _, Option.some_ne_none _⟩
    · rcases List.mem_pair.1 hl with rfl | rfl
      · exact ⟨htext, List.cons_ne_nil _ _, Option.some_ne_none _⟩
      · exact ⟨hlegible.note_plain, hlegible.note_unmarked.ne_nil, Option.some_ne_none _⟩

theorem splitLines_hunks {hs : List Hunk} (hplain : PlainHunks hs) :
    splitLines (hunks marker unended hs) = hs.flatMap (printedHunk marker unended) := by
  have hprinted := fun l hl => mem_printed hlegible hplain (l := l) hl
  rw [hunks_eq_joinLines]
  refine splitLines_joinLines (fun l hl => (hprinted l hl).1) ?_ fun hl => (hprinted _ hl).2.1 rfl
  refine List.Pairwise.isChain (List.pairwise_of_forall_mem_list ?_)
  intro l hl l' hl'
  exact ⟨(hprinted l hl).2.2, fun _ hnil => absurd hnil (hprinted l' hl').2.1⟩

end Legible

structure Reading where
  /-- The line that was read last says that the one before it has no terminator. -/
  unended : Bool
  /-- The lines of a hunk whose header is yet to be read. -/
  lines : List HunkLine
  hunks : List Hunk

def readLine (marker unended : String) (l : Line) (r : Reading) : Reading :=
  if l.text = Bytes.ofString unended then { r with unended := true }
  else
    match l.text.head?.bind markOf? with
    | some mark =>
      ⟨false, ⟨mark, ⟨l.text.tail, if r.unended then none else l.ending⟩⟩ :: r.lines, r.hunks⟩
    | none => ⟨false, [], { readHeader marker l.text with lines := r.lines } :: r.hunks⟩

def readHunks (marker unended : String) (patch : Bytes) : List Hunk :=
  ((splitLines patch).foldr (readLine marker unended) ⟨false, [], []⟩).hunks

section Legible

variable {marker unended : String} (hlegible : Legible marker unended)
include hlegible

theorem readLine_marked (mark : Mark) (text : Bytes) (ending : Option LineEnding) (r : Reading) :
    readLine marker unended ⟨markByte mark :: text, ending⟩ r =
      ⟨false, ⟨mark, ⟨text, if r.unended then none else ending⟩⟩ :: r.lines, r.hunks⟩ := by
  have hnote : markByte mark :: text ≠ Bytes.ofString unended := by
    intro h
    obtain ⟨b, hb, hunmarked⟩ := hlegible.note_unmarked
    rw [← h] at hb
    obtain rfl : markByte mark = b := Option.some.inj hb
    rw [markOf?_markByte] at hunmarked
    cases hunmarked
  rw [readLine, if_neg hnote]
  simp only [List.head?_cons, Option.bind_some, markOf?_markByte, List.tail_cons]

omit hlegible in
theorem readLine_note (r : Reading) (ending : Option LineEnding) :
    readLine marker unended ⟨Bytes.ofString unended, ending⟩ r = { r with unended := true } := if_pos rfl

theorem readLine_header (h : Hunk) (ending : Option LineEnding) (r : Reading) :
    readLine marker unended ⟨Bytes.ofString (hunkHeader marker h), ending⟩ r =
      ⟨false, [], { h with lines := r.lines } :: r.hunks⟩ := by
  obtain ⟨b, hb, hunmarked⟩ := hunkHeader_unmarked hlegible h
  rw [readLine, if_neg (hunkHeader_ne hlegible h)]
  simp only [Option.mem_def.1 hb, Option.bind_some, hunmarked, readHeader_hunkHeader]

theorem foldr_printedLine (l : HunkLine) (ls : List HunkLine) (hs : List Hunk) :
    (printedLine unended l).foldr (readLine marker unended) ⟨false, ls, hs⟩ = ⟨false, l :: ls, hs⟩ := by
  obtain ⟨mark, text, ending⟩ := l
  cases ending with
  | some ending => exact readLine_marked hlegible mark text (some ending) _
  | none =>
    -- From the end the note comes before its line.
    rw [printedLine, List.foldr_cons, List.foldr_cons, readLine_note, readLine_marked hlegible]
    rfl

theorem foldr_printedLines (ls : List HunkLine) (hs : List Hunk) :
    (ls.flatMap (printedLine unended)).foldr (readLine marker unended) ⟨false, [], hs⟩ =
      ⟨false, ls, hs⟩ := by
  induction ls with
  | nil => rfl
  | cons l ls ih => rw [List.flatMap_cons, List.foldr_append, ih, foldr_printedLine hlegible]

theorem foldr_printedHunks (hs : List Hunk) :
    (hs.flatMap (printedHunk marker unended)).foldr (readLine marker unended) ⟨false, [], []⟩ =
      ⟨false, [], hs⟩ := by
  induction hs with
  | nil => rfl
  | cons h hs ih =>
    rw [List.flatMap_cons, List.foldr_append, ih, printedHunk, List.foldr_cons,
      foldr_printedLines hlegible, readLine_header hlegible]

theorem readHunks_hunks {hs : List Hunk} (hplain : PlainHunks hs) :
    readHunks marker unended (hunks marker unended hs) = hs := by
  rw [readHunks, splitLines_hunks hlegible hplain, foldr_printedHunks hlegible]

end Legible

/-- Hunks are told apart by what is printed of them. That of the contents of files and that of
properties is legible, and the lines of a difference are plain. -/
theorem hunks_injective :
    (∀ {marker unended : String}, Legible marker unended → ∀ {hs hs' : List Hunk},
      PlainHunks hs → PlainHunks hs' →
        readHunks marker unended (hunks marker unended hs) = hs ∧
          (hunks marker unended hs = hunks marker unended hs' → hs = hs')) ∧
    (∀ {hs hs' : List Hunk}, PlainHunks hs → PlainHunks hs' →
      (textHunks hs = textHunks hs' → hs = hs') ∧ (propertyHunks hs = propertyHunks hs' → hs = hs')) ∧
    (∀ (o : Options) (old new : Bytes), PlainHunks (diffLines o old new).hunks) ∧
    ∀ c : PropChange, PlainHunks c.hunks := by
  have hinj : ∀ {marker unended : String}, Legible marker unended → ∀ {hs hs' : List Hunk},
      PlainHunks hs → PlainHunks hs' → hunks marker unended hs = hunks marker unended hs' → hs = hs' := by
    intro marker unended hlegible hs hs' hplain hplain' hequal
    calc
      hs = readHunks marker unended (hunks marker unended hs) := (readHunks_hunks hlegible hplain).symm
      _ = readHunks marker unended (hunks marker unended hs') := by rw [hequal]
      _ = hs' := readHunks_hunks hlegible hplain'
  refine ⟨?_, ?_, diffLines_plainHunks, fun c => diffLines_plainHunks _ _ _⟩
  · exact fun hlegible _ _ hplain hplain' =>
      ⟨readHunks_hunks hlegible hplain, hinj hlegible hplain hplain'⟩
  · exact fun hplain hplain' => ⟨hinj legible_text hplain hplain', hinj legible_property hplain hplain'⟩

/-- Without a marker a header is read as a line. -/
example :
    hunks "" "" [⟨1, 1, 1, 1, []⟩, ⟨2, 1, 2, 1, []⟩] =
      hunks "" "" [⟨1, 1, 1, 1, [⟨.context, ⟨Bytes.ofString "-2 +2 ", some .lf⟩⟩]⟩] := by
  decide +kernel

namespace MisleadingLines

def lines : List HunkLine :=
  [⟨.deleted, ⟨Bytes.ofString "@@ -1 +1 @@", none⟩⟩,
    ⟨.context, ⟨Bytes.ofString "\\ No newline at end of file", some .cr⟩⟩, ⟨.added, ⟨[], some .lf⟩⟩]

def otherLines : List HunkLine :=
  [⟨.deleted, ⟨Bytes.ofString "@@ -1 +1 @@", some .lf⟩⟩,
    ⟨.context, ⟨Bytes.ofString "\\ No newline at end of file", some .cr⟩⟩, ⟨.added, ⟨[], some .lf⟩⟩]

end MisleadingLines

open MisleadingLines in
theorem hunks_injective_misleading :
    PlainHunks [⟨1, 2, 7, 2, lines⟩] ∧ PlainHunks [⟨1, 2, 7, 2, otherLines⟩] ∧
      readHunks "@@" "\\ No newline at end of file" (textHunks [⟨1, 2, 7, 2, lines⟩]) =
        [⟨1, 2, 7, 2, lines⟩] ∧
      textHunks [⟨1, 2, 7, 2, lines⟩] ≠ textHunks [⟨1, 2, 7, 2, otherLines⟩] := by
  have hplain : PlainHunks [⟨1, 2, 7, 2, lines⟩] := by decide +kernel
  have hplain' : PlainHunks [⟨1, 2, 7, 2, otherLines⟩] := by decide +kernel
  have hne : [(⟨1, 2, 7, 2, lines⟩ : Hunk)] ≠ [⟨1, 2, 7, 2, otherLines⟩] := by decide +kernel
  exact ⟨hplain, hplain', (hunks_injective.1 legible_text hplain hplain').1,
    fun hequal => hne ((hunks_injective.2.1 hplain hplain').1 hequal)⟩

end Patch

end TreeDelta
