import Mathlib.Tactic.SplitIfs
import TreeDelta.ContentDiff
import TreeDelta.Proofs.Hunk
import TreeDelta.Repository.Basic
set_option autoImplicit false

namespace TreeDelta

/-- The store has this data for the node: that of the content it names, none if it names none. -/
def Store.Carries (s : Store) (n : Node) (data : Bytes) : Prop :=
  match n.content with
  | some id => s.content? id = .ok (some data)
  | none => data = []

/-- What a user sees of a node with this data: that of a file, with the line ends that the node
itself asks for. -/
def Node.shown (n : Node) (data : Bytes) : Bytes :=
  if n.isFile then
    match n.eolStyle with
    | some style => style.convert data
    | none => data
  else []

variable {s : Store} {o : Options} {a b : Node} {x y : Bytes}

theorem Node.shown_nil (n : Node) : n.shown [] = [] := by
  unfold shown
  split
  · split <;> rfl
  · rfl

theorem shownBytes_eq_shown (h : s.Carries a x) : shownBytes s a = .ok (a.shown x) := by
  unfold Store.Carries at h
  unfold shownBytes
  cases hcontent : a.content with
  | none =>
    simp only [hcontent] at h
    rw [h, Node.shown_nil]
    rfl
  | some id =>
    simp only [hcontent] at h
    cases hfile : a.isFile with
    | false =>
      rw [Node.shown, hfile]
      rfl
    | true =>
      simp only [Option.filter_some, h, Node.shown, hfile, if_true]
      cases a.eolStyle <;> rfl

theorem shown_eq_of_content (ha : s.Carries a x) (hb : s.Carries b y) (hfile : a.isFile = b.isFile)
    (hcontent : a.content = b.content) (hstyle : a.eolStyle = b.eolStyle) : a.shown x = b.shown y := by
  have hdata : x = y := by
    unfold Store.Carries at ha hb
    rw [← hcontent] at hb
    cases hid : a.content with
    | none =>
      simp only [hid] at ha hb
      rw [ha, hb]
    | some id =>
      simp only [hid] at ha hb
      rw [ha] at hb
      exact Option.some.inj (Except.ok.inj hb)
  rw [Node.shown, Node.shown, hdata, hfile, hstyle]

def shownDiff (o : Options) (a b : Node) (old new : Bytes) : Option ContentDiff :=
  if !a.isFile && !b.isFile then none
  else if old == new && a.isFile && b.isFile then none
  else some (.text (diffLines o old new))

theorem diffContent_eq_shown (hspace : o.ignoreSpace = .none) (heol : o.ignoreEolStyle = false)
    (hbinary : o.treatsBinaryAsText = true ∨ a.isBinary = false ∧ b.isBinary = false)
    (ha : s.Carries a x) (hb : s.Carries b y) :
    diffContent s a b o = .ok (shownDiff o a b (a.shown x) (b.shown y)) := by
  have hempty : (diffLines o (a.shown x) (b.shown y)).isEmpty = (a.shown x == b.shown y) := by
    rw [Bool.eq_iff_iff, TextDiff.isEmpty, List.isEmpty_iff, beq_iff_eq]
    exact diffLines_hunks_eq_nil_iff_eq hspace heol
  have hnotice : (!o.treatsBinaryAsText && (a.isBinary || b.isBinary)) = false := by
    rcases hbinary with h | ⟨h, h'⟩
    · rw [h]
      rfl
    · rw [h, h', Bool.or_self, Bool.and_false]
  unfold diffContent shownDiff
  split
  · rfl
  split
  · -- The short way: the texts shown are equal without a look at them.
    rename_i hsame
    simp only [Bool.and_eq_true, beq_iff_eq] at hsame
    obtain ⟨⟨⟨hfa, hfb⟩, hcontent⟩, hstyle⟩ := hsame
    have hequal := shown_eq_of_content ha hb (hfa.trans hfb.symm) hcontent hstyle
    rw [hequal, hfa, hfb, beq_self_eq_true]
    rfl
  · rw [hnotice, shownBytes_eq_shown ha, shownBytes_eq_shown hb]
    simp only [bind, Except.bind, hempty, Bool.false_eq_true, if_false]
    split <;> rfl

/-- Of two files something is told exactly if they do not show the same, of a file and something
else always, and without a file never. What is told is the difference of what is shown. -/
theorem diffContent_shown (hspace : o.ignoreSpace = .none) (heol : o.ignoreEolStyle = false)
    (hbinary : o.treatsBinaryAsText = true ∨ a.isBinary = false ∧ b.isBinary = false)
    (ha : s.Carries a x) (hb : s.Carries b y) :
    (a.isFile = true → b.isFile = true →
        (diffContent s a b o = .ok none ↔ a.shown x = b.shown y)) ∧
      (a.isFile ≠ b.isFile → ∃ diff, diffContent s a b o = .ok (some (.text diff))) ∧
      (a.isFile = false → b.isFile = false → diffContent s a b o = .ok none) ∧
      ∃ told, diffContent s a b o = .ok told ∧
        ∀ diff ∈ told, diff = .text (diffLines o (a.shown x) (b.shown y)) := by
  rw [diffContent_eq_shown hspace heol hbinary ha hb]
  refine ⟨?_, ?_, ?_, _, rfl, ?_⟩
  · intro hfa hfb
    simp [shownDiff, hfa, hfb]
  · intro hfiles
    refine ⟨diffLines o (a.shown x) (b.shown y), ?_⟩
    cases hfa : a.isFile <;> cases hfb : b.isFile <;> simp_all [shownDiff]
  · intro hfa hfb
    rw [shownDiff, hfa, hfb]
    rfl
  · intro diff hdiff
    unfold shownDiff at hdiff
    split_ifs at hdiff
    · cases hdiff
    · cases hdiff
    · exact (Option.some.inj hdiff).symm

namespace StyledFile

def store : Store := ((Repository.empty.putContent [120, 10]).putContent [120, 13, 10]).store

def file (data : Bytes) (props : Props) : Node :=
  { Node.bare .root .file .workingCopy with content := some (.ofBytes data), props := props }

def styled : Node := file [120, 10] (.empty |>.insert Props.eolStyleName "CRLF")

def plain : Node := file [120, 13, 10] .empty

def directory : Node := .bare .root .directory .workingCopy

theorem content_lf : store.content? (.ofBytes [120, 10]) = .ok (some [120, 10]) :=
  congrArg Except.ok (by decide +kernel)

theorem content_crlf : store.content? (.ofBytes [120, 13, 10]) = .ok (some [120, 13, 10]) :=
  congrArg Except.ok (by decide +kernel)

end StyledFile

open StyledFile in
theorem diffContent_shown_styled :
    store.Carries styled [120, 10] ∧ store.Carries plain [120, 13, 10] ∧ store.Carries directory [] ∧
      styled.isBinary = false ∧ plain.isBinary = false ∧ directory.isBinary = false ∧
      styled.content ≠ plain.content ∧ styled.shown [120, 10] = [120, 13, 10] ∧
      diffContent store styled plain .default = .ok none ∧
      ∃ diff, diffContent store styled directory .default = .ok (some (.text diff)) := by
  have hstyled : store.Carries styled [120, 10] := content_lf
  have hplain : store.Carries plain [120, 13, 10] := content_crlf
  have hdirectory : store.Carries directory [] := rfl
  refine ⟨hstyled, hplain, hdirectory, rfl, rfl, rfl, by decide +kernel, by decide +kernel, ?_, ?_⟩
  · exact ((diffContent_shown rfl rfl (.inr ⟨rfl, rfl⟩) hstyled hplain).1 rfl rfl).2 (by decide +kernel)
  · exact (diffContent_shown rfl rfl (.inr ⟨rfl, rfl⟩) hstyled hdirectory).2.1 (by decide)

/-- Two files that show the same differ in nothing but the notice: it takes the place of a look at
the contents, which is left out only for one digest and one style. -/
theorem diffContent_of_shown_eq (ha : s.Carries a x) (hb : s.Carries b y) (hfa : a.isFile = true)
    (hfb : b.isFile = true) (hshown : a.shown x = b.shown y) :
    diffContent s a b o = .ok
      (if a.content = b.content ∧ a.eolStyle = b.eolStyle then none
      else if o.treatsBinaryAsText = false ∧ (a.isBinary = true ∨ b.isBinary = true) then
        some (.binary a.mimeType b.mimeType)
      else none) := by
  have hempty : (diffLines o (a.shown x) (b.shown y)).isEmpty = true := by
    rw [hshown]
    exact diffLines_isEmpty_iff.2 rfl
  have hshort : (a.isFile && b.isFile && a.content == b.content && a.eolStyle == b.eolStyle) = true ↔
      a.content = b.content ∧ a.eolStyle = b.eolStyle := by simp [hfa, hfb]
  have hnotice : (!o.treatsBinaryAsText && (a.isBinary || b.isBinary)) = true ↔
      o.treatsBinaryAsText = false ∧ (a.isBinary = true ∨ b.isBinary = true) := by simp
  unfold diffContent
  rw [if_neg (by simp [hfa]), shownBytes_eq_shown ha, shownBytes_eq_shown hb]
  simp only [hshort, hnotice]
  split
  · rfl
  split
  · rfl
  · simp only [bind, Except.bind, hempty, hfa, hfb]
    rfl

namespace StyledFile

def binary : Node := file [120, 10] (.empty |>.insert Props.mimeTypeName "application/octet-stream")

def styledBinary : Node := { binary with props := binary.props.insert Props.eolStyleName "LF" }

def forced : Options := { Options.default with force := true }

end StyledFile

open StyledFile in
theorem diffContent_of_shown_eq_forced :
    store.Carries binary [120, 10] ∧ store.Carries styledBinary [120, 10] ∧
      binary.isFile = true ∧ styledBinary.isFile = true ∧
      binary.shown [120, 10] = styledBinary.shown [120, 10] ∧
      binary.isBinary = true ∧ binary.eolStyle ≠ styledBinary.eolStyle ∧
      diffContent store binary styledBinary forced = .ok none := by
  have hbinary : store.Carries binary [120, 10] := content_lf
  have hstyled : store.Carries styledBinary [120, 10] := content_lf
  have hshown : binary.shown [120, 10] = styledBinary.shown [120, 10] := by decide +kernel
  have hstyle : binary.eolStyle ≠ styledBinary.eolStyle := by decide +kernel
  refine ⟨hbinary, hstyled, rfl, rfl, hshown, by decide +kernel, hstyle, ?_⟩
  rw [diffContent_of_shown_eq hbinary hstyled rfl rfl hshown, if_neg fun h => hstyle h.2,
    if_neg fun h => Bool.noConfusion h.1]

open StyledFile in
/-- A style that changes nothing in what is shown brings a notice about. -/
theorem diffContent_of_shown_eq_ne_none :
    store.Carries binary [120, 10] ∧ store.Carries styledBinary [120, 10] ∧
      binary.shown [120, 10] = styledBinary.shown [120, 10] ∧
      diffContent store binary styledBinary .default =
        .ok (some (.binary (some "application/octet-stream") (some "application/octet-stream"))) := by
  have hmime : binary.mimeType = some "application/octet-stream" := by decide +kernel
  have hmime' : styledBinary.mimeType = some "application/octet-stream" := by decide +kernel
  have hstyle : (binary.eolStyle == styledBinary.eolStyle) = false := by decide +kernel
  have hnotice : binary.isBinary = true := by decide +kernel
  refine ⟨content_lf, content_lf, by decide +kernel, ?_⟩
  unfold diffContent
  rw [hstyle, hnotice, hmime, hmime', Bool.and_false]
  rfl

end TreeDelta
