import TreeDelta.CommandLine.Run
import TreeDelta.Proofs.Decimal
import TreeDelta.Proofs.Fields
set_option autoImplicit false

namespace TreeDelta

namespace Text

theorem isDigit_iff {c : Char} : isDigit c = true ↔ 48 ≤ c.toNat ∧ c.toNat ≤ 57 := by
  simp only [isDigit, Bool.and_eq_true, decide_eq_true_eq, Char.le_def, UInt32.le_iff_toNat_le]
  rfl

theorem isUpper_iff {c : Char} : c.isUpper = true ↔ 65 ≤ c.toNat ∧ c.toNat ≤ 90 :=
  decide_eq_true_iff

theorem isLower_iff {c : Char} : c.isLower = true ↔ 97 ≤ c.toNat ∧ c.toNat ≤ 122 :=
  Bool.and_eq_true_iff.trans (and_congr decide_eq_true_iff decide_eq_true_iff)

theorem toUpper_eq_or (c : Char) : c.toUpper = c ∨ c.isLower = true ∧ c.toUpper.isUpper = true := by
  rw [isLower_iff, isUpper_iff]
  unfold Char.toUpper
  split
  · rename_i h
    have hlow : 97 ≤ c.toNat := h.1
    have hhigh : c.toNat ≤ 122 := h.2
    have hshift : (c.val + ('A'.val - 'a'.val)).toNat = c.toNat - 32 := by
      have hback : ('A'.val - 'a'.val).toNat = 2 ^ 32 - 32 := rfl
      have hval : c.val.toNat = c.toNat := rfl
      rw [UInt32.toNat_add, hback, hval]
      omega
    refine .inr ⟨⟨hlow, hhigh⟩, ?_⟩
    change 65 ≤ (c.val + ('A'.val - 'a'.val)).toNat ∧ (c.val + ('A'.val - 'a'.val)).toNat ≤ 90
    omega
  · exact .inl rfl

def IsWordChar (c : Char) : Prop := isDigit c = true ∨ c.isUpper = true ∨ c.isLower = true

instance (c : Char) : Decidable (IsWordChar c) :=
  inferInstanceAs (Decidable (isDigit c = true ∨ c.isUpper = true ∨ c.isLower = true))

theorem IsWordChar.not_isBlank {c : Char} (h : IsWordChar c) : isBlank c = false := by
  rw [IsWordChar, isDigit_iff, isUpper_iff, isLower_iff] at h
  simp only [isBlank, Bool.or_eq_false_iff, Bool.and_eq_false_iff, decide_eq_false_iff_not,
    beq_eq_false_iff_ne]
  omega

theorem isWordChar_of_toUpper {c : Char} (h : IsWordChar c.toUpper) : IsWordChar c := by
  rcases toUpper_eq_or c with heq | ⟨hlower, -⟩
  · rwa [heq] at h
  · exact .inr (.inr hlower)

theorem toUpper_eq_of_isDigit_toUpper {c : Char} (h : isDigit c.toUpper = true) : c.toUpper = c := by
  rcases toUpper_eq_or c with heq | ⟨-, hupper⟩
  · exact heq
  · rw [isDigit_iff] at h
    rw [isUpper_iff] at hupper
    omega

theorem toUpper_eq_of_not_isLower {c : Char} (h : ¬ c.isLower = true) : c.toUpper = c :=
  (toUpper_eq_or c).resolve_right fun hlower => h hlower.1

theorem toUpper_of_isDigit {c : Char} (h : isDigit c = true) : c.toUpper = c := by
  apply toUpper_eq_of_not_isLower
  rw [isLower_iff]
  rw [isDigit_iff] at h
  omega

theorem toUpper_of_isUpper {c : Char} (h : c.isUpper = true) : c.toUpper = c := by
  apply toUpper_eq_of_not_isLower
  rw [isLower_iff]
  rw [isUpper_iff] at h
  omega

theorem dropWhile_blanks {before cs : List Char} (hbefore : ∀ c ∈ before, isBlank c = true)
    (hcs : ∀ c ∈ cs.head?, isBlank c = false) : (before ++ cs).dropWhile isBlank = cs := by
  rw [List.dropWhile_append_of_pos hbefore]
  cases cs with
  | nil => rfl
  | cons c cs => exact List.dropWhile_cons_of_neg (by simpa using hcs c rfl)

theorem trimChars_append {before cs after : List Char} (hbefore : ∀ c ∈ before, isBlank c = true)
    (hafter : ∀ c ∈ after, isBlank c = true) (hne : cs ≠ []) (hcs : ∀ c ∈ cs, isBlank c = false) :
    trimChars (before ++ cs ++ after) = cs := by
  have hfirst : ∀ c ∈ (cs ++ after).head?, isBlank c = false := by
    cases cs with
    | nil => exact absurd rfl hne
    | cons d cs => simpa using hcs d List.mem_cons_self
  have hlast : ∀ c ∈ cs.reverse.head?, isBlank c = false := fun c hc =>
    hcs c (List.mem_reverse.1 (List.mem_of_mem_head? hc))
  rw [trimChars, List.append_assoc, dropWhile_blanks hbefore hfirst, List.reverse_append,
    dropWhile_blanks (by simpa using hafter) hlast, List.reverse_reverse]

end Text

namespace RevisionSpec

open Text

/-- What may stand before the text of a revision. -/
inductive Mark : RevisionSpec → List Char → Prop
  | nothing (spec : RevisionSpec) : Mark spec []
  | small (n : UInt64) : Mark (number n) ['r']
  | capital (n : UInt64) : Mark (number n) ['R']

/-- A text that a user may write for a revision. -/
inductive WrittenAs (spec : RevisionSpec) : String → Prop
  | intro {before mark word after : List Char} (hbefore : ∀ c ∈ before, isBlank c = true)
      (hmark : Mark spec mark) (hword : word.map Char.toUpper = spec.text.toList)
      (hafter : ∀ c ∈ after, isBlank c = true) :
    WrittenAs spec (String.ofList (before ++ (mark ++ word) ++ after))

theorem text_number_toList (n : UInt64) : (number n).text.toList = Nat.toDigits 10 n.toNat := by
  simp [text]

theorem keyword_text {spec : RevisionSpec} (h : spec ∈ keywords) :
    ∃ c cs, spec.text.toList = c :: cs ∧ isDigit c = false ∧ c ≠ '+' ∧ c ≠ 'R' := by
  simp only [keywords, List.mem_cons, List.not_mem_nil, or_false] at h
  rcases h with rfl | rfl | rfl | rfl | rfl
  all_goals exact ⟨_, _, rfl, by decide⟩

theorem text_ne_nil (spec : RevisionSpec) : spec.text.toList ≠ [] := by
  cases spec with
  | number n =>
    rw [text_number_toList]
    exact Nat.toDigits_ne_nil
  | head | base | committed | prev | working => exact List.cons_ne_nil _ _

theorem isUpper_of_mem_keyword {spec : RevisionSpec} (hspec : spec ∈ keywords) {c : Char}
    (h : c ∈ spec.text.toList) : c.isUpper = true := by
  have hall : spec.text.toList.all Char.isUpper = true := by
    simp only [keywords, List.mem_cons, List.not_mem_nil, or_false] at hspec
    rcases hspec with rfl | rfl | rfl | rfl | rfl
    all_goals decide
  exact List.all_eq_true.1 hall c h

theorem mem_text {spec : RevisionSpec} {c : Char} (h : c ∈ spec.text.toList) :
    IsWordChar c ∧ c.toUpper = c := by
  cases spec with
  | number n =>
    rw [text_number_toList] at h
    have hdigit := isDigit_of_mem_toDigits h
    exact ⟨.inl hdigit, toUpper_of_isDigit hdigit⟩
  | head | base | committed | prev | working =>
    have hupper := isUpper_of_mem_keyword (by decide) h
    exact ⟨.inr (.inl hupper), toUpper_of_isUpper hupper⟩

theorem Mark.isWordChar {spec : RevisionSpec} {mark : List Char} (h : Mark spec mark) :
    ∀ c ∈ mark, IsWordChar c := by
  cases h with
  | nothing => simp
  | small => exact List.forall_mem_singleton.2 (by decide)
  | capital => exact List.forall_mem_singleton.2 (by decide)

theorem isWordChar_of_word {spec : RevisionSpec} {word : List Char}
    (h : word.map Char.toUpper = spec.text.toList) : ∀ c ∈ word, IsWordChar c := fun _ hc =>
  isWordChar_of_toUpper (mem_text (h ▸ List.mem_map_of_mem hc)).1

theorem writtenAs_text (spec : RevisionSpec) : WrittenAs spec spec.text := by
  have hword : spec.text.toList.map Char.toUpper = spec.text.toList :=
    (List.map_congr_left fun _ hc => (mem_text hc).2).trans (List.map_id _)
  have hwritten := @WrittenAs.intro spec [] [] _ [] (by simp) (.nothing spec) hword (by simp)
  simpa using hwritten

theorem WrittenAs.isBlank_or {spec : RevisionSpec} {s : String} (h : WrittenAs spec s) :
    ∀ c ∈ s.toList, isBlank c = true ∨ IsWordChar c := by
  obtain ⟨hbefore, hmark, hword, hafter⟩ := h
  intro c hc
  rw [String.toList_ofList, List.mem_append, List.mem_append, List.mem_append] at hc
  rcases hc with (hc | hc | hc) | hc
  · exact .inl (hbefore c hc)
  · exact .inr (hmark.isWordChar c hc)
  · exact .inr (isWordChar_of_word hword c hc)
  · exact .inl (hafter c hc)

theorem dropMark_of_ne {c : Char} (hsmall : c ≠ 'r') (hcapital : c ≠ 'R') (cs : List Char) :
    dropMark (c :: cs) = c :: cs := by
  simp [dropMark, hsmall, hcapital]

theorem unsignedChars?_of_ne {c : Char} (h : c ≠ '+') (cs : List Char) :
    unsignedChars? (c :: cs) = natOfChars? (c :: cs) := by
  unfold unsignedChars?
  split
  · rename_i heq
    exact absurd (List.cons.inj heq).1 h
  · rfl

theorem dropMark_toDigits {n : UInt64} {mark : List Char} (h : Mark (number n) mark) :
    dropMark (mark ++ Nat.toDigits 10 n.toNat) = Nat.toDigits 10 n.toNat := by
  cases h with
  | nothing =>
    obtain ⟨c, cs, hdigits⟩ := List.exists_cons_of_ne_nil (Nat.toDigits_ne_nil (n := n.toNat) (b := 10))
    have hc : isDigit c = true := isDigit_of_mem_toDigits (hdigits ▸ List.mem_cons_self)
    rw [List.nil_append, hdigits]
    apply dropMark_of_ne
    · rintro rfl
      exact absurd hc (by decide)
    · rintro rfl
      exact absurd hc (by decide)
  | small => simp [dropMark, natOfChars?_toDigits]
  | capital => simp [dropMark, natOfChars?_toDigits]

theorem unsignedChars?_toDigits (n : Nat) : unsignedChars? (Nat.toDigits 10 n) = some n := by
  obtain ⟨c, cs, hdigits⟩ := List.exists_cons_of_ne_nil (Nat.toDigits_ne_nil (n := n) (b := 10))
  have hplus : c ≠ '+' := by
    rintro rfl
    have hc : isDigit '+' = true := isDigit_of_mem_toDigits (hdigits ▸ List.mem_cons_self)
    exact absurd hc (by decide)
  rw [hdigits, unsignedChars?_of_ne hplus, ← hdigits, natOfChars?_toDigits]

theorem number?_toDigits {n : UInt64} {mark : List Char} (h : Mark (number n) mark) :
    number? (mark ++ Nat.toDigits 10 n.toNat) = some n := by
  have hbound : n.toNat < UInt64.size := n.toNat_lt_size
  rw [number?, dropMark_toDigits h, natBelow?, String.toList_ofList, unsignedChars?_toDigits,
    Option.filter_some, if_pos (decide_eq_true hbound), Option.map_some, UInt64.ofNat_toNat]

theorem number?_eq_none {c : Char} {cs : List Char} (hdigit : isDigit c = false) (hplus : c ≠ '+')
    (hsmall : c ≠ 'r') (hcapital : c ≠ 'R') : number? (c :: cs) = none := by
  rw [number?, dropMark_of_ne hsmall hcapital, natBelow?, String.toList_ofList, unsignedChars?_of_ne hplus]
  simp [natOfChars?, hdigit]

theorem number?_word {spec : RevisionSpec} (h : spec ∈ keywords) {word : List Char}
    (hword : word.map Char.toUpper = spec.text.toList) : number? word = none := by
  obtain ⟨k, ks, htext, hdigit, hplus, hcapital⟩ := keyword_text h
  rw [htext] at hword
  obtain ⟨c, cs, rfl, hc, -⟩ := List.map_eq_cons_iff.1 hword
  apply number?_eq_none
  · rw [Bool.eq_false_iff]
    intro hcdigit
    rw [← hc, toUpper_of_isDigit hcdigit, hcdigit] at hdigit
    cases hdigit
  · rintro rfl
    exact hplus hc.symm
  · rintro rfl
    exact hcapital hc.symm
  · rintro rfl
    exact hcapital hc.symm

theorem keyword?_word {spec : RevisionSpec} (h : spec ∈ keywords) {word : List Char}
    (hword : word.map Char.toUpper = spec.text.toList) : keyword? word = some spec := by
  rw [keyword?, hword, String.ofList_toList]
  simp only [keywords, List.mem_cons, List.not_mem_nil, or_false] at h
  rcases h with rfl | rfl | rfl | rfl | rfl
  all_goals decide

theorem WrittenAs.parse_eq {spec : RevisionSpec} {s : String} (h : WrittenAs spec s) :
    parse s = .ok spec := by
  obtain ⟨hbefore, hmark, hword, hafter⟩ := h
  rename_i before mark word after
  have hne : mark ++ word ≠ [] := by
    refine List.append_ne_nil_of_right_ne_nil _ ?_
    rintro rfl
    exact spec.text_ne_nil hword.symm
  have hplain : ∀ c ∈ mark ++ word, isBlank c = false := fun c hc =>
    ((List.mem_append.1 hc).elim (hmark.isWordChar c) (isWordChar_of_word hword c)).not_isBlank
  have htrim : trimChars (String.ofList (before ++ (mark ++ word) ++ after)).toList = mark ++ word := by
    rw [String.toList_ofList, trimChars_append hbefore hafter hne hplain]
  rw [parse]
  simp only [htrim]
  by_cases hkeyword : spec ∈ keywords
  · obtain rfl : mark = [] := by
      cases hmark with
      | nothing => rfl
      | small n => exact absurd hkeyword (by simp [keywords])
      | capital n => exact absurd hkeyword (by simp [keywords])
    rw [List.nil_append, number?_word hkeyword hword, keyword?_word hkeyword hword]
  · obtain ⟨n, rfl⟩ : ∃ n, spec = number n := by
      cases spec with
      | number n => exact ⟨n, rfl⟩
      | head | base | committed | prev | working => exact absurd (by decide) hkeyword
    have hdigits : word = Nat.toDigits 10 n.toNat := by
      rw [text_number_toList] at hword
      rw [← hword]
      refine ((List.map_congr_left fun c hc => ?_).trans (List.map_id _)).symm
      refine toUpper_eq_of_isDigit_toUpper (isDigit_of_mem_toDigits (n := n.toNat) ?_)
      rw [← hword]
      exact List.mem_map_of_mem hc
    rw [hdigits, number?_toDigits hmark]

end RevisionSpec

namespace CommandLine

open RevisionSpec

theorem readWord_of_waiting {l : Level} {r : Reading} {o : OptionSpec} {word : String}
    (hr : r.waiting? = some o) (h : word.toList.head? ≠ some '-') :
    l.readWord r word = .ok { r with pending := some (o, some word) } := by
  have hdash : ∀ cs, word.toList ≠ '-' :: cs := fun cs hcs => h (by rw [hcs, List.head?_cons])
  unfold Level.readWord
  split
  · exact absurd ‹_› (hdash _)
  · exact absurd ‹_› (hdash _)
  · exact absurd ‹_› (hdash _)
  · rw [hr]

theorem readLevel_revision {word : String} (h : word.toList.head? ≠ some '-') :
    readLevel diffLevel ["-r", word] = .ok ⟨[("revision", word)], [], none, false⟩ := by
  change ((diffLevel.readWord ⟨[], [], some (valueOption "revision" (some 'r'), none), false⟩ word).bind
    fun r => diffLevel.read r []).bind _ = _
  rw [readWord_of_waiting rfl h]
  rfl

theorem parse_revision {word : String} (h : word.toList.head? ≠ some '-') :
    ∃ common arguments, Arguments.parse ["diff", "-r", word] = .ok ⟨common, .diff arguments⟩ ∧
      arguments.revision = some word ∧ arguments.change = none := by
  have hparse : Arguments.parse ["diff", "-r", word] = (readLevel diffLevel ["-r", word]).bind fun inner =>
      .ok ⟨commonOf .start inner, .diff (diffArguments inner)⟩ := rfl
  rw [readLevel_revision h] at hparse
  exact ⟨_, _, hparse, rfl, rfl⟩

variable {spec a b : RevisionSpec} {s t : String}

theorem readRevision_of_writtenAs (h : WrittenAs spec s) : readRevision s = .ok spec := by
  rw [readRevision, h.parse_eq]
  rfl

theorem revisionRange_of_writtenAs (hs : WrittenAs a s) (ht : WrittenAs b t) {arguments : DiffArguments}
    (hrevision : arguments.revision = some (s ++ ":" ++ t)) (hchange : arguments.change = none) :
    revisionRange arguments = .ok (some a, some b) := by
  have hcolon : ':' ∉ s.toList := fun hc => absurd (hs.isBlank_or _ hc) (by decide)
  have hcut : Text.cutFirst ':' (s ++ ":" ++ t) = some (s, t) := Text.cutFirst_append hcolon t
  simp only [revisionRange, hrevision, hchange, hcut, readRevision_of_writtenAs hs,
    readRevision_of_writtenAs ht]
  rfl

theorem head?_range_ne (hs : WrittenAs a s) (t : String) : (s ++ ":" ++ t).toList.head? ≠ some '-' := by
  intro hhead
  have hchars : (s ++ ":" ++ t).toList = s.toList ++ ':' :: t.toList := by simp
  rw [hchars] at hhead
  cases hcs : s.toList with
  | nil => simp [hcs] at hhead
  | cons c cs =>
    obtain rfl : c = '-' := by simpa [hcs] using hhead
    exact absurd (hs.isBlank_or '-' (hcs ▸ List.mem_cons_self)) (by decide)

theorem parsePeg_of_writtenAs {text : String} {cwd : Path} {target : Target}
    (htarget : Target.parse text cwd = .ok target) (hs : WrittenAs spec s) :
    parsePeg (text ++ "@" ++ s) cwd = .ok (text, ⟨target, spec⟩) := by
  have hat : '@' ∉ s.toList := fun hc => absurd (hs.isBlank_or _ hc) (by decide)
  have hcut : Text.cutLast '@' (text ++ "@" ++ s) = some (text, s) := Text.cutLast_append hat text
  simp only [parsePeg, hcut, readRevision_of_writtenAs hs, readTarget, htarget]
  rfl

/-- A revision is read however it is written, its own text being one way, and so are two of them in a
range and one that is pegged to a target. -/
theorem revisions_as_written :
    (∀ spec, WrittenAs spec spec.text) ∧
    (∀ spec s, WrittenAs spec s → RevisionSpec.parse s = .ok spec) ∧
    (∀ a b s t, WrittenAs a s → WrittenAs b t →
      (∀ arguments : DiffArguments, arguments.revision = some (s ++ ":" ++ t) → arguments.change = none →
        revisionRange arguments = .ok (some a, some b)) ∧
      ∃ common arguments, Arguments.parse ["diff", "-r", s ++ ":" ++ t] = .ok ⟨common, .diff arguments⟩ ∧
        revisionRange arguments = .ok (some a, some b)) ∧
    ∀ text cwd target, Target.parse text cwd = .ok target → ∀ spec s, WrittenAs spec s →
      parsePeg (text ++ "@" ++ s) cwd = .ok (text, ⟨target, spec⟩) := by
  refine ⟨writtenAs_text, fun _ _ hs => hs.parse_eq, fun a b s t hs ht => ⟨?_, ?_⟩, ?_⟩
  · exact fun _ hrevision hchange => revisionRange_of_writtenAs hs ht hrevision hchange
  · obtain ⟨common, arguments, hparse, hrevision, hchange⟩ := parse_revision (head?_range_ne hs t)
    exact ⟨common, arguments, hparse, revisionRange_of_writtenAs hs ht hrevision hchange⟩
  · exact fun _ _ _ htarget _ _ hs => parsePeg_of_writtenAs htarget hs

theorem revisions_as_written_mixed :
    RevisionSpec.parse " R42\t" = .ok (.number 42) ∧
      (∃ common arguments, Arguments.parse ["diff", "-r", " R42\t:bAsE"] = .ok ⟨common, .diff arguments⟩ ∧
        revisionRange arguments = .ok (some (.number 42), some .base)) ∧
      Target.parse "^/a@HEAD" .root = .ok (.repository (Path.root.child ⟨"a@HEAD", Eq.refl true⟩)) ∧
      parsePeg "^/a@HEAD@bAsE" .root =
        .ok ("^/a@HEAD", ⟨.repository (Path.root.child ⟨"a@HEAD", Eq.refl true⟩), .base⟩) := by
  have hnumber : WrittenAs (.number 42) " R42\t" :=
    @WrittenAs.intro _ [' '] _ ['4', '2'] ['\t'] (List.forall_mem_singleton.2 (by decide)) (.capital 42)
      (by decide +kernel) (List.forall_mem_singleton.2 (by decide))
  have hbase : WrittenAs .base "bAsE" :=
    @WrittenAs.intro _ [] _ ['b', 'A', 's', 'E'] [] (by simp) (.nothing .base) (by decide) (by simp)
  have htarget : Target.parse "^/a@HEAD" .root =
      .ok (.repository (Path.root.child ⟨"a@HEAD", Eq.refl true⟩)) := by rfl
  obtain ⟨-, hread, hrange, hpeg⟩ := revisions_as_written
  exact ⟨hread _ _ hnumber, (hrange _ _ _ _ hnumber hbase).2, htarget, hpeg _ _ _ htarget _ _ hbase⟩

end CommandLine

end TreeDelta
