import Mathlib.Data.List.Forall2
import TreeDelta.Proofs.Alignment.Mirror
import TreeDelta.Proofs.LineKey
set_option autoImplicit false

/-!
# Hunks in a mirror

The difference of two texts, read from the new one to the old one: the ranges of
every hunk trade places, and so do its deleted and added lines. That is the
difference of the texts the other way round (`diffLines_swap`), except that a
kept line is then the one of the other text.

Deletions come before additions in every stretch of changes, so such a stretch
has to be read to its end before it can be turned round (`exchangeFrom`).
-/
namespace TreeDelta

open TreeDelta.Alignment

/-- Exchanges the deleted and the added lines. Those of the stretch of changes read so far have
been taken out. -/
def exchangeFrom (deleted added : List Line) : List HunkLine → List HunkLine
  | [] => markAll .deleted added ++ markAll .added deleted
  | ⟨.context, l⟩ :: ls =>
    markAll .deleted added ++ (markAll .added deleted ++ ⟨.context, l⟩ :: exchangeFrom [] [] ls)
  | ⟨.deleted, l⟩ :: ls => exchangeFrom (deleted ++ [l]) added ls
  | ⟨.added, l⟩ :: ls => exchangeFrom deleted (added ++ [l]) ls

def exchange (ls : List HunkLine) : List HunkLine := exchangeFrom [] [] ls

def Hunk.mirror (h : Hunk) : Hunk where
  oldStart := h.newStart
  oldLen := h.newLen
  newStart := h.oldStart
  newLen := h.oldLen
  lines := exchange h.lines

def TextDiff.mirror (d : TextDiff) : TextDiff := ⟨d.hunks.map Hunk.mirror⟩

theorem exchangeFrom_deleted (deleted added ds : List Line) (ls : List HunkLine) :
    exchangeFrom deleted added (markAll .deleted ds ++ ls) = exchangeFrom (deleted ++ ds) added ls := by
  induction ds generalizing deleted with
  | nil => simp [markAll]
  | cons d ds ih =>
    rw [List.append_cons, ← ih]
    rfl

theorem exchangeFrom_added (deleted added as : List Line) (ls : List HunkLine) :
    exchangeFrom deleted added (markAll .added as ++ ls) = exchangeFrom deleted (added ++ as) ls := by
  induction as generalizing added with
  | nil => simp [markAll]
  | cons a as ih =>
    rw [List.append_cons, ← ih]
    rfl

theorem exchange_context (cs : List Line) (ls : List HunkLine) :
    exchange (markAll .context cs ++ ls) = markAll .context cs ++ exchange ls := by
  induction cs with
  | nil => rfl
  | cons c cs ih => exact congrArg (List.cons _) ih

variable {o : Options} {exact : Bool} {old new : List Line}

/-- The line stands for another: a changed line for itself, a kept one for one that it counts as. -/
structure HunkLine.Matches (R : Line → Line → Prop) (x y : HunkLine) : Prop where
  mark : x.mark = y.mark
  kept : x.mark = .context → R x.line y.line
  changed : x.mark ≠ .context → x.line = y.line

structure Hunk.Mirrors (R : Line → Line → Prop) (h h' : Hunk) : Prop where
  oldStart : h'.oldStart = h.newStart
  oldLen : h'.oldLen = h.newLen
  newStart : h'.newStart = h.oldStart
  newLen : h'.newLen = h.oldLen
  lines : List.Forall₂ (HunkLine.Matches R) (exchange h.lines) h'.lines

section Blocks

variable {R : Line → Line → Prop}

theorem matches_change (deleted added : List Line) :
    List.Forall₂ (HunkLine.Matches R) (markAll .deleted deleted ++ markAll .added added)
      (markAll .deleted deleted ++ markAll .added added) := by
  refine List.forall₂_same.2 fun x hx => ⟨rfl, fun hmark => ?_, fun _ => rfl⟩
  rcases List.mem_append.1 hx with hx | hx
  · obtain ⟨l, -, rfl⟩ := List.mem_map.1 hx
    cases hmark
  · obtain ⟨l, -, rfl⟩ := List.mem_map.1 hx
    cases hmark

theorem matches_context {os ns : List Line} (h : List.Forall₂ R os ns) :
    List.Forall₂ (HunkLine.Matches R) (markAll .context os) (markAll .context ns) := by
  rw [markAll, markAll, List.forall₂_map_left_iff, List.forall₂_map_right_iff]
  exact h.imp fun _ _ hR => ⟨rfl, fun _ => hR, fun hmark => absurd rfl hmark⟩

/-- Stretches of lines that count as the same stand for each other line by line. -/
def KeptStandsFor (o : Options) (R : Line → Line → Prop) (old new : List Line) : Prop :=
  ∀ i j len, SameKeys o (slice old i len) (slice new j len) →
    List.Forall₂ R (slice old i len) (slice new j len)

theorem head?_markAll_append {mark : Mark} {xs : List Line} (hne : xs ≠ []) (ls : List HunkLine) :
    ∀ x ∈ (markAll mark xs ++ ls).head?, x.mark = mark := by
  cases xs with
  | nil => exact absurd rfl hne
  | cons x xs => simp [markAll]

theorem exchange_append_same (hkept : KeptStandsFor o R old new) {i j len : Nat}
    (hlen : Agree (old.map (Line.key o)) (new.map (Line.key o)) i j len) {ls ls' : List HunkLine}
    (hls : List.Forall₂ (HunkLine.Matches R) (exchange ls) ls') :
    List.Forall₂ (HunkLine.Matches R) (exchange (blockLines old new (.same i j len) ++ ls))
      (blockLines new old (.same j i len) ++ ls') := by
  rw [blockLines, exchange_context]
  exact List.rel_append (matches_context (hkept i j len hlen.sameKeys)) hls

/-- The stretch of changes is read to its end: nothing but context may follow it. -/
theorem exchange_append_change (old new : List Line) (a oldLen b newLen : Nat) {ls ls' : List HunkLine}
    (hnext : ∀ x ∈ ls.head?, x.mark = .context)
    (hls : List.Forall₂ (HunkLine.Matches R) (exchange ls) ls') :
    List.Forall₂ (HunkLine.Matches R) (exchange (blockLines old new (.change a oldLen b newLen) ++ ls))
      (blockLines new old (.change b newLen a oldLen) ++ ls') := by
  have hread : ∀ deleted added : List Line, exchangeFrom deleted added ls =
      markAll .deleted added ++ markAll .added deleted ++ exchange ls := by
    intro deleted added
    cases ls with
    | nil => simp [exchange, exchangeFrom, markAll]
    | cons x ls =>
      obtain ⟨mark, l⟩ := x
      obtain rfl : mark = .context := hnext _ rfl
      simp [exchange, exchangeFrom, markAll]
  rw [blockLines, List.append_assoc, exchange, exchangeFrom_deleted, exchangeFrom_added, hread]
  exact List.rel_append (matches_change _ _) hls

section Groups

variable {i j k l : Nat} {bs : List Block} {ls ls' : List HunkLine}

theorem Alignment.Margin.exchange_lines (hkept : KeptStandsFor o R old new) {p : Nat} (h : Margin p bs)
    (htrace : BlockTrace exact (old.map (Line.key o)) (new.map (Line.key o)) i j bs k l)
    (hls : List.Forall₂ (HunkLine.Matches R) (exchange ls) ls') :
    List.Forall₂ (HunkLine.Matches R) (exchange (bs.flatMap (blockLines old new) ++ ls))
      ((bs.map Block.swap).flatMap (blockLines new old) ++ ls') := by
  cases h with
  | none => exact hls
  | kept =>
    cases htrace with
    | same hagree => simpa [Block.swap] using exchange_append_same hkept hagree hls

theorem Alignment.Joined.exchange_lines (hkept : KeptStandsFor o R old new) {m : Nat} (h : Joined m bs)
    (htrace : BlockTrace exact (old.map (Line.key o)) (new.map (Line.key o)) i j bs k l)
    (hnext : ∀ x ∈ ls.head?, x.mark = .context)
    (hls : List.Forall₂ (HunkLine.Matches R) (exchange ls) ls') :
    List.Forall₂ (HunkLine.Matches R) (exchange (bs.flatMap (blockLines old new) ++ ls))
      ((bs.map Block.swap).flatMap (blockLines new old) ++ ls') := by
  induction h generalizing i j with
  | change => simpa [Block.swap] using exchange_append_change old new _ _ _ _ hnext hls
  | @cons a oldLen b newLen _ _ len bs _ hlen _ _ ih =>
    cases htrace with
    | change _ _ _ _ htrace =>
      cases htrace with
      | same hagree htrace =>
        have hrest := exchange_append_same hkept hagree (ih htrace)
        have hcs : slice old (i + oldLen) len ≠ [] := by
          have hold := hagree.old_le
          rw [List.length_map] at hold
          rw [← List.length_pos_iff, length_slice hold]
          omega
        have hkeptNext : ∀ x ∈ (blockLines old new (.same (i + oldLen) (j + newLen) len) ++
            (bs.flatMap (blockLines old new) ++ ls)).head?, x.mark = .context :=
          head?_markAll_append hcs _
        simpa [Block.swap] using exchange_append_change old new a oldLen b newLen hkeptNext hrest

theorem Alignment.Cluster.exchange_lines (hkept : KeptStandsFor o R old new) {m p q : Nat}
    (h : Cluster m p q bs)
    (htrace : BlockTrace exact (old.map (Line.key o)) (new.map (Line.key o)) i j bs k l) :
    List.Forall₂ (HunkLine.Matches R) (exchange (bs.flatMap (blockLines old new)))
      ((bs.map Block.swap).flatMap (blockLines new old)) := by
  cases h with
  | @mk lead body trail hlead hbody htrail =>
    obtain ⟨_, _, hleadTrace, hrest⟩ := blockTrace_append_iff.1 htrace
    obtain ⟨_, _, hbodyTrace, htrailTrace⟩ := blockTrace_append_iff.1 hrest
    have hnext : ∀ x ∈ (trail.flatMap (blockLines old new) ++ []).head?, x.mark = .context := by
      obtain ⟨cs, hcs, -⟩ := htrail.lines htrailTrace
      rw [hcs]
      cases cs <;> simp [markAll]
    have hlines := hlead.exchange_lines hkept hleadTrace <|
      hbody.exchange_lines hkept hbodyTrace hnext (htrail.exchange_lines hkept htrailTrace .nil)
    simpa using hlines

end Groups

theorem hunkOf?_map_swap {g : List Block}
    (h : List.Forall₂ (HunkLine.Matches R) (exchange (g.flatMap (blockLines old new)))
      ((g.map Block.swap).flatMap (blockLines new old))) :
    Option.Rel (Hunk.Mirrors R) (hunkOf? old new g) (hunkOf? new old (g.map Block.swap)) := by
  rw [hunkOf?, hunkOf?, List.head?_map, List.getLast?_map]
  cases g.head? with
  | none => exact .none
  | some first =>
    cases g.getLast? with
    | none => exact .none
    | some last => cases first <;> cases last <;> exact .some ⟨rfl, rfl, rfl, rfl, h⟩

theorem Alignment.Clusters.mem {α : Type} {old new : List α} {n i j : Nat} {gs : List (List Block)}
    (h : Clusters exact n old new i j gs) {g : List Block} (hg : g ∈ gs) :
    ∃ p q i j k l, Cluster (2 * n) p q g ∧ BlockTrace exact old new i j g k l := by
  induction h with
  | done => cases hg
  | group _ _ htrace hcluster _ _ _ _ _ ih =>
    rcases List.mem_cons.1 hg with rfl | hg
    · exact ⟨_, _, _, _, _, _, hcluster, htrace⟩
    · exact ih hg

theorem hunksOf_mirrors (hkept : KeptStandsFor o R old new) (n : Nat) {bs : List Block} (hturns : InTurn bs)
    (h : BlockTrace exact (old.map (Line.key o)) (new.map (Line.key o)) 0 0 bs
      (old.map (Line.key o)).length (new.map (Line.key o)).length) :
    List.Forall₂ (Hunk.Mirrors R) (hunksOf n old new bs) (hunksOf n new old (bs.map Block.swap)) := by
  have hall : ∀ g ∈ groups n bs,
      Option.Rel (Hunk.Mirrors R) (hunkOf? old new g) (hunkOf? new old (g.map Block.swap)) := by
    intro g hg
    obtain ⟨p, q, i, j, k, l, hcluster, htrace⟩ := (groups_clusters hturns h).mem hg
    exact hunkOf?_map_swap (hcluster.exchange_lines hkept htrace)
  rw [hunksOf, hunksOf, groups_map_swap, List.filterMap_map]
  exact List.rel_filterMap (fun _ _ hrel => hrel) (List.forall₂_same.2 hall)

theorem diffLines_mirrors {old new : Bytes} (hkept : KeptStandsFor o R (splitLines old) (splitLines new)) :
    List.Forall₂ (Hunk.Mirrors R) (diffLines o old new).hunks (diffLines o new old).hunks := by
  rw [diffLines_eq, diffLines_eq]
  by_cases hkeys : lineKeys o old = lineKeys o new
  · rw [if_pos hkeys, if_pos hkeys.symm]
    exact .nil
  · rw [if_neg hkeys, if_neg (Ne.symm hkeys), align_comm hkeys]
    exact hunksOf_mirrors hkept o.contextLines (align_inTurn _ _) (align_trace _ _)

end Blocks

def linesOf (mark : Mark) (ls : List HunkLine) : List Line :=
  (ls.filter (·.mark == mark)).map HunkLine.line

@[simp]
theorem linesOf_nil (mark : Mark) : linesOf mark [] = [] := rfl

@[simp]
theorem linesOf_append (mark : Mark) (xs ys : List HunkLine) :
    linesOf mark (xs ++ ys) = linesOf mark xs ++ linesOf mark ys := by
  simp [linesOf]

@[simp]
theorem linesOf_markAll (mark mark' : Mark) (ls : List Line) :
    linesOf mark (markAll mark' ls) = if mark' = mark then ls else [] := by
  split <;> simp [linesOf, markAll, List.filter_map, Function.comp_def, *]

@[simp]
theorem linesOf_cons (mark : Mark) (x : HunkLine) (xs : List HunkLine) :
    linesOf mark (x :: xs) = if x.mark = mark then x.line :: linesOf mark xs else linesOf mark xs := by
  split <;> simp [linesOf, *]

theorem exchangeFrom_linesOf (deleted added : List Line) (ls : List HunkLine) :
    linesOf .deleted (exchangeFrom deleted added ls) = added ++ linesOf .added ls ∧
      linesOf .added (exchangeFrom deleted added ls) = deleted ++ linesOf .deleted ls ∧
      linesOf .context (exchangeFrom deleted added ls) = linesOf .context ls := by
  fun_induction exchangeFrom deleted added ls with
  | case1 => simp
  | case2 => simp [*]
  | case3 => simp [*]
  | case4 => simp [*]

theorem length_linesOf (mark : Mark) (ls : List HunkLine) :
    (linesOf mark ls).length = ls.countP fun l => l.mark == mark := by
  rw [linesOf, List.length_map, List.countP_eq_length_filter]

section Swap

variable {R : Line → Line → Prop}

theorem linesOf_eq_of_matches {xs ys : List HunkLine} (h : List.Forall₂ (HunkLine.Matches R) xs ys)
    {mark : Mark} (hmark : mark ≠ .context) : linesOf mark xs = linesOf mark ys := by
  induction h with
  | nil => rfl
  | @cons x y xs ys hxy _ ih =>
    rw [linesOf_cons, linesOf_cons, ih, hxy.mark]
    split
    · rename_i hy
      rw [hxy.changed (by rwa [hxy.mark, hy])]
    · rfl

theorem linesOf_context_of_matches {xs ys : List HunkLine}
    (h : List.Forall₂ (HunkLine.Matches R) xs ys) :
    List.Forall₂ R (linesOf .context xs) (linesOf .context ys) := by
  induction h with
  | nil => exact .nil
  | @cons x y xs ys hxy _ ih =>
    rw [linesOf_cons, linesOf_cons, hxy.mark]
    split
    · rename_i hy
      exact .cons (hxy.kept (hxy.mark.trans hy)) ih
    · exact ih

structure Hunk.Reverses (R : Line → Line → Prop) (h h' : Hunk) : Prop extends h.Mirrors R h' where
  deleted : linesOf .deleted h'.lines = linesOf .added h.lines
  added : linesOf .added h'.lines = linesOf .deleted h.lines
  context : List.Forall₂ R (linesOf .context h.lines) (linesOf .context h'.lines)

theorem Hunk.Mirrors.reverses {h h' : Hunk} (hm : h.Mirrors R h') : h.Reverses R h' := by
  obtain ⟨hdeleted, hadded, hcontext⟩ := exchangeFrom_linesOf [] [] h.lines
  have hlines := linesOf_context_of_matches hm.lines
  rw [exchange, hcontext] at hlines
  exact ⟨hm, (linesOf_eq_of_matches hm.lines (by decide)).symm.trans hdeleted,
    (linesOf_eq_of_matches hm.lines (by decide)).symm.trans hadded, hlines⟩

theorem TextDiff.count_cons (h : Hunk) (hs : List Hunk) (mark : Mark) :
    (TextDiff.mk (h :: hs)).count mark = (linesOf mark h.lines).length + (TextDiff.mk hs).count mark := by
  rw [count, count, List.flatMap_cons, List.countP_append, length_linesOf]

theorem additions_deletions_of_reverses {hs hs' : List Hunk} (h : List.Forall₂ (Hunk.Reverses R) hs hs') :
    (TextDiff.mk hs').additions = (TextDiff.mk hs).deletions ∧
      (TextDiff.mk hs').deletions = (TextDiff.mk hs).additions := by
  unfold TextDiff.additions TextDiff.deletions
  induction h with
  | nil => exact ⟨rfl, rfl⟩
  | cons hh _ ih =>
    simp only [TextDiff.count_cons]
    rw [hh.deleted, hh.added, ih.1, ih.2]
    exact ⟨rfl, rfl⟩

end Swap

theorem HunkLine.Matches.eq {x y : HunkLine} (h : x.Matches Eq y) : x = y := by
  obtain ⟨mark, line⟩ := x
  obtain ⟨mark', line'⟩ := y
  obtain ⟨hmark, hkept, hchanged⟩ := h
  dsimp only at hmark hkept hchanged
  rw [hmark] at hkept hchanged ⊢
  by_cases hcontext : mark' = .context
  · rw [hkept hcontext]
  · rw [hchanged hcontext]

theorem Hunk.Mirrors.eq_mirror {h h' : Hunk} (hm : h.Mirrors Eq h') : h' = h.mirror := by
  have hlines := hm.lines.imp fun _ _ => HunkLine.Matches.eq
  rw [List.forall₂_eq_eq_eq] at hlines
  rw [mirror, hlines, ← hm.oldStart, ← hm.oldLen, ← hm.newStart, ← hm.newLen]

theorem keptStandsFor_key (o : Options) (old new : List Line) :
    KeptStandsFor o (fun l l' => l.key o = l'.key o) old new := by
  intro i j len h
  rwa [SameKeys, ← List.forall₂_eq_eq_eq, List.forall₂_map_left_iff, List.forall₂_map_right_iff] at h

theorem keptStandsFor_eq (hspace : o.ignoreSpace = .none) (heol : o.ignoreEolStyle = false)
    (old new : Bytes) : KeptStandsFor o Eq (splitLines old) (splitLines new) := by
  intro i j len h
  have hplain : ∀ (data : Bytes) (i : Nat), ∀ l ∈ slice (splitLines data) i len, IsPlainText l.text :=
    fun data _ l hl => splitLines_isPlain data l (mem_of_mem_slice hl)
  refine ((sameKeys_iff (hplain old i) (hplain new j)).1 h).imp fun l l' hcounted => ?_
  rwa [Line.counted_eq_self hspace heol, Line.counted_eq_self hspace heol] at hcounted

theorem diffLines_mirror (hspace : o.ignoreSpace = .none) (heol : o.ignoreEolStyle = false)
    (old new : Bytes) : diffLines o new old = (diffLines o old new).mirror := by
  have hhunks := (diffLines_mirrors (keptStandsFor_eq hspace heol old new)).imp
    fun h h' hm => (show h.mirror = h' from hm.eq_mirror.symm)
  rw [← List.forall₂_map_left_iff (f := Hunk.mirror), List.forall₂_eq_eq_eq] at hhunks
  exact congrArg TextDiff.mk hhunks.symm

/-- The difference the other way round is the same hunks reversed. A line kept by both counts as
the same, and is the same where the options look at every byte. -/
theorem diffLines_swap (o : Options) (old new : Bytes) :
    List.Forall₂ (Hunk.Reverses fun l l' => l.key o = l'.key o)
        (diffLines o old new).hunks (diffLines o new old).hunks ∧
      (diffLines o new old).additions = (diffLines o old new).deletions ∧
      (diffLines o new old).deletions = (diffLines o old new).additions ∧
      (o.ignoreSpace = .none → o.ignoreEolStyle = false →
        List.Forall₂ (Hunk.Reverses Eq) (diffLines o old new).hunks (diffLines o new old).hunks) := by
  have hkeys := (diffLines_mirrors (keptStandsFor_key o (splitLines old) (splitLines new))).imp
    fun _ _ => Hunk.Mirrors.reverses
  obtain ⟨hadditions, hdeletions⟩ := additions_deletions_of_reverses hkeys
  refine ⟨hkeys, hadditions, hdeletions, fun hspace heol => ?_⟩
  exact (diffLines_mirrors (keptStandsFor_eq hspace heol old new)).imp fun _ _ => Hunk.Mirrors.reverses

theorem diffLines_swap_twoAlignments :
    let old : Bytes := [120, 10, 121, 10]
    let new : Bytes := [121, 10, 120, 10]
    (diffLines .default old new).hunks.flatMap (linesOf .context ·.lines) = [⟨[120], some .lf⟩] ∧
      List.Forall₂ (Hunk.Reverses Eq) (diffLines .default old new).hunks
        (diffLines .default new old).hunks := by
  intro old new
  exact ⟨by decide, (diffLines_swap .default old new).2.2.2 rfl rfl⟩

end TreeDelta
