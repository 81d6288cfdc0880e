import TreeDelta.Proofs.Alignment.Group
import TreeDelta.Proofs.ContextRuns
import TreeDelta.Proofs.Edits
set_option autoImplicit false

/-!
# Hunks as excerpts

The hunks of two texts cut both into gaps and stretches (`Excerpts`), whatever the
alignment, and the ranges of a hunk with context on both sides name its places.
Those of any other hunk do so if the alignment gives all its places
(`AlignsExactly`).
-/
namespace TreeDelta

open TreeDelta.Alignment

variable {o : Options} {exact : Bool}

structure Hunk.IsAt (h : Hunk) (i m j n : Nat) : Prop where
  oldLen : h.oldLen = m
  newLen : h.newLen = n
  oldStart : h.oldStart = if m = 0 then i else i + 1
  newStart : h.newStart = if n = 0 then j else j + 1

def Hunk.HasContext (h : Hunk) : Prop := leadingContext h.lines ≠ 0 ∧ trailingContext h.lines ≠ 0

/-- Hunks cut out of two texts, `i` and `j` lines into them. Nothing is hidden before a hunk only at
the start of both texts, and a hunk has less context than asked for only where both texts end. The
headers of hunks with context on both sides give the places, and with `exact` those of all. -/
inductive Excerpts (o : Options) (exact : Bool) :
    Nat → Nat → List Hunk → List Line → List Line → Prop
  | done {i j : Nat} {gap gap' : List Line} (h : SameKeys o gap gap') : Excerpts o exact i j [] gap gap'
  | hunk {i j : Nat} {hunk : Hunk} {hunks : List Hunk} {gap gap' os ns rest rest' : List Line}
      (hgap : SameKeys o gap gap') (hhidden : gap = [] → i = 0 ∧ j = 0)
      (hlines : Edits o hunk.lines os ns) (hshape : ShapedLines o.contextLines hunk.lines)
      (hstart : leadingContext hunk.lines < o.contextLines → i = 0 ∧ j = 0 ∧ gap = [])
      (hend : trailingContext hunk.lines < o.contextLines → rest = [] ∧ rest' = [])
      (hat : exact = true ∨ hunk.HasContext →
        hunk.IsAt (i + gap.length) os.length (j + gap'.length) ns.length)
      (tail : Excerpts o exact (i + gap.length + os.length) (j + gap'.length + ns.length) hunks rest rest') :
    Excerpts o exact i j (hunk :: hunks) (gap ++ (os ++ rest)) (gap' ++ (ns ++ rest'))

section Blocks

variable {old new : List Line}

theorem Alignment.Joined.changedLines {m : Nat} {bs : List Block} (h : Joined m bs) {i j k l : Nat}
    (htrace : BlockTrace exact (old.map (Line.key o)) (new.map (Line.key o)) i j bs k l) :
    ChangedLines m (bs.flatMap (blockLines old new)) := by
  have hchanged : ∀ {i j a oldLen b newLen : Nat}, i + oldLen ≤ old.length → j + newLen ≤ new.length →
      (oldLen ≠ 0 → a = i) → (newLen ≠ 0 → b = j) → oldLen ≠ 0 ∨ newLen ≠ 0 →
      slice old a oldLen ++ slice new b newLen ≠ [] := by
    intro i j a oldLen b newLen hi hj ha hb hchange hnil
    have hlengths := congrArg List.length hnil
    rw [slice_of_start old ha, slice_of_start new hb, List.length_append, length_slice hi,
      length_slice hj, List.length_nil] at hlengths
    omega
  induction h generalizing i j with
  | change hchange =>
    cases htrace with
    | change hi hj ha hb =>
      rw [List.length_map] at hi hj
      have hne := hchanged hi hj (fun h => ha (.inr h)) (fun h => hb (.inr h)) hchange
      simpa [blockLines] using ChangedLines.change hne
  | cons hchange hlen hle _ ih =>
    cases htrace with
    | change hi hj ha hb htrace =>
      cases htrace with
      | same hagree htrace =>
        have hold := hagree.old_le
        rw [List.length_map] at hi hj hold
        have hne := hchanged hi hj (fun h => ha (.inr h)) (fun h => hb (.inr h)) hchange
        refine .cons hne ?_ ?_ (ih htrace)
        · rw [← List.length_pos_iff, length_slice hold]
          omega
        · rwa [length_slice hold]

theorem Alignment.Margin.lines {p : Nat} {bs : List Block} (h : Margin p bs) {i j k l : Nat}
    (htrace : BlockTrace exact (old.map (Line.key o)) (new.map (Line.key o)) i j bs k l) :
    ∃ cs, bs.flatMap (blockLines old new) = markAll .context cs ∧ cs.length = p := by
  cases h with
  | none => exact ⟨[], rfl, rfl⟩
  | kept =>
    cases htrace with
    | same hagree =>
      have hold := hagree.old_le
      rw [List.length_map] at hold
      exact ⟨slice old i p, by simp [blockLines], length_slice hold⟩

theorem Alignment.Cluster.shapedLines {n p q : Nat} {g : List Block} (h : Cluster (2 * n) p q g)
    (hp : p ≤ n) (hq : q ≤ n) {i j k l : Nat}
    (htrace : BlockTrace exact (old.map (Line.key o)) (new.map (Line.key o)) i j g k l) :
    ShapedLines n (g.flatMap (blockLines old new)) ∧
      leadingContext (g.flatMap (blockLines old new)) = p ∧
      trailingContext (g.flatMap (blockLines old new)) = q := by
  cases h with
  | @mk lead body trail hlead hbody htrail =>
    obtain ⟨_, _, hleadTrace, hrest⟩ := blockTrace_append_iff.1 htrace
    obtain ⟨_, _, hbodyTrace, htrailTrace⟩ := blockTrace_append_iff.1 hrest
    obtain ⟨cs, hcs, rfl⟩ := hlead.lines hleadTrace
    obtain ⟨cs', hcs', rfl⟩ := htrail.lines htrailTrace
    have hchanged := hbody.changedLines hbodyTrace
    rw [List.flatMap_append, List.flatMap_append, hcs, hcs']
    exact ⟨hchanged.shapedLines hp hq, leadingContext_markAll cs hchanged.startsChanged,
      hchanged.trailingContext_eq cs cs'⟩

theorem hunkOf?_of_cluster {m p q : Nat} {g : List Block} (hcluster : Cluster m p q g) {i j k l : Nat}
    (h : BlockTrace exact (old.map (Line.key o)) (new.map (Line.key o)) i j g k l) :
    ∃ hunk, hunkOf? old new g = some hunk ∧ hunk.lines = g.flatMap (blockLines old new) ∧
      (exact = true ∨ p ≠ 0 ∧ q ≠ 0 → hunk.IsAt i (k - i) j (l - j)) := by
  obtain ⟨first, bs, last, rfl, hlast, hp, hq⟩ := hcluster.ends
  refine ⟨{ oldStart := headerStart first.old (last.oldEnd - first.old)
            oldLen := last.oldEnd - first.old
            newStart := headerStart first.new (last.newEnd - first.new)
            newLen := last.newEnd - first.new
            lines := (first :: bs).flatMap (blockLines old new) }, ?_, rfl, fun hplaced => ?_⟩
  · simp only [hunkOf?, hlast, List.head?_cons]
  · have hstart := h.head_placed (hplaced.imp_right fun h => hp h.1)
    have hend := h.getLast_placed hlast (hplaced.imp_right fun h => hq h.2)
    rw [hstart.1, hstart.2, hend.1, hend.2]
    exact ⟨rfl, rfl, rfl, rfl⟩

theorem Alignment.Clusters.excerpts {i j : Nat} {gs : List (List Block)}
    (h : Clusters exact o.contextLines (old.map (Line.key o)) (new.map (Line.key o)) i j gs) :
    Excerpts o exact i j (gs.filterMap (hunkOf? old new)) (old.drop i) (new.drop j) := by
  induction h with
  | @done i j len hgap hi hj =>
    rw [List.length_map] at hi hj
    have hsame := hgap.sameKeys
    rw [drop_eq_slice_append old i len, drop_eq_slice_append new j len, hi, hj]
    simpa using Excerpts.done hsame
  | @group i j len k l p q g gs hgap hhidden htrace hcluster hp hstart hq hend _ ih =>
    have ho := hgap.old_le
    have hn := hgap.new_le
    rw [List.length_map] at ho hn
    rw [List.length_map, List.length_map] at hend
    obtain ⟨hunk, hhunk, hlines, hat⟩ := hunkOf?_of_cluster hcluster htrace
    obtain ⟨hshape, hlead, htrail⟩ := hcluster.shapedLines hp hq htrace
    obtain ⟨os, ns, hedits, hold, hnew, rfl, rfl⟩ := htrace.edits
    rw [List.filterMap_cons_some hhunk, drop_eq_slice_append old i len, drop_eq_slice_append new j len,
      hold, hnew]
    rw [← hlines] at hedits hshape hlead htrail
    refine .hunk hgap.sameKeys ?_ hedits hshape ?_ ?_ ?_ ?_
    · intro hnil
      have hlen := congrArg List.length hnil
      rw [length_slice ho] at hlen
      exact hhidden hlen
    · intro hshort
      rw [hlead] at hshort
      have hzero := hstart hshort
      obtain rfl : len = 0 := by omega
      exact ⟨by omega, by omega, rfl⟩
    · intro hshort
      rw [htrail] at hshort
      rw [(hend hshort).1, (hend hshort).2, List.drop_length, List.drop_length]
      exact ⟨rfl, rfl⟩
    · rw [length_slice ho, length_slice hn, Hunk.HasContext, hlead, htrail]
      simpa using hat
    · rw [length_slice ho, length_slice hn]
      exact ih

end Blocks

namespace Hunk

def oldOffset (h : Hunk) : Nat := if h.oldLen = 0 then h.oldStart else h.oldStart - 1

def newOffset (h : Hunk) : Nat := if h.newLen = 0 then h.newStart else h.newStart - 1

end Hunk

/-- Both ranges of the first hunk end before those of the second, with a line between. -/
structure Hunk.Before (h h' : Hunk) : Prop where
  old : h.oldOffset + h.oldLen < h'.oldOffset
  new : h.newOffset + h.newLen < h'.newOffset

section Ranges

variable {i j : Nat} {hunks : List Hunk} {ls ls' : List Line}

theorem Hunk.IsAt.oldOffset_eq {h : Hunk} {i m j n : Nat} (hat : h.IsAt i m j n) : h.oldOffset = i := by
  unfold Hunk.oldOffset
  rw [hat.oldLen, hat.oldStart]
  split <;> omega

theorem Hunk.IsAt.newOffset_eq {h : Hunk} {i m j n : Nat} (hat : h.IsAt i m j n) : h.newOffset = j := by
  unfold Hunk.newOffset
  rw [hat.newLen, hat.newStart]
  split <;> omega

theorem Edits.nonempty {ls : List HunkLine} {os ns : List Line} (h : Edits o ls os ns) (hne : ls ≠ []) :
    0 < os.length + ns.length := by
  cases h with
  | nil => exact absurd rfl hne
  | context | deleted | added =>
    simp only [List.length_cons]
    omega

theorem Excerpts.lt_offset (h : Excerpts o exact i j hunks ls ls') (hstarted : 0 < i + j) :
    ∀ x ∈ hunks, exact = true ∨ x.HasContext → i < x.oldOffset ∧ j < x.newOffset := by
  induction h with
  | done => simp
  | @hunk i j hunk hunks gap gap' os ns rest rest' hgap hhidden hlines hshape hstart hend hat _ ih =>
    have hne : gap ≠ [] := fun hnil => by have := hhidden hnil; omega
    have hlen : gap.length = gap'.length := by simpa using congrArg List.length hgap
    have hpos := List.length_pos_iff.2 hne
    intro x hx hplaced
    rcases List.mem_cons.1 hx with rfl | hx
    · have hplace := hat hplaced
      rw [hplace.oldOffset_eq, hplace.newOffset_eq]
      omega
    · have hlater := ih (by omega) x hx hplaced
      omega

theorem Excerpts.pairwise (h : Excerpts o exact i j hunks ls ls') :
    hunks.Pairwise fun x y => exact = true ∨ x.HasContext → exact = true ∨ y.HasContext → x.Before y := by
  induction h with
  | done => exact .nil
  | @hunk i j hunk hunks gap gap' os ns rest rest' hgap hhidden hlines hshape hstart hend hat tail ih =>
    refine .cons (fun y hy hx hplaced => ?_) ih
    obtain ⟨l, hl, -⟩ := hshape.changed
    have hsome := hlines.nonempty (List.ne_nil_of_mem hl)
    have hlater := tail.lt_offset (by omega) y hy hplaced
    have hplace := hat hx
    refine ⟨?_, ?_⟩
    · rw [hplace.oldOffset_eq, hplace.oldLen]
      exact hlater.1
    · rw [hplace.newOffset_eq, hplace.newLen]
      exact hlater.2

end Ranges

theorem diffLines_excerpts_of_trace {old new : Bytes}
    (h : lineKeys o old ≠ lineKeys o new →
      BlockTrace exact (lineKeys o old) (lineKeys o new) 0 0 (align (lineKeys o old) (lineKeys o new))
        (lineKeys o old).length (lineKeys o new).length) :
    Excerpts o exact 0 0 (diffLines o old new).hunks (splitLines old) (splitLines new) := by
  rw [diffLines_eq]
  split
  · rename_i hkeys
    exact .done hkeys
  · rename_i hkeys
    exact (groups_clusters (align_inTurn _ _) (h hkeys)).excerpts

/-- The hunks are cut out of the texts with the asked lines of context, and their ranges follow
each other with something hidden between them. The ranges of a hunk that lacks context on one side
rest on the alignment being an edit script without gaps. -/
theorem diffLines_excerpts (o : Options) (old new : Bytes) :
    Excerpts o false 0 0 (diffLines o old new).hunks (splitLines old) (splitLines new) ∧
      ((diffLines o old new).hunks.Pairwise fun h h' => h.HasContext → h'.HasContext → h.Before h') ∧
      (AlignsExactly (lineKeys o old) (lineKeys o new) →
        Excerpts o true 0 0 (diffLines o old new).hunks (splitLines old) (splitLines new) ∧
          (diffLines o old new).hunks.Pairwise Hunk.Before) := by
  have hexcerpts : Excerpts o false 0 0 (diffLines o old new).hunks (splitLines old) (splitLines new) :=
    diffLines_excerpts_of_trace fun _ => align_trace _ _
  refine ⟨hexcerpts, ?_, fun halign => ?_⟩
  · exact hexcerpts.pairwise.imp fun h hx hy => h (.inr hx) (.inr hy)
  · have hplaced : Excerpts o true 0 0 (diffLines o old new).hunks (splitLines old) (splitLines new) :=
      diffLines_excerpts_of_trace fun _ => halign.isEditScript
    exact ⟨hplaced, hplaced.pairwise.imp fun h => h (.inl rfl) (.inl rfl)⟩

theorem diffLines_excerpts_twoHunks :
    let o : Options := { Options.default with contextLines := 1 }
    let old : Bytes := [97, 10, 98, 10, 99, 10, 100, 10, 101, 10, 102, 10, 103, 10]
    let new : Bytes := [97, 10, 66, 10, 99, 10, 100, 10, 101, 10, 70, 10, 103, 10]
    (diffLines o old new).hunks.map (fun h => (leadingContext h.lines, trailingContext h.lines)) =
        [(1, 1), (1, 1)] ∧
      AlignsExactly (lineKeys o old) (lineKeys o new) ∧
      Excerpts o true 0 0 (diffLines o old new).hunks (splitLines old) (splitLines new) ∧
      (diffLines o old new).hunks.Pairwise Hunk.Before := by
  intro o old new
  have hold : lineKeys o old = [[97, 10], [98, 10], [99, 10], [100, 10], [101, 10], [102, 10], [103, 10]] := by
    decide
  have hnew : lineKeys o new = [[97, 10], [66, 10], [99, 10], [100, 10], [101, 10], [70, 10], [103, 10]] := by
    decide
  have hblocks : alignInOrder (lineKeys o new) (lineKeys o old) =
      [.same 0 0 1, .change 1 1 1 1, .same 2 2 3, .change 5 1 5 1, .same 6 6 1] := by
    rw [hold, hnew]
    rfl
  have horder : (compare (lineKeys o old) (lineKeys o new)).isLE = false := by
    rw [hold, hnew]
    decide
  have hfirst : Agree (lineKeys o new) (lineKeys o old) 0 0 1 := ⟨by decide, by decide, by decide⟩
  have hmiddle : Agree (lineKeys o new) (lineKeys o old) 2 2 3 := ⟨by decide, by decide, by decide⟩
  have hlast : Agree (lineKeys o new) (lineKeys o old) 6 6 1 := ⟨by decide, by decide, by decide⟩
  have halign : AlignsExactly (lineKeys o old) (lineKeys o new) := by
    rw [AlignsExactly, if_neg (by rw [horder]; decide), hblocks]
    exact .same hfirst <| .change (by decide) (by decide) (fun _ => rfl) (fun _ => rfl) <|
      .same hmiddle <| .change (by decide) (by decide) (fun _ => rfl) (fun _ => rfl) <|
      .same hlast (.nil _ _)
  exact ⟨by decide, halign, (diffLines_excerpts o old new).2.2 halign⟩

/-- Without context the first hunk, which deletes line 1, says that it stands after the third new line,
and the second one, which inserts three lines, begins with the second new line. -/
theorem diffLines_not_before :
    let o : Options := { Options.default with contextLines := 0 }
    let old : Bytes := [49, 10, 50, 10]
    let new : Bytes := [50, 10, 50, 10, 50, 10, 50, 10]
    (diffLines o old new).hunks.map (fun h => (h.newStart, h.newLen)) = [(3, 0), (2, 3)] ∧
      ¬ (diffLines o old new).hunks.Pairwise Hunk.Before := by
  intro o old new
  have hranges : (diffLines o old new).hunks.map (fun h => (h.newOffset, h.newLen)) = [(3, 0), (1, 3)] := by
    decide
  refine ⟨by decide, fun h => ?_⟩
  have hranges' : ((diffLines o old new).hunks.map fun h => (h.newOffset, h.newLen)).Pairwise
      fun r r' => r.1 + r.2 < r'.1 := List.pairwise_map.2 (h.imp Hunk.Before.new)
  rw [hranges] at hranges'
  exact absurd hranges' (by decide)

end TreeDelta
