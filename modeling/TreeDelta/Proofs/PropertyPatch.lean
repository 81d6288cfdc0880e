import TreeDelta.Proofs.Hunk
import TreeDelta.Proofs.Mirror
import TreeDelta.Proofs.SummaryListing
set_option autoImplicit false

namespace TreeDelta

open TreeDelta.Alignment

theorem Bytes.ofString_injective : Function.Injective Bytes.ofString := by
  intro s t h
  exact String.toByteArray_inj.1 (ByteArray.ext (Array.toList_inj.1 h))

namespace ValueChange

variable {a b : Option String} {change : ValueChange}

theorem between?_eq_some_iff :
    between? a b = some change ↔ a ≠ b ∧ change.old? = a ∧ change.new? = b := by
  constructor
  · intro h
    have hne : a ≠ b := fun hsame => by
      rw [between?_eq_none_iff.2 hsame] at h
      cases h
    cases a with
    | none =>
      cases b with
      | none => cases h
      | some w =>
        cases h
        exact ⟨hne, rfl, rfl⟩
    | some v =>
      cases b with
      | none =>
        cases h
        exact ⟨hne, rfl, rfl⟩
      | some w =>
        rw [between?, if_neg fun hsame => hne (congrArg some hsame)] at h
        cases h
        exact ⟨hne, rfl, rfl⟩
  · rintro ⟨hne, rfl, rfl⟩
    cases change with
    | added _ => rfl
    | deleted _ => rfl
    | modified _ _ => exact if_neg fun hsame => hne (congrArg some hsame)

theorem kind_eq_added_iff : change.kind = .added ↔ change.old? = none := by
  cases change <;> simp [kind, old?]

theorem kind_eq_deleted_iff : change.kind = .deleted ↔ change.new? = none := by
  cases change <;> simp [kind, new?]

end ValueChange

namespace PropChange

/-- The change is that from one value to another, and is an addition or a deletion just where one
of them is missing. -/
structure Tells (c : PropChange) (old new : Option String) : Prop where
  differs : old ≠ new
  oldValue : c.change.old? = old
  newValue : c.change.new? = new
  added : c.change.kind = .added ↔ old = none
  deleted : c.change.kind = .deleted ↔ new = none

theorem tells_iff {c : PropChange} {old new : Option String} :
    c.Tells old new ↔ ValueChange.between? old new = some c.change := by
  rw [ValueChange.between?_eq_some_iff]
  constructor
  · exact fun h => ⟨h.differs, h.oldValue, h.newValue⟩
  · rintro ⟨hne, rfl, rfl⟩
    exact ⟨hne, rfl, rfl, ValueChange.kind_eq_added_iff, ValueChange.kind_eq_deleted_iff⟩

/-- Puts the new value in place of the old one, which must be there. -/
def update? (c : PropChange) (props : Props) : Option Props :=
  if props.get? c.name = c.change.old? then
    some <| match c.change.new? with
      | some value => props.insert c.name value
      | none => props.erase c.name
  else none

theorem update?_eq_some {c : PropChange} {props : Props} (h : props.get? c.name = c.change.old?) :
    ∃ props', c.update? props = some props' ∧ props'.get? c.name = c.change.new? ∧
      ∀ name, name ≠ c.name → props'.get? name = props.get? name := by
  rw [update?, if_pos h]
  cases c.change.new? with
  | some value =>
    exact ⟨_, rfl, OrderedMap.get?_insert_self _ _ _, fun name => OrderedMap.get?_insert_ne _ _⟩
  | none =>
    exact ⟨_, rfl, OrderedMap.get?_erase_self _ _, fun name => OrderedMap.get?_erase_ne _⟩

end PropChange

namespace PropDiff

def update? (d : PropDiff) (props : Props) : Option Props :=
  d.changes.foldlM (fun props c => c.update? props) props

def names (d : PropDiff) : List String := d.changes.map PropChange.name

variable {old new props : Props}

theorem mem_between_iff {c : PropChange} :
    c ∈ (between old new).changes ↔ c.Tells (old.get? c.name) (new.get? c.name) := by
  rw [PropChange.tells_iff, between, List.mem_filterMap]
  constructor
  · rintro ⟨name, -, h⟩
    obtain ⟨change, hchange, rfl⟩ := Option.map_eq_some_iff.1 h
    exact hchange
  · intro h
    have hdiffers := (ValueChange.between?_eq_some_iff.1 h).1
    exact ⟨c.name, OrderedMap.mem_unionKeys_of_ne hdiffers, by rw [h]; rfl⟩

theorem mem_names_iff {name : String} :
    name ∈ (between old new).names ↔ old.get? name ≠ new.get? name := by
  rw [names, List.mem_map]
  constructor
  · rintro ⟨c, hc, rfl⟩
    exact (mem_between_iff.1 hc).differs
  · intro hne
    obtain ⟨change, hchange⟩ :=
      Option.ne_none_iff_exists'.1 fun hnone => hne (ValueChange.between?_eq_none_iff.1 hnone)
    exact ⟨⟨name, change⟩, mem_between_iff.2 (PropChange.tells_iff.2 hchange), rfl⟩

theorem names_ascending (old new : Props) :
    (between old new).names.Pairwise fun name name' => compare name name' = .lt := by
  refine List.pairwise_map.2 (List.pairwise_filterMap.2 ?_)
  refine (OrderedMap.unionKeys_ascending old new).imp fun {name name'} hlt c hc c' hc' => ?_
  obtain ⟨_, -, rfl⟩ := Option.map_eq_some_iff.1 hc
  obtain ⟨_, -, rfl⟩ := Option.map_eq_some_iff.1 hc'
  exact hlt

theorem foldlM_update? {cs : List PropChange} (hnames : (cs.map PropChange.name).Nodup)
    (hold : ∀ c ∈ cs, props.get? c.name = c.change.old?)
    (hnew : ∀ c ∈ cs, new.get? c.name = c.change.new?)
    (hrest : ∀ name, name ∉ cs.map PropChange.name → props.get? name = new.get? name) :
    cs.foldlM (fun props c => c.update? props) props = some new := by
  induction cs generalizing props with
  | nil => exact congrArg some (OrderedMap.ext_get? fun name => hrest name List.not_mem_nil)
  | cons c cs ih =>
    obtain ⟨hfresh, hnames⟩ := List.nodup_cons.1 hnames
    obtain ⟨props', happly, hself, hothers⟩ :=
      PropChange.update?_eq_some (hold c List.mem_cons_self)
    rw [List.foldlM_cons, happly]
    refine ih hnames (fun d hd => ?_) (fun d hd => hnew d (List.mem_cons_of_mem _ hd)) fun name hname => ?_
    · have hne : d.name ≠ c.name := fun heq => hfresh (heq ▸ List.mem_map_of_mem hd)
      rw [hothers d.name hne]
      exact hold d (List.mem_cons_of_mem _ hd)
    · -- The name of the first change has its new value by now, and no later change touches it.
      by_cases hne : name = c.name
      · rw [hne, hself, hnew c List.mem_cons_self]
      · rw [hothers name hne]
        exact hrest name (by simp [hne, hname])

theorem update?_between (old new : Props) : (between old new).update? old = some new := by
  refine foldlM_update? ?_ (fun c hc => (mem_between_iff.1 hc).oldValue.symm)
    (fun c hc => (mem_between_iff.1 hc).newValue.symm) fun name hname => ?_
  · refine (names_ascending old new).imp fun {name name'} hlt heq => ?_
    subst heq
    simp at hlt
  · exact not_not.1 fun hne => hname (mem_names_iff.2 hne)

end PropDiff

namespace PropChange

def oldText (c : PropChange) : String := c.change.old?.getD ""

def newText (c : PropChange) : String := c.change.new?.getD ""

def oldLines (c : PropChange) : List Line := splitLines (.ofString c.oldText)

def newLines (c : PropChange) : List Line := splitLines (.ofString c.newText)

/-- The hunks of the change are cut out of its two texts, and there are none just where these are
the same. With the places in their headers they are a patch where one text is empty or the alignment
gives all its places. -/
structure HunksPatch (c : PropChange) : Prop where
  empty : c.hunks = [] ↔ c.oldText = c.newText
  excerpts : Excerpts .default false 0 0 c.hunks c.oldLines c.newLines
  places : c.oldText = "" ∨ c.newText = "" ∨
      AlignsExactly (c.oldLines.map (Line.key .default)) (c.newLines.map (Line.key .default)) →
    Patches .default true 0 0 c.hunks c.oldLines c.newLines ∧
      (applyHunks 0 c.hunks c.oldLines).map joinLines = some (.ofString c.newText)

theorem hunksPatch (c : PropChange) : c.HunksPatch := by
  obtain ⟨-, hplaced, hbytes⟩ := diffLines_patches .default (.ofString c.oldText) (.ofString c.newText)
  obtain ⟨-, hempty, happly⟩ := hbytes rfl rfl
  refine ⟨hempty.trans Bytes.ofString_injective.eq_iff, (diffLines_excerpts .default _ _).1, fun h => ?_⟩
  have halign : AlignsExactly (c.oldLines.map (Line.key .default))
      (c.newLines.map (Line.key .default)) := by
    rcases h with h | h | h
    · rw [oldLines, h]
      exact alignsExactly_of_nil (.inl rfl)
    · rw [newLines, h]
      exact alignsExactly_of_nil (.inr rfl)
    · exact h
  exact ⟨hplaced halign, happly halign⟩

end PropChange

/-- The changes between two maps are those of the names whose values differ, in ascending order.
They turn the old map into the new one, and undone they turn it back, which is what the changes in
the other direction do. Their hunks are hunks of the old and the new text, with the right places as
far as `HunksPatch` says. -/
theorem PropDiff.between_turns (old new : Props) :
    ((between old new).names.Pairwise fun name name' => compare name name' = .lt) ∧
    (∀ name, name ∈ (between old new).names ↔ old.get? name ≠ new.get? name) ∧
    (∀ c, c ∈ (between old new).changes ↔ c.Tells (old.get? c.name) (new.get? c.name)) ∧
    (between old new).update? old = some new ∧ (between old new).mirror.update? new = some old ∧
    between new old = (between old new).mirror ∧ ∀ c ∈ (between old new).changes, c.HunksPatch := by
  have hundo : (between old new).mirror.update? new = some old := by
    rw [← between_comm]
    exact update?_between new old
  exact ⟨names_ascending old new, fun _ => mem_names_iff, fun _ => mem_between_iff,
    update?_between old new, hundo, between_comm old new, fun c _ => c.hunksPatch⟩

namespace MixedProperties

def old : Props := (OrderedMap.empty.insert "p" "a\nb\n").insert "q" ""

def new : Props := (OrderedMap.empty.insert "p" "a\nc").insert "r" ""

def lastLine : PropChange := ⟨"p", .modified "a\nb\n" "a\nc"⟩

theorem alignsExactly_lastLine :
    AlignsExactly (lastLine.oldLines.map (Line.key .default))
      (lastLine.newLines.map (Line.key .default)) := by
  have hold : lastLine.oldLines.map (Line.key .default) = [[97, 10], [98, 10]] := by decide +kernel
  have hnew : lastLine.newLines.map (Line.key .default) = [[97, 10], [99]] := by decide +kernel
  rw [hold, hnew, AlignsExactly, if_pos (by decide)]
  have hblocks : alignInOrder [[97, 10], [98, 10]] [[97, 10], [(99 : UInt8)]] =
      [.same 0 0 1, .change 1 1 1 1] := rfl
  rw [hblocks]
  exact .same ⟨by decide, by decide, by decide⟩
    (.change (by decide) (by decide) (fun _ => rfl) (fun _ => rfl) (.nil _ _))

end MixedProperties

open MixedProperties in
theorem PropDiff.between_turns_mixed :
    (between old new).changes.map (fun c => (c.name, c.change.kind, c.hunks.length)) =
        [("p", .modified, 1), ("q", .deleted, 0), ("r", .added, 0)] ∧
      (between old new).update? old = some new ∧ (between old new).mirror.update? new = some old ∧
      lastLine ∈ (between old new).changes ∧
      (applyHunks 0 lastLine.hunks lastLine.oldLines).map joinLines = some (.ofString "a\nc") := by
  obtain ⟨-, -, hmem, happly, hundo, -, hpatch⟩ := between_turns old new
  have hlast : lastLine ∈ (between old new).changes := by decide +kernel
  exact ⟨by decide +kernel, happly, hundo, hlast,
    ((hpatch lastLine hlast).places (.inr (.inr alignsExactly_lastLine))).2⟩

/-- The first of two lines goes and a second one like the last comes. The one hunk says that it takes
line 1 and nothing else, but has two lines of either side. -/
theorem PropDiff.between_misplaced :
    ¬ ∀ (old new : Props), ∀ c ∈ (between old new).changes,
      Patches .default true 0 0 c.hunks c.oldLines c.newLines := by
  intro hpatches
  have hmem : (⟨"p", .modified "a\nb\n" "b\nb\n"⟩ : PropChange) ∈
      (between (OrderedMap.empty.insert "p" "a\nb\n") (OrderedMap.empty.insert "p" "b\nb\n")).changes := by
    decide +kernel
  obtain ⟨out, hout, -⟩ := (hpatches _ _ _ hmem).applyHunks
  have hnone : applyHunks 0 (PropChange.hunks ⟨"p", .modified "a\nb\n" "b\nb\n"⟩)
      (PropChange.oldLines ⟨"p", .modified "a\nb\n" "b\nb\n"⟩) = none := by decide +kernel
  rw [hnone] at hout
  cases hout

end TreeDelta
