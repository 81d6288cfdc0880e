import TreeDelta.Fixture
import TreeDelta.Proofs.FileBytes
import TreeDelta.Proofs.PathText
set_option autoImplicit false

namespace TreeDelta

open Repository Fixture

variable {d : Draft} {p q : Path} {text : String}

namespace Draft

theorem fault_fail_ne_none (d : Draft) (e : SyntaxError) : (d.fail e).fault ≠ none := by
  cases h : d.fault <;> simp [fail, h]

theorem withPath_fault {f : Path → Draft} (h : (d.withPath text f).fault = none)
    (hf : ∀ p, (f p).fault = none → d.fault = none) : d.fault = none := by
  unfold withPath at h
  split at h
  · exact hf _ h
  · exact absurd h (d.fault_fail_ne_none _)

theorem change_fault {fault : PathFault} {f : DraftNode → DraftNode}
    (h : (d.change p fault f).fault = none) : d.fault = none := by
  unfold change at h
  split at h
  · exact h
  · exact absurd h (d.fault_fail_ne_none _)

theorem apply_fault {e : DraftEdit} (h : (d.apply e).fault = none) : d.fault = none := by
  cases e with
  | file => exact withPath_fault h fun _ h => h
  | directory => exact withPath_fault h fun _ h => h
  | remove => exact withPath_fault h fun _ h => h
  | setProp => exact withPath_fault h fun _ h => change_fault h
  | deleteProp =>
    refine withPath_fault h fun p h => ?_
    split at h
    · exact h
    · exact h
  | copiedFrom =>
    rw [apply] at h
    split at h
    · exact change_fault h
    · exact absurd h (d.fault_fail_ne_none _)
    · exact absurd h (d.fault_fail_ne_none _)

theorem applyAll_fault {edits : List DraftEdit} (h : (d.applyAll edits).fault = none) :
    d.fault = none := by
  induction edits generalizing d with
  | nil => exact h
  | cons e edits ih => exact apply_fault (ih h)

end Draft

namespace FixtureNode

def bytes (n : FixtureNode) : Bytes := Bytes.ofString (n.content.getD "")

def edit (n : FixtureNode) (text : String) : DraftEdit :=
  match n.kind with
  | .directory => .directory text
  | _ => .file text n.bytes

/-- A file is a new node, a directory is the node that is there already. -/
def bare (n : FixtureNode) (old : Option DraftNode) : DraftNode :=
  match n.kind with
  | .directory => old.getD .directory
  | _ => .file n.bytes

def placedOn (n : FixtureNode) (old : Option DraftNode) : DraftNode :=
  { n.bare old with
    props := (n.bare old).props.insertMany n.props.entries
    copySource := n.copyFrom.or (n.bare old).copySource }

theorem kind_placedOn (n : FixtureNode) (node : Option DraftNode) :
    (n.placedOn node).kind =
      if n.kind = .directory then (node.map DraftNode.kind).getD .directory else .file := by
  change (n.bare node).kind = _
  unfold bare
  cases n.kind with
  | directory => cases node <;> rfl
  | file => rfl
  | nonexistent => rfl

end FixtureNode

theorem nodeEdits_eq (text : String) (n : FixtureNode) :
    nodeEdits text n = n.edit text :: (n.props.entries.map fun e => .setProp text e.1 e.2) ++
      n.copyFrom.toList.map fun s => .copiedFrom text s.path.text s.revision := rfl

theorem exists_parse_of_nodeEdits {n : FixtureNode}
    (h : (d.applyAll (nodeEdits text n)).fault = none) : ∃ p, Path.parse text = .ok p := by
  have hfirst : (d.apply (n.edit text)).fault = none := Draft.applyAll_fault h
  cases hparse : Path.parse text with
  | ok p => exact ⟨p, rfl⟩
  | error e =>
    have hfail : d.apply (n.edit text) = d.fail e := by
      unfold FixtureNode.edit
      split <;> simp only [Draft.apply, Draft.withPath, hparse]
    rw [hfail] at hfirst
    exact absurd hfirst (d.fault_fail_ne_none e)

theorem get?_withParents_self (nodes : OrderedMap Path DraftNode) (p : Path) :
    (Draft.withParents nodes p).get? p = nodes.get? p := by
  rw [get?_withParents, if_neg fun h => (Path.mem_ancestors_iff.1 h).1 rfl, Option.or_none]

theorem Draft.insert_of_get? {node : DraftNode} (h : d.nodes.get? p = some node) :
    { d with nodes := d.nodes.insert p node } = d := by
  rw [OrderedMap.insert_of_get? h]

theorem applyAll_setProp (hp : Path.parse text = .ok p) {node : DraftNode}
    (hnode : d.nodes.get? p = some node) (props : List (String × String)) :
    d.applyAll (props.map fun e => .setProp text e.1 e.2) =
      { d with nodes := d.nodes.insert p { node with props := node.props.insertMany props } } := by
  induction props generalizing d node with
  | nil => exact (Draft.insert_of_get? hnode).symm
  | cons e props ih =>
    have hset : d.apply (.setProp text e.1 e.2) =
        { d with nodes := d.nodes.insert p { node with props := node.props.insert e.1 e.2 } } := by
      simp only [Draft.apply, Draft.withPath, hp, Draft.change, hnode]
    rw [List.map_cons, Draft.applyAll_cons, hset, ih (OrderedMap.get?_insert_self _ _ _),
      OrderedMap.insert_insert]
    rfl

theorem applyAll_copiedFrom (hp : Path.parse text = .ok p) {node : DraftNode}
    (hnode : d.nodes.get? p = some node) (source : Option CopySource) :
    d.applyAll (source.toList.map fun s => .copiedFrom text s.path.text s.revision) =
      { d with nodes := d.nodes.insert p { node with copySource := source.or node.copySource } } := by
  cases source with
  | none => exact (Draft.insert_of_get? hnode).symm
  | some source =>
    change d.apply (.copiedFrom text source.path.text source.revision) = _
    simp only [Draft.apply, hp, Path.parse_text, Draft.change, hnode]
    rfl

theorem apply_directory (hp : Path.parse text = .ok p) :
    d.apply (.directory text) =
      { d with nodes := (Draft.withParents d.nodes p).insert p ((d.nodes.get? p).getD .directory) } := by
  simp only [Draft.apply, Draft.withPath, hp]
  congr 1
  unfold OrderedMap.insertIfNew
  split
  · rename_i hthere
    obtain ⟨node, hnode⟩ := OrderedMap.contains_iff.1 hthere
    rw [← get?_withParents_self d.nodes p, hnode]
    exact (OrderedMap.insert_of_get? hnode).symm
  · rename_i hfree
    rw [← get?_withParents_self d.nodes p, OrderedMap.get?_eq_none_iff.2 hfree]
    rfl

theorem apply_edit (hp : Path.parse text = .ok p) (n : FixtureNode) (d : Draft) :
    d.apply (n.edit text) =
      { d with nodes := (Draft.withParents d.nodes p).insert p (n.bare (d.nodes.get? p)) } := by
  unfold FixtureNode.edit FixtureNode.bare
  cases n.kind with
  | directory => exact apply_directory hp
  | file => simp only [Draft.apply, Draft.withPath, hp]
  | nonexistent => simp only [Draft.apply, Draft.withPath, hp]

theorem applyAll_nodeEdits (hp : Path.parse text = .ok p) (n : FixtureNode) (d : Draft) :
    d.applyAll (nodeEdits text n) =
      { d with nodes := (Draft.withParents d.nodes p).insert p (n.placedOn (d.nodes.get? p)) } := by
  rw [nodeEdits_eq, List.cons_append, Draft.applyAll_cons, apply_edit hp, Draft.applyAll_append,
    applyAll_setProp hp (OrderedMap.get?_insert_self _ _ _),
    applyAll_copiedFrom hp (OrderedMap.get?_insert_self _ _ _), OrderedMap.insert_insert,
    OrderedMap.insert_insert]
  rfl

/-- What is at `p` is left alone, unless a directory is made where nothing was. -/
def Draft.SettledAt (p : Path) (d d' : Draft) : Prop :=
  d'.nodes.get? p = d.nodes.get? p ∨
    d.nodes.get? p = none ∧ d'.nodes.get? p = some .directory

namespace Draft.SettledAt

variable {d' d'' : Draft}

theorem trans (h : d.SettledAt p d') (h' : d'.SettledAt p d'') : d.SettledAt p d'' := by
  rcases h with h | ⟨hnone, hmade⟩
  · rcases h' with h' | ⟨hnone, hmade⟩
    · exact .inl (h'.trans h)
    · exact .inr ⟨h.symm.trans hnone, hmade⟩
  · rcases h' with h' | ⟨hnone', -⟩
    · exact .inr ⟨hnone, h'.trans hmade⟩
    · rw [hmade] at hnone'
      cases hnone'

theorem get?_eq_some (h : d.SettledAt p d') {node : DraftNode} (hnode : d.nodes.get? p = some node) :
    d'.nodes.get? p = some node := by
  rcases h with h | ⟨hnone, -⟩
  · exact h.trans hnode
  · rw [hnode] at hnone
    cases hnone

theorem placedOn_eq (h : d.SettledAt p d') (n : FixtureNode) :
    n.placedOn (d'.nodes.get? p) = n.placedOn (d.nodes.get? p) := by
  rcases h with h | ⟨hnone, hmade⟩
  · rw [h]
  · rw [hnone, hmade]
    rfl

end Draft.SettledAt

theorem nodeEdits_settledAt (hq : Path.parse text = .ok q) (hne : p ≠ q) (n : FixtureNode) :
    d.SettledAt p (d.applyAll (nodeEdits text n)) := by
  rw [applyAll_nodeEdits hq, Draft.SettledAt]
  dsimp only
  rw [OrderedMap.get?_insert_ne _ _ hne, get?_withParents]
  cases d.nodes.get? p with
  | some node => exact .inl rfl
  | none =>
    rw [Option.none_or]
    split
    · exact .inr ⟨rfl, rfl⟩
    · exact .inl rfl

def entryEdits (entries : List (String × FixtureNode)) : List DraftEdit :=
  entries.flatMap fun e => nodeEdits e.1 e.2

theorem applyAll_entryEdits_cons (d : Draft) (e : String × FixtureNode)
    (entries : List (String × FixtureNode)) :
    d.applyAll (entryEdits (e :: entries)) =
      (d.applyAll (nodeEdits e.1 e.2)).applyAll (entryEdits entries) := by
  rw [entryEdits, List.flatMap_cons, Draft.applyAll_append]
  rfl

theorem entryEdits_settledAt {entries : List (String × FixtureNode)}
    (hfault : (d.applyAll (entryEdits entries)).fault = none)
    (hothers : ∀ e ∈ entries, Path.parse e.1 ≠ .ok p) :
    d.SettledAt p (d.applyAll (entryEdits entries)) := by
  induction entries generalizing d with
  | nil => exact .inl rfl
  | cons e entries ih =>
    rw [applyAll_entryEdits_cons] at hfault ⊢
    obtain ⟨q, hq⟩ := exists_parse_of_nodeEdits (Draft.applyAll_fault hfault)
    have hne : p ≠ q := by
      rintro rfl
      exact hothers e List.mem_cons_self hq
    exact (nodeEdits_settledAt hq hne e.2).trans
      (ih hfault fun e' he' => hothers e' (List.mem_cons_of_mem _ he'))

theorem get?_entryEdits {before after : List (String × FixtureNode)} {n : FixtureNode}
    (hfault : (d.applyAll (entryEdits (before ++ (text, n) :: after))).fault = none)
    (hbefore : ∀ e ∈ before, Path.parse e.1 ≠ Path.parse text)
    (hafter : ∀ e ∈ after, Path.parse e.1 ≠ Path.parse text) :
    ∃ p, Path.parse text = .ok p ∧
      (d.applyAll (entryEdits (before ++ (text, n) :: after))).nodes.get? p =
        some (n.placedOn (d.nodes.get? p)) := by
  have hsplit : d.applyAll (entryEdits (before ++ (text, n) :: after)) =
      ((d.applyAll (entryEdits before)).applyAll (nodeEdits text n)).applyAll (entryEdits after) := by
    rw [← applyAll_entryEdits_cons _ (text, n), ← Draft.applyAll_append]
    exact congrArg d.applyAll List.flatMap_append
  rw [hsplit] at hfault ⊢
  have hfaultNode := Draft.applyAll_fault hfault
  obtain ⟨p, hp⟩ := exists_parse_of_nodeEdits hfaultNode
  rw [hp] at hbefore hafter
  -- The entries before can only make the directory that is put where nothing is anyway.
  have hsettled := entryEdits_settledAt (Draft.applyAll_fault hfaultNode) hbefore
  have hput : ((d.applyAll (entryEdits before)).applyAll (nodeEdits text n)).nodes.get? p =
      some (n.placedOn (d.nodes.get? p)) := by
    rw [applyAll_nodeEdits hp, ← hsettled.placedOn_eq n]
    exact OrderedMap.get?_insert_self _ _ _
  exact ⟨p, hp, (entryEdits_settledAt hfault hafter).get?_eq_some hput⟩

def FixtureRevision.Removes (revision : FixtureRevision) (p : Path) : Prop :=
  p ≠ .root ∧ ∃ text ∈ revision.delete, ∃ q, Path.parse text = .ok q ∧ p.isAtOrBelow q = true

def FixtureRevision.base (revision : FixtureRevision) (s : Shape) : Shape :=
  if revision.sample then Draft.sample.shape else s

theorem shape_remove_eq_some_iff {k : NodeKind} :
    (d.apply (.remove text)).shape p = some k ↔
      d.shape p = some k ∧
        ¬(p ≠ .root ∧ ∃ q, Path.parse text = .ok q ∧ p.isAtOrBelow q = true) := by
  rw [Draft.shape_apply, DraftEdit.reshape, Shape.withPath]
  cases hparse : Path.parse text with
  | error e => simp
  | ok q =>
    simp only [Shape.without, Except.ok.injEq, exists_eq_left']
    by_cases hgone : p.isAtOrBelow q = true ∧ p ≠ .root
    · simp [hgone]
    · rw [if_neg hgone]
      tauto

theorem shape_removeAll_eq_some_iff {texts : List String} {k : NodeKind} :
    (d.applyAll (texts.map .remove)).shape p = some k ↔
      d.shape p = some k ∧
        ¬(p ≠ .root ∧ ∃ text ∈ texts, ∃ q, Path.parse text = .ok q ∧ p.isAtOrBelow q = true) := by
  induction texts generalizing d with
  | nil => simp [Draft.applyAll]
  | cons text texts ih =>
    rw [List.map_cons, Draft.applyAll_cons, ih, shape_remove_eq_some_iff]
    simp only [List.mem_cons, exists_eq_or_imp, and_or_left, not_or, and_assoc]

def startDraft (before : Draft) (revision : FixtureRevision) : Draft :=
  (if revision.sample then Draft.sample else before).applyAll (revision.delete.map .remove)

theorem revisionDraft_eq (before : Draft) (revision : FixtureRevision) :
    revisionDraft before revision =
      (startDraft before revision).applyAll (entryEdits revision.nodes.entries) :=
  Draft.applyAll_append _ _ _

theorem startDraft_arises (hd : d.Arises) (revision : FixtureRevision) :
    (startDraft d revision).Arises := by
  unfold startDraft
  split
  · exact Draft.sample_arises.applyAll _
  · exact hd.applyAll _

theorem revisionDraft_arises (hd : d.Arises) (revision : FixtureRevision) :
    (revisionDraft d revision).Arises := by
  rw [revisionDraft_eq]
  exact (startDraft_arises hd revision).applyAll _

theorem shape_startDraft_eq_some_iff {revision : FixtureRevision} {k : NodeKind} :
    (startDraft d revision).shape p = some k ↔
      revision.base d.shape p = some k ∧ ¬revision.Removes p := by
  have hbase : (if revision.sample then Draft.sample else d).shape = revision.base d.shape :=
    apply_ite Draft.shape _ _ _
  rw [startDraft, shape_removeAll_eq_some_iff, hbase]
  rfl

theorem exists_placedOn {revision : FixtureRevision} {n : FixtureNode}
    (hfault : (revisionDraft d revision).fault = none) (hentry : revision.nodes.get? text = some n)
    (halone : ∀ other, revision.nodes.contains other = true → other ≠ text →
      Path.parse other ≠ Path.parse text) :
    ∃ p, Path.parse text = .ok p ∧ (revisionDraft d revision).nodes.get? p =
      some (n.placedOn ((startDraft d revision).nodes.get? p)) := by
  obtain ⟨before, after, hentries, hbefore, hafter⟩ := OrderedMap.exists_entries_eq hentry
  have hlisted : ∀ e ∈ revision.nodes.entries, revision.nodes.contains e.1 = true := fun e he =>
    OrderedMap.contains_iff.2 ⟨e.2, OrderedMap.get?_eq_some_iff.2 he⟩
  rw [revisionDraft_eq, hentries] at hfault ⊢
  rw [hentries] at hlisted
  refine get?_entryEdits hfault (fun e he => ?_) fun e he => ?_
  · exact halone e.1 (hlisted e (List.mem_append_left _ he)) (hbefore e he)
  · exact halone e.1 (hlisted e (List.mem_append_right _ (List.mem_cons_of_mem _ he))) (hafter e he)

theorem getD_kind_eq_directory_iff (hd : d.FilesNamed) :
    ((d.nodes.get? p).map DraftNode.kind).getD .directory = .directory ↔ d.shape p ≠ some .file := by
  rw [Draft.shape_eq]
  cases hnode : d.nodes.get? p with
  | none => split_ifs <;> simp
  | some node =>
    have hcarries : node.kind.Carries node.content := hd p node hnode
    cases hkind : node.kind with
    | file => simp [hkind]
    | directory => simp [hkind]
    | nonexistent =>
      rw [hkind] at hcarries
      exact hcarries.elim

theorem kind_placedOn_eq_iff (hd : d.Arises) (revision : FixtureRevision) {n : FixtureNode}
    (hkind : n.kind ≠ .nonexistent) :
    (n.placedOn ((startDraft d revision).nodes.get? p)).kind = n.kind ↔
      ¬(n.kind = .directory ∧ revision.base d.shape p = some .file ∧ ¬revision.Removes p) := by
  rw [n.kind_placedOn, ← shape_startDraft_eq_some_iff]
  cases hcase : n.kind with
  | directory =>
    rw [if_pos rfl, getD_kind_eq_directory_iff (startDraft_arises hd revision).filesNamed]
    simp
  | file => simp
  | nonexistent => exact absurd hcase hkind

variable {r r' : Repository} {f : Fixture}

theorem perform_eq_ok_iff {op : Operation} : perform r op = .ok r' ↔ op.run r = (r', .ok ()) := by
  unfold perform
  rcases op.run r with ⟨r'', e | ⟨⟩⟩
  · simp
  · simp

theorem perform_extends {op : Operation} (h : perform r op = .ok r') : r.Extends r' := by
  have hstep := (step_run r op).extends
  rw [perform_eq_ok_iff.1 h] at hstep
  exact hstep

theorem perform_arises {op : Operation} (hr : r.Arises) (hop : ∀ d, op = .commit d → d.Arises)
    (h : perform r op = .ok r') : r'.Arises := by
  have harises := hr.operation hop
  rw [perform_eq_ok_iff.1 h] at harises
  exact harises

theorem commitAll_extends {revisions : List FixtureRevision} (h : commitAll r d revisions = .ok r') :
    r.Extends r' := by
  induction revisions generalizing r d with
  | nil =>
    cases h
    exact .refl _
  | cons revision revisions ih =>
    obtain ⟨r₁, hcommit, h⟩ := bind_eq_ok_iff.1 h
    exact (perform_extends hcommit).trans (ih h)

theorem commitAll_arises {revisions : List FixtureRevision} (hr : r.Arises) (hd : d.Arises)
    (h : commitAll r d revisions = .ok r') : r'.Arises := by
  induction revisions generalizing r d with
  | nil =>
    cases h
    exact hr
  | cons revision revisions ih =>
    obtain ⟨r₁, hcommit, h⟩ := bind_eq_ok_iff.1 h
    have hdraft := revisionDraft_arises hd revision
    have hr₁ : r₁.Arises := perform_arises hr (fun d' hd' => by cases hd'; exact hdraft) hcommit
    exact ih hr₁ hdraft h

theorem build_extends (h : f.build = .ok r) :
    ∃ r₀, commitAll .empty .empty f.revisions = .ok r₀ ∧ r₀.Extends r ∧ r.Arises := by
  obtain ⟨r₀, hcommits, h⟩ := bind_eq_ok_iff.1 h
  have hr₀ : r₀.Arises := commitAll_arises .empty (.new []) hcommits
  refine ⟨r₀, hcommits, ?_⟩
  split at h
  · cases h
    exact ⟨.refl _, hr₀⟩
  · rename_i w _
    obtain ⟨r₁, hcheckout, h⟩ := bind_eq_ok_iff.1 h
    have hr₁ : r₁.Arises := perform_arises hr₀ (fun d hd => by cases hd) hcheckout
    refine foldlM_keeps (P := fun r => r₀.Extends r ∧ r.Arises) w.edits ?_
      ⟨perform_extends hcheckout, hr₁⟩ h
    intro edit _ x y hx hedit
    exact ⟨hx.1.trans (perform_extends hedit), perform_arises hx.2 (fun d hd => by cases hd) hedit⟩

/-- The drafts follow the revisions: the tree of each is that of the youngest revision, when the next
one is drawn up from it. -/
theorem commitAll_at {revisions : List FixtureRevision} (hd : d.Arises)
    (hshape : r.youngestSnapshot.shape = d.shape) (h : commitAll r d revisions = .ok r') {i : Nat}
    {revision : FixtureRevision} (hrevision : revisions[i]? = some revision) :
    ∃ (r₁ : Repository) (d₁ : Draft) (r₂ : Repository), d₁.Arises ∧ r₁.youngest = r.youngest + i ∧
      r₁.youngestSnapshot.shape = d₁.shape ∧
      perform r₁ (.commit (revisionDraft d₁ revision)) = .ok r₂ ∧ r₂.Extends r' := by
  induction revisions generalizing r d i with
  | nil => cases hrevision
  | cons first revisions ih =>
    obtain ⟨r₂, hfirst, hrest⟩ := bind_eq_ok_iff.1 h
    cases i with
    | zero =>
      cases hrevision
      exact ⟨r, d, r₂, hd, rfl, hshape, hfirst, commitAll_extends hrest⟩
    | succ i =>
      have hcommit : r.commit (revisionDraft d first) = (r₂, .ok ()) := perform_eq_ok_iff.1 hfirst
      have hstep := step_commit r (revisionDraft d first)
      have hnew := commit_eq_ok (congrArg Prod.snd hcommit)
      rw [hcommit] at hnew hstep
      have hyoungest : r₂.youngest = r.youngest + 1 := hstep.youngest_eq
      -- The commit makes the draft the youngest revision, so the next one starts from it again.
      have hshape₂ : r₂.youngestSnapshot.shape = (revisionDraft d first).shape := by
        rw [nextRevision, ← hyoungest, snapshot?_youngest] at hnew
        rw [Option.some.inj hnew, shape_snapshotOf]
      obtain ⟨r₁, d₁, r₃, hd₁, hnumber, hrest⟩ :=
        ih (revisionDraft_arises hd first) hshape₂ hrest hrevision
      refine ⟨r₁, d₁, r₃, hd₁, ?_, hrest⟩
      rw [hnumber, hyoungest, Nat.add_right_comm, Nat.add_assoc]

/-- A file tells just what the entry lists, a directory tells that at least. -/
structure FixtureNode.ToldBy (n : FixtureNode) (record : Record) : Prop where
  file : n.kind = .file →
    record.content = some (.ofBytes n.bytes) ∧ record.props = n.props ∧ record.copySource = n.copyFrom
  props : ∀ name value, n.props.get? name = some value → record.props.get? name = some value
  copySource : ∀ source, n.copyFrom = some source → record.copySource = some source

theorem FixtureNode.toldBy_carry (n : FixtureNode) (node : Option DraftNode) (old : Option Record)
    (m : Nat) : n.ToldBy (.carry old ((n.placedOn node).record m)) := by
  obtain ⟨-, hcontent, hprops, hsource⟩ := Record.carry_fields old ((n.placedOn node).record m)
  constructor
  · intro hfile
    have hplaced : n.placedOn node =
        { DraftNode.file n.bytes with
          props := n.props
          copySource := n.copyFrom } := by
      have hlisted : OrderedMap.empty.insertMany n.props.entries = n.props :=
        OrderedMap.ext_get? fun name => by simp [OrderedMap.get?_insertMany_entries]
      simp [placedOn, bare, hfile, DraftNode.file, hlisted]
    rw [hcontent, hprops, hsource, hplaced]
    exact ⟨rfl, rfl, rfl⟩
  · intro name value hvalue
    rw [hprops, DraftNode.record, placedOn, OrderedMap.get?_insertMany_entries, hvalue, Option.some_or]
  · intro source hlisted
    rw [hsource, DraftNode.record, placedOn, hlisted, Option.some_or]

theorem hasRecord_of_commit {n : FixtureNode} {node : Option DraftNode}
    (h : r.commit d = (r', .ok ())) (hnode : d.nodes.get? p = some (n.placedOn node)) :
    ∃ record, r'.HasRecord r.nextRevision p record ∧ n.ToldBy record ∧
      record.kind = (n.placedOn node).kind := by
  have hnew := commit_eq_ok (congrArg Prod.snd h)
  rw [h] at hnew
  refine ⟨.carry (r.youngestSnapshot.get? p) ((n.placedOn node).record r.nextRevision),
    ⟨_, hnew, ?_⟩, n.toldBy_carry _ _ _, (Record.carry_fields _ _).1⟩
  rw [snapshotOf, OrderedMap.get?_map, OrderedMap.get?_insertIfNew_of_get? hnode]
  rfl

theorem fault_of_commit_eq_ok (h : r.commit d = (r', .ok ())) : d.fault = none := by
  have hstep := step_commit r d
  rw [h] at hstep
  cases hstep with
  | committed hfault _ => exact hfault

theorem bytes?_of_hasRecord (hr : r.Arises) {m : Nat} {record : Record} {data : Bytes}
    (h : r.HasRecord m p record) (hcontent : record.content = some (.ofBytes data))
    (hdistinct : r.blobs.Distinct [data]) : r.store.bytes? (.revision m) p = some data := by
  obtain ⟨s, hs, hget⟩ := h
  have hheld := hr.reachable.contentsHeld.snapshot hs p record hget _ hcontent
  rw [bytes?_eq, contentAt_revision hs, hget, Option.bind_some, hcontent, Option.bind_some]
  exact hdistinct.get?_ofBytes hr.filesNamed.blobs List.mem_cons_self hheld

theorem empty_shape : Repository.empty.youngestSnapshot.shape = Draft.empty.shape := by
  funext p
  change (Snapshot.bare.get? p).map Record.kind = _
  rw [Draft.shape_eq, Snapshot.bare, Draft.empty]
  by_cases hp : p = .root
  · rw [hp, OrderedMap.get?_insert_self, if_pos rfl]
    rfl
  · rw [OrderedMap.get?_insert_ne _ _ hp, if_neg hp]
    rfl

/-- Every entry of a revision whose path no other entry has comes to be a node of the revision, with
the content if it is a file and with all properties and the copy source that are listed. The node is of
the kind that is listed, but for a directory that is listed where a file is and stays. -/
theorem build_nodes (h : f.build = .ok r) {i : Nat} {revision : FixtureRevision}
    (hrevision : f.revisions[i]? = some revision) {n : FixtureNode}
    (hentry : revision.nodes.get? text = some n) (hkind : n.kind ≠ .nonexistent)
    (halone : ∀ other, revision.nodes.contains other = true → other ≠ text →
      Path.parse other ≠ Path.parse text) :
    ∃ p s record, Path.parse text = .ok p ∧ r.snapshot? i = some s ∧ r.HasRecord (i + 1) p record ∧
      n.ToldBy record ∧
      (record.kind = n.kind ↔
        ¬(n.kind = .directory ∧ revision.base s.shape p = some .file ∧ ¬revision.Removes p)) ∧
      (n.kind = .file → r.blobs.Distinct [n.bytes] →
        r.store.bytes? (.revision (i + 1)) p = some n.bytes) := by
  obtain ⟨r₀, hcommits, hcopy, hr⟩ := build_extends h
  obtain ⟨r₁, d₁, r₂, hd₁, hnumber, hshape, hperform, hlater⟩ :=
    commitAll_at (.new []) empty_shape hcommits hrevision
  obtain rfl : r₁.youngest = i := hnumber.trans (Nat.zero_add i)
  have hext : r₂.Extends r := hlater.trans hcopy
  have hcommit : r₁.commit (revisionDraft d₁ revision) = (r₂, .ok ()) := perform_eq_ok_iff.1 hperform
  obtain ⟨p, hp, hnode⟩ := exists_placedOn (fault_of_commit_eq_ok hcommit) hentry halone
  obtain ⟨record, hrecord, htold, hplaced⟩ := hasRecord_of_commit hcommit hnode
  refine ⟨p, r₁.youngestSnapshot, record, hp, ?_, hext.hasRecord hrecord, htold, ?_, ?_⟩
  · exact ((perform_extends hperform).trans hext).snapshot?_eq_some r₁.snapshot?_youngest
  · rw [hplaced, hshape]
    exact kind_placedOn_eq_iff hd₁ revision hkind
  · exact fun hfile => bytes?_of_hasRecord hr (hext.hasRecord hrecord) (htold.file hfile).1

namespace ListedNodes

def a : Path := Path.root.child ⟨"a", Eq.refl true⟩

def b : Path := Path.root.child ⟨"b", Eq.refl true⟩

def c : Path := a.child ⟨"c", Eq.refl true⟩

def file (text : String) : FixtureNode := ⟨.file, some text, .empty, none⟩

def directory (props : Props) (source : Option CopySource) : FixtureNode :=
  ⟨.directory, none, props, source⟩

def copied : FixtureNode := directory (OrderedMap.empty.insert "p" "1") (some ⟨b, 1⟩)

def first : FixtureRevision where
  sample := false
  delete := []
  nodes := OrderedMap.ofList [("a", file "x"), ("b", directory .empty none)]

def second : FixtureRevision where
  sample := false
  delete := ["a"]
  nodes := OrderedMap.ofList [("./a", copied), ("a/c", file "y")]

def kept : FixtureRevision where
  sample := false
  delete := []
  nodes := OrderedMap.ofList [("a", directory .empty none)]

def repository (last : FixtureRevision) : Repository :=
  (build ⟨[first, last], none⟩).toOption.getD .empty

theorem build_second : build ⟨[first, second], none⟩ = .ok (repository second) := rfl

theorem build_kept : build ⟨[first, kept], none⟩ = .ok (repository kept) := rfl

theorem second_get? :
    second.nodes.get? "./a" = some copied ∧ second.nodes.get? "a/c" = some (file "y") := ⟨rfl, rfl⟩

theorem distinct : (repository second).blobs.Distinct [(file "y").bytes] := by decide +kernel

theorem parse_ne {text other : String} (htext : text ∈ ["./a", "a/c"])
    (h : second.nodes.contains other = true) (hne : other ≠ text) :
    Path.parse other ≠ Path.parse text := by
  have hother : other ∈ ["./a", "a/c"] := OrderedMap.mem_keys_iff.2 h
  have hdistinct : Path.parse "./a" ≠ Path.parse "a/c" := by decide
  simp only [List.mem_cons, List.not_mem_nil, or_false] at htext hother
  rcases htext with rfl | rfl
  · rcases hother with rfl | rfl
    · exact absurd rfl hne
    · exact hdistinct.symm
  · rcases hother with rfl | rfl
    · exact hdistinct
    · exact absurd rfl hne

end ListedNodes

open ListedNodes in
theorem build_nodes_replaced :
    build ⟨[first, second], none⟩ = .ok (repository second) ∧
      (repository second).HasRecord 1 a
        ⟨.file, some (.ofBytes (file "x").bytes), .empty, none, 1⟩ ∧
      (∃ record, (repository second).HasRecord 2 a record ∧ record.kind = .directory ∧
        record.props.get? "p" = some "1" ∧ record.copySource = some ⟨b, 1⟩) ∧
      (repository second).store.bytes? (.revision 2) c = some (file "y").bytes := by
  obtain ⟨p, s, record, hp, -, hrecord, htold, hkind, -⟩ :=
    build_nodes (i := 1) build_second rfl second_get?.1 (by decide) fun _ => parse_ne (by simp)
  obtain ⟨q, -, -, hq, -, -, -, -, hbytes⟩ :=
    build_nodes (i := 1) build_second rfl second_get?.2 (by decide) fun _ => parse_ne (by simp)
  obtain rfl : a = p := Except.ok.inj hp
  obtain rfl : c = q := Except.ok.inj hq
  have hremoves : second.Removes a := ⟨by decide, "a", List.mem_cons_self, a, rfl, rfl⟩
  refine ⟨build_second, ⟨_, rfl, rfl⟩, ⟨record, hrecord, ?_, ?_, ?_⟩, ?_⟩
  · exact hkind.2 fun h => h.2.2 hremoves
  · exact htold.props "p" "1" rfl
  · exact htold.copySource _ rfl
  · exact hbytes rfl distinct

open ListedNodes in
/-- The file `a` is still there, so the directory that revision 2 lists is not. -/
theorem build_nodes_kind_ne :
    ¬ ∀ (f : Fixture) (r : Repository) (i : Nat) (revision : FixtureRevision) (text : String)
        (n : FixtureNode), f.build = .ok r → f.revisions[i]? = some revision →
      revision.nodes.get? text = some n → n.kind ≠ .nonexistent →
      (∀ other, revision.nodes.contains other = true → other ≠ text →
        Path.parse other ≠ Path.parse text) →
      ∃ p record, Path.parse text = .ok p ∧ r.HasRecord (i + 1) p record ∧ record.kind = n.kind := by
  intro hrecorded
  have halone : ∀ other, kept.nodes.contains other = true → other ≠ "a" →
      Path.parse other ≠ Path.parse "a" := by
    intro other h hne
    have hother : other ∈ ["a"] := OrderedMap.mem_keys_iff.2 h
    exact absurd (List.mem_singleton.1 hother) hne
  obtain ⟨p, record, hp, ⟨s, hs, hget⟩, hkind⟩ :=
    hrecorded _ _ 1 kept "a" (directory .empty none) build_kept rfl rfl (by decide) halone
  obtain rfl : a = p := Except.ok.inj hp
  have hfile : ((repository kept).snapshot? 2).bind (fun s => (s.get? a).map Record.kind) =
      some .file := by decide +kernel
  rw [hs, Option.bind_some, hget, Option.map_some, hkind] at hfile
  cases hfile

end TreeDelta
