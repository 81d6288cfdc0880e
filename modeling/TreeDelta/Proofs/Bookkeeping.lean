import TreeDelta.Proofs.DraftShape
set_option autoImplicit false

/-!
# The books of a working copy

A node with a base is the one that its base revision has at its place in the
repository, and every other node was added right below its parent, from a
committed node if it names a source (`WorkingNode.Accounted`). The clauses carry
each other: a copy takes its source from the base of what is copied, and its place
from the books of the new parent.
-/
namespace TreeDelta

open Repository

def Repository.HasRecord (r : Repository) (n : Nat) (p : Path) (record : Record) : Prop :=
  ∃ s, r.snapshot? n = some s ∧ s.get? p = some record

/-- What a record of revision `n` tells of the past: its last change was in `n` or before, and what
it was copied from is older than `n`. -/
structure Record.IsDatedBy (n : Nat) (record : Record) : Prop where
  changed : record.changed ≤ n
  copySource : ∀ source, record.copySource = some source → source.revision < n

namespace WorkingNode

def HasCommittedSource (r : Repository) (node : WorkingNode) : Prop :=
  ∀ source, node.copySource = some source →
    ∃ record, r.HasRecord source.revision source.path record ∧ record.kind = node.kind

/-- The node is what revision `b` has at its place in the repository. -/
structure AtBase (r : Repository) (node : WorkingNode) (b : Nat) : Prop where
  record : ∃ record, r.HasRecord b node.reposPath record ∧ record.kind = node.kind ∧
    node.changed = some record.changed ∧ record.changed ≤ b
  copySource : node.copySource = none
  replaced : node.replaced = false

/-- The node was added below `parent`. What it replaced, if anything, is in the base of `parent`. -/
structure AddedBelow (r : Repository) (node parent : WorkingNode) (name : Name) : Prop where
  changed : node.changed = none
  reposPath : node.reposPath = parent.reposPath.child name
  replaced : node.replaced = true ↔ parent.BaseHas r node.reposPath
  source : node.HasCommittedSource r

/-- The books of the node at a path of `w` are in order. -/
inductive Accounted (r : Repository) (w : WorkingTree) : Path → WorkingNode → Prop
  | based {p : Path} {node : WorkingNode} {b : Nat} (hbase : node.base = some b)
      (h : node.AtBase r b) : Accounted r w p node
  | added {dir : Path} {name : Name} {parent node : WorkingNode} (hbase : node.base = none)
      (hparent : w.get? dir = some parent) (h : node.AddedBelow r parent name) :
    Accounted r w (dir.child name) node

end WorkingNode

open WorkingNode

variable {r r' : Repository} {w w' : WorkingTree}

theorem le_youngest_of_snapshot? {n : Nat} {s : Snapshot} (h : r.snapshot? n = some s) :
    n ≤ r.youngest := by
  cases n with
  | zero => exact Nat.zero_le _
  | succ n => exact (List.getElem?_eq_some_iff.1 h).1

namespace Repository.Extends

theorem snapshot?_eq_some (h : r.Extends r') {n : Nat} {s : Snapshot} (hs : r.snapshot? n = some s) :
    r'.snapshot? n = some s :=
  (h.snapshot?_eq (le_youngest_of_snapshot? hs)).trans hs

theorem hasRecord (h : r.Extends r') {n : Nat} {p : Path} {record : Record}
    (hrecord : r.HasRecord n p record) : r'.HasRecord n p record := by
  obtain ⟨s, hs, hget⟩ := hrecord
  exact ⟨s, h.snapshot?_eq_some hs, hget⟩

theorem committedSource (h : r.Extends r') {node : WorkingNode} (hnode : node.HasCommittedSource r) :
    node.HasCommittedSource r' := by
  intro source hsource
  obtain ⟨record, hrecord, hkind⟩ := hnode source hsource
  exact ⟨record, h.hasRecord hrecord, hkind⟩

theorem atBase (h : r.Extends r') {node : WorkingNode} {b : Nat} (hbase : node.AtBase r b) :
    node.AtBase r' b where
  record := by
    obtain ⟨record, hrecord, hrest⟩ := hbase.record
    exact ⟨record, h.hasRecord hrecord, hrest⟩
  copySource := hbase.copySource
  replaced := hbase.replaced

theorem baseHas_iff (h : r.Extends r') {node : WorkingNode} {q : Path}
    (hnode : ∀ b, node.base = some b → node.AtBase r b) : node.BaseHas r' q ↔ node.BaseHas r q := by
  constructor
  · rintro ⟨b, s, hb, hs, hq⟩
    obtain ⟨-, ⟨s', hs', -⟩, -⟩ := (hnode b hb).record
    rw [h.snapshot?_eq_some hs'] at hs
    exact ⟨b, s, hb, hs'.trans hs, hq⟩
  · rintro ⟨b, s, hb, hs, hq⟩
    exact ⟨b, s, hb, h.snapshot?_eq_some hs, hq⟩

end Repository.Extends

namespace WorkingNode

theorem ofRecord_atBase {n : Nat} {q : Path} {record : Record} (h : r.HasRecord n q record)
    (hdated : record.IsDatedBy n) : (ofRecord record q n).AtBase r n where
  record := ⟨record, h, rfl, rfl, hdated.changed⟩
  copySource := rfl
  replaced := rfl

namespace Accounted

variable {p : Path} {node : WorkingNode}

theorem atBase (h : Accounted r w p node) {b : Nat} (hb : node.base = some b) : node.AtBase r b := by
  cases h with
  | based hbase h =>
    rw [hbase] at hb
    exact Option.some.inj hb ▸ h
  | added hbase _ _ =>
    rw [hbase] at hb
    cases hb

theorem extend (h : Accounted r w p node) (hext : r.Extends r') (hw : w.All (Accounted r w)) :
    Accounted r' w p node := by
  cases h with
  | based hbase h => exact .based hbase (hext.atBase h)
  | @added dir name parent _ hbase hparent h =>
    have hbaseHas := hext.baseHas_iff (q := node.reposPath) fun b => (hw dir parent hparent).atBase
    exact .added hbase hparent
      ⟨h.changed, h.reposPath, h.replaced.trans hbaseHas.symm, hext.committedSource h.source⟩

/-- The books of a node speak of the tree only by the place and the base of the parent. -/
theorem of_parent (h : Accounted r w p node)
    (hparent : ∀ dir name parent, p = dir.child name → w.get? dir = some parent →
      ∃ parent', w'.get? dir = some parent' ∧ parent'.base = parent.base ∧
        parent'.reposPath = parent.reposPath) : Accounted r w' p node := by
  cases h with
  | based hbase h => exact .based hbase h
  | @added dir name parent _ hbase hdir h =>
    obtain ⟨parent', hdir', hbase', hrepos'⟩ := hparent dir name parent rfl hdir
    refine .added hbase hdir' ⟨h.changed, hrepos' ▸ h.reposPath, h.replaced.trans ?_, h.source⟩
    rw [BaseHas, BaseHas, hbase']

theorem withContent (h : Accounted r w p node) (content : Option ContentId) (props : Props) :
    Accounted r w p { node with content := content, props := props } := by
  cases h with
  | based hbase h => exact .based hbase ⟨h.record, h.copySource, h.replaced⟩
  | added hbase hparent h => exact .added hbase hparent ⟨h.changed, h.reposPath, h.replaced, h.source⟩

theorem outside {q : Path} (h : Accounted r w p node) (hp : p.isAtOrBelow q = false)
    (hsame : ∀ k, k.isAtOrBelow q = false → w'.get? k = w.get? k) : Accounted r w' p node := by
  refine h.of_parent ?_
  rintro dir name parent rfl hdir
  have hout : dir.isAtOrBelow q = false := by
    rw [Bool.eq_false_iff]
    intro hdirq
    rw [Path.isAtOrBelow_child_iff.2 (.inr hdirq)] at hp
    cases hp
  exact ⟨parent, (hsame dir hout).trans hdir, rfl, rfl⟩

theorem committedSource (h : Accounted r w p node) : node.HasCommittedSource r := by
  cases h with
  | based _ h =>
    intro source hsource
    rw [h.copySource] at hsource
    cases hsource
  | added _ _ h => exact h.source

theorem copyOf_committedSource (h : Accounted r w p node) (q : Path) (replaced : Bool) :
    (copyOf node q replaced).HasCommittedSource r := by
  intro source hsource
  cases hbase : node.base with
  | none =>
    rw [copyOf, hbase] at hsource
    exact h.committedSource source hsource
  | some b =>
    rw [copyOf, hbase] at hsource
    cases hsource
    obtain ⟨record, hrecord, hkind, -⟩ := (h.atBase hbase).record
    exact ⟨record, hrecord, hkind⟩

theorem copied {dir q : Path} {name : Name} {parent : WorkingNode} {replaced : Bool}
    (h : Accounted r w p node) (hparent : w'.get? dir = some parent)
    (hrepos : q = parent.reposPath.child name) (hreplaced : replaced = true ↔ parent.BaseHas r q) :
    Accounted r w' (dir.child name) (copyOf node q replaced) :=
  .added rfl hparent ⟨rfl, hrepos, hreplaced, h.copyOf_committedSource q replaced⟩

end Accounted

end WorkingNode

theorem accounted_withContent {p : Path} {node : WorkingNode} (hw : w.All (Accounted r w))
    (hnode : w.get? p = some node) (content : Option ContentId) (props : Props) :
    let w' := w.insert p { node with content := content, props := props }
    w'.All (Accounted r w') := by
  intro w'
  have hparents : ∀ dir parent, w.get? dir = some parent → ∃ parent', w'.get? dir = some parent' ∧
      parent'.base = parent.base ∧ parent'.reposPath = parent.reposPath := by
    intro dir parent hdir
    by_cases hp : dir = p
    · rw [hp, hnode] at hdir
      cases hdir
      rw [hp]
      exact ⟨_, OrderedMap.get?_insert_self w p _, rfl, rfl⟩
    · exact ⟨parent, (OrderedMap.get?_insert_ne w _ hp).trans hdir, rfl, rfl⟩
  have hkept : w.All (Accounted r w') := hw.mono fun k x hx =>
    hx.of_parent fun dir _ parent _ => hparents dir parent
  exact hkept.insert ((hkept p node hnode).withContent content props)

theorem accounted_added {p reposPath : Path} {replaced : Bool} (kind : NodeKind)
    (content : Option ContentId) (hr : r.working = some w) (hw : w.All (Accounted r w))
    (hplace : r.newLocation p = .ok (reposPath, replaced)) :
    let w' := w.insert p (.added kind content reposPath replaced)
    w'.All (Accounted r w') := by
  intro w'
  obtain ⟨hfree, dir, name, parent, rfl, hdir, -, hrepos, hreplaced⟩ := newLocation_eq_ok hr hplace
  have hold : ∀ k x, w.get? k = some x → w'.get? k = some x := by
    intro k x hx
    refine (OrderedMap.get?_insert_ne w _ ?_).trans hx
    rintro rfl
    rw [hfree] at hx
    cases hx
  have hkept : w.All (Accounted r w') := hw.mono fun k x hx =>
    hx.of_parent fun dir _ parent _ hdir => ⟨parent, hold dir parent hdir, rfl, rfl⟩
  refine hkept.insert (.added rfl (hold dir parent hdir) ⟨rfl, hrepos, hreplaced, ?_⟩)
  intro source hsource
  cases hsource

theorem accounted_subtree {q : Path} (hw : w.All (Accounted r w))
    (houtside : ∀ k, k.isAtOrBelow q = false → w'.get? k = w.get? k)
    (hbelow : ∀ rel node, w'.get? (q.join rel) = some node → Accounted r w' (q.join rel) node) :
    w'.All (Accounted r w') := by
  intro k node hnode
  cases hk : k.isAtOrBelow q with
  | false =>
    rw [houtside k hk] at hnode
    exact (hw k node hnode).outside hk houtside
  | true =>
    obtain ⟨rel, rfl⟩ := Path.isAtOrBelow_iff.1 hk
    exact hbelow rel node hnode

theorem accounted_withoutSubtree {p : Path} (hw : w.All (Accounted r w)) :
    (withoutSubtree w p).All (Accounted r (withoutSubtree w p)) := by
  refine accounted_subtree hw (fun _ hk => get?_withoutSubtree_outside hk) fun rel node hnode => ?_
  rw [get?_withoutSubtree_below (Path.isAtOrBelow_join p rel)] at hnode
  cases hnode

theorem accounted_copied {p q reposPath : Path} {replaced : Bool} (hr : r.working = some w)
    (hconnected : w.shape.IsConnected) (hw : w.All (Accounted r w))
    (hplace : r.newLocation q = .ok (reposPath, replaced)) :
    let w' := w.insertMany (copiedNodes w p q reposPath replaced)
    w'.All (Accounted r w') := by
  intro w'
  obtain ⟨hfree, dir, name, parent, rfl, hdir, -, hrepos, hreplaced⟩ := newLocation_eq_ok hr hplace
  have hbelow : ∀ rel, w'.get? ((dir.child name).join rel) = (w.get? (p.join rel)).map fun node =>
      copyOf node (reposPath.join rel) (replaced && rel.isRoot) := get?_copied_below hconnected hfree
  refine accounted_subtree hw (fun _ hk => get?_copied_outside hk) fun rel node hnode => ?_
  rw [hbelow, Option.map_eq_some_iff] at hnode
  obtain ⟨copied, hcopied, rfl⟩ := hnode
  have hcopied' := hw _ copied hcopied
  rcases rel.eq_root_or_child with rfl | ⟨rel, m, rfl⟩
  · have hparent : w'.get? dir = some parent :=
      (get?_copied_outside (Path.isAtOrBelow_child_self dir name)).trans hdir
    have hflag : (replaced && Path.root.isRoot) = replaced := Bool.and_true replaced
    rw [hflag, Path.join_root, Path.join_root]
    exact hcopied'.copied hparent hrepos hreplaced
  · rw [Path.join_child] at hcopied
    obtain ⟨parent', hparent'⟩ := WorkingTree.exists_parent hconnected hcopied
    have hcopy := (hbelow rel).trans (congrArg (Option.map _) hparent')
    have hflag : (replaced && (rel.child m).isRoot) = false := by
      rw [Bool.eq_false_iff.2 (mt Path.isRoot_iff.1 (Path.child_ne_root rel m)), Bool.and_false]
    rw [hflag, Path.join_child, Path.join_child]
    refine hcopied'.copied hcopy rfl (iff_of_false Bool.false_ne_true ?_)
    rintro ⟨b, _, hb, -⟩
    cases hb

theorem accounted_switched {p q : Path} {n : Nat} {s : Snapshot} (hw : w.All (Accounted r w))
    (hs : r.snapshot? n = some s) (hdated : s.All fun _ record => record.IsDatedBy n) :
    let w' := (withoutSubtree w p).insertMany (switchedNodes s p q n)
    w'.All (Accounted r w') := by
  intro w'
  refine accounted_subtree hw (fun _ hk => get?_switched_outside hk) fun rel node hnode => ?_
  rw [get?_switched_below, Option.map_eq_some_iff] at hnode
  obtain ⟨record, hrecord, rfl⟩ := hnode
  exact .based rfl (ofRecord_atBase ⟨s, hs, hrecord⟩ (hdated _ record hrecord))

theorem accounted_ofSnapshot {n : Nat} {s : Snapshot} (hs : r.snapshot? n = some s)
    (hdated : s.All fun _ record => record.IsDatedBy n) (w : WorkingTree) :
    (WorkingTree.ofSnapshot s n).All (Accounted r w) :=
  OrderedMap.all_map_iff.2 fun p record hrecord =>
    .based rfl (ofRecord_atBase ⟨s, hs, hrecord⟩ (hdated p record hrecord))

/-- The books of the working copy are in order, and those of the revisions tell of the past alone. -/
structure Repository.BooksKept (r : Repository) : Prop where
  snapshot : ∀ {n s}, r.snapshot? n = some s → s.All fun _ record => record.IsDatedBy n
  working : ∀ {w}, r.working = some w → w.All (Accounted r w)

theorem LocalChange.accounted (h : LocalChange r w w') (hr : r.BooksKept)
    (hconnected : w.shape.IsConnected) (hw : r.working = some w) : w'.All (Accounted r w') := by
  have hbooks := hr.working hw
  cases h with
  | setContent hnode _ _ => exact accounted_withContent hbooks hnode _ _
  | setProps _ hnode => exact accounted_withContent hbooks hnode _ _
  | addFile hplace _ => exact accounted_added _ _ hw hbooks hplace
  | addDirectory hplace => exact accounted_added _ _ hw hbooks hplace
  | delete _ _ => exact accounted_withoutSubtree hbooks
  | copy _ _ hplace => exact accounted_copied hw hconnected hbooks hplace
  | switch hs _ _ _ => exact accounted_switched hbooks hs (hr.snapshot hs)

namespace Repository.BooksKept

theorem keep (h : r.BooksKept) (data : List Bytes) : (r.keep data).BooksKept where
  snapshot := h.snapshot
  working hw := (h.working hw).mono fun _ _ hnode =>
    hnode.extend ⟨List.prefix_refl _, r.blobs.grows_putMany data⟩ (h.working hw)

theorem withWorking (h : r.BooksKept) (hw : w.All (Accounted r w)) :
    BooksKept { r with working := some w } where
  snapshot := h.snapshot
  working heq := by
    cases heq
    exact hw.mono fun _ _ hnode => hnode.extend ⟨List.prefix_refl _, .refl _⟩ hw

theorem append (h : r.BooksKept) {s : Snapshot}
    (hs : s.All fun _ record => record.IsDatedBy r.nextRevision) (hext : r.Extends r')
    (hrevisions : r'.revisions = r.revisions ++ [s]) (hworking : r'.working = r.working) :
    r'.BooksKept where
  snapshot ht := by
    rcases (snapshot?_append hrevisions).1 ht with ht | ⟨rfl, rfl⟩
    · exact h.snapshot ht
    · exact hs
  working hw := by
    rw [hworking] at hw
    exact (h.working hw).mono fun _ _ hnode => hnode.extend hext (h.working hw)

theorem isDatedBy_carry (h : r.BooksKept) {old : Option Record} {new : Record} {p : Path}
    (hold : ∀ record, old = some record → r.youngestSnapshot.get? p = some record)
    (hnew : new.IsDatedBy r.nextRevision) : (Record.carry old new).IsDatedBy r.nextRevision where
  changed := by
    rcases Record.changed_carry old new with heq | ⟨record, hrecord, heq⟩
    · rw [heq]
      exact hnew.changed
    · rw [heq]
      have hdated := h.snapshot r.snapshot?_youngest p record (hold record hrecord)
      exact Nat.le_succ_of_le hdated.changed
  copySource := by
    rw [(Record.carry_fields old new).2.2.2]
    exact hnew.copySource

theorem snapshotOf (h : r.BooksKept) {d : Draft}
    (hsources : ∀ e ∈ d.nodes.entries, e.2.sourcePrecedes r.nextRevision = true) :
    (r.snapshotOf d).All fun _ record => record.IsDatedBy r.nextRevision := by
  have hdraft : (d.nodes.insertIfNew .root .directory).All fun _ node =>
      node.sourcePrecedes r.nextRevision = true := by
    refine OrderedMap.All.insertIfNew ?_ rfl
    exact fun p node hnode => hsources (p, node) (OrderedMap.get?_eq_some_iff.1 hnode)
  refine OrderedMap.all_map_iff.2 (hdraft.mono fun p node hnode => ?_)
  refine h.isDatedBy_carry (p := p) (fun _ hrecord => hrecord) ⟨Nat.le_refl _, ?_⟩
  intro source hsource
  change node.copySource = some source at hsource
  rw [DraftNode.sourcePrecedes, hsource] at hnode
  simpa using hnode

theorem recordOf (h : r.BooksKept) (hw : r.working = some w) :
    (w.map r.recordOf).All fun _ record => record.IsDatedBy r.nextRevision := by
  refine OrderedMap.all_map_iff.2 fun p node hnode => ?_
  refine h.isDatedBy_carry (p := p) ?_ ⟨Nat.le_refl _, ?_⟩
  · intro record hrecord
    split at hrecord
    · cases hrecord
    · exact hrecord
  · -- A source that a working node names is committed; one recorded before is older still.
    intro source hsource
    dsimp only at hsource
    split at hsource
    · obtain ⟨record, ⟨s, hs, -⟩, -⟩ := (h.working hw p node hnode).committedSource source hsource
      exact Nat.lt_succ_of_le (le_youngest_of_snapshot? hs)
    · obtain ⟨record, hrecord, hsource⟩ := Option.bind_eq_some_iff.1 hsource
      have hdated := h.snapshot r.snapshot?_youngest p record hrecord
      exact Nat.lt_succ_of_lt (hdated.copySource source hsource)

end Repository.BooksKept

theorem LocalChanges.booksKept (h : LocalChanges r r') (hr : r.BooksKept)
    (hconnected : r.Grounded fun _ => True) : r'.BooksKept := by
  induction h with
  | refl => exact hr
  | step hw hchange _ ih =>
    refine ih (hr.withWorking ?_) (hconnected.withWorking ?_)
    · exact hchange.accounted hr (hconnected.working hw) hw
    · exact hchange.grounded trivial hconnected hw

theorem Step.booksKept {op : Operation} {out : Outcome} (h : Step r op out) (hr : r.BooksKept)
    (hconnected : r.Grounded fun _ => True) : out.1.BooksKept := by
  have hext := h.extends
  cases h with
  | failed data _ => exact hr.keep data
  | keptContent data => exact hr.keep [data]
  | edited data hchanges =>
    exact hchanges.booksKept (hr.keep data) ⟨hconnected.snapshot, hconnected.working⟩
  | checkedOut hs => exact hr.withWorking (accounted_ofSnapshot hs (hr.snapshot hs) _)
  | committed _ hsources => exact hr.append (hr.snapshotOf hsources) hext rfl rfl
  | @committedWorkingCopy w hw _ =>
    have happend : BooksKept { r with revisions := r.revisions ++ [w.map r.recordOf] } :=
      hr.append (hr.recordOf hw) ⟨List.prefix_append _ _, .refl _⟩ rfl rfl
    have hs : snapshot? { r with revisions := r.revisions ++ [w.map r.recordOf] } r.nextRevision =
        some (w.map r.recordOf) := (snapshot?_append rfl).2 (.inr ⟨rfl, rfl⟩)
    exact happend.withWorking (accounted_ofSnapshot hs (happend.snapshot hs) _)

theorem empty_booksKept : Repository.empty.BooksKept where
  snapshot {n s} hs := by
    cases n with
    | zero =>
      cases hs
      refine OrderedMap.all_empty.insert ⟨Nat.le_refl _, fun source hsource => ?_⟩
      cases hsource
    | succ n => cases hs
  working hw := by cases hw

theorem Repository.Arises.booksKept (h : r.Arises) : r.BooksKept := by
  induction h with
  | empty => exact empty_booksKept
  | commitNew h edits ih => exact (step_commit _ _).booksKept ih h.isConnected
  | commitRevised h _ _ edits ih _ => exact (step_commit _ _).booksKept ih h.isConnected
  | run h _ ih => exact (step_run _ _).booksKept ih h.isConnected

/-- The books of a working copy in full, and what revisions record of copies. -/
theorem books_consistent (h : r.Arises) :
    (∀ w, r.working = some w →
      (∃ node b, w.get? .root = some node ∧ node.base = some b) ∧
      ∀ p node, w.get? p = some node →
        node.base.isSome = node.changed.isSome ∧
        (∀ b, node.base = some b → node.AtBase r b) ∧
        (node.base = none → ∃ dir name parent, p = Path.child dir name ∧ w.get? dir = some parent ∧
          node.AddedBelow r parent name)) ∧
    ∀ n p record source, r.HasRecord n p record → record.copySource = some source →
      source.revision < n := by
  have hbooks := h.booksKept
  refine ⟨fun w hw => ⟨?_, fun p node hnode => ?_⟩, ?_⟩
  · obtain ⟨k, hk, -⟩ := (h.isConnected.working hw).root
    obtain ⟨node, hnode, -⟩ := Option.map_eq_some_iff.1 hk
    refine ⟨node, ?_⟩
    generalize hroot : Path.root = p at hnode
    cases hbooks.working hw p node hnode with
    | based hbase _ => exact ⟨_, hnode, hbase⟩
    | added _ _ _ => exact absurd hroot.symm (Path.child_ne_root _ _)
  · cases hbooks.working hw p node hnode with
    | @based _ _ b hbase hat =>
      obtain ⟨record, -, -, hchanged, -⟩ := hat.record
      refine ⟨by rw [hbase, hchanged]; rfl, fun b' hb' => ?_, fun hnone => ?_⟩
      · rw [hbase] at hb'
        exact Option.some.inj hb' ▸ hat
      · rw [hbase] at hnone
        cases hnone
    | @added dir name parent _ hbase hparent hadded =>
      refine ⟨by rw [hbase, hadded.changed], fun b hb => ?_, fun _ => ?_⟩
      · rw [hbase] at hb
        cases hb
      · exact ⟨dir, name, parent, rfl, hparent, hadded⟩
  · rintro n p record source ⟨s, hs, hrecord⟩ hsource
    exact (hbooks.snapshot hs p record hrecord).copySource source hsource

namespace MovedCopy

def draft : Draft := Draft.empty.applyAll [.directory "d/e", .directory "f"]

def operations : List Operation :=
  [.commit draft, .checkout 1, .edit (.copy "d" "g"), .edit (.move "g" "h"), .edit (.delete "f"),
   .edit (.makeDirectory "f")]

def repository : Repository := Repository.empty.runAll operations

def path (name : String) (h : isName name = true) : Path := ⟨[⟨name, h⟩]⟩

def moved : WorkingNode :=
  ⟨.directory, none, .empty, path "h" (Eq.refl true), none, none, some ⟨path "d" (Eq.refl true), 1⟩, false⟩

def remade : WorkingNode := .added .directory none (path "f" (by decide)) true

theorem repository_arises : repository.Arises := by
  refine Repository.Arises.empty.runAll fun d hd => ?_
  obtain rfl : d = draft := by simpa [operations] using hd
  exact .new _

end MovedCopy

open MovedCopy in
theorem books_consistent_movedCopy :
    repository.Arises ∧ ∃ w, repository.working = some w ∧
      w.get? moved.reposPath = some moved ∧ w.get? remade.reposPath = some remade ∧
      (∃ record, repository.HasRecord 1 (path "d" (by decide)) record ∧ record.kind = .directory) ∧
      ∃ parent, w.get? .root = some parent ∧ parent.BaseHas repository (path "f" (by decide)) := by
  have hbooks := ((books_consistent repository_arises).1 _ rfl).2
  refine ⟨repository_arises, _, rfl, by decide +kernel, by decide +kernel, ?_, ?_⟩
  · obtain ⟨_, _, _, _, _, hadded⟩ := (hbooks moved.reposPath moved (by decide +kernel)).2.2 rfl
    exact hadded.source _ rfl
  · obtain ⟨dir, name, parent, hpath, hparent, hadded⟩ :=
      (hbooks remade.reposPath remade (by decide +kernel)).2.2 rfl
    obtain ⟨rfl, -⟩ := Path.child_inj (p := .root) hpath
    exact ⟨parent, hparent, hadded.replaced.1 rfl⟩

end TreeDelta
