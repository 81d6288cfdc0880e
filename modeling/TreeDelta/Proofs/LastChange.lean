import TreeDelta.Proofs.CleanCopy
set_option autoImplicit false

/-!
# Last changes

The revision that a record calls its last change is the one in which the node became what
it is: the record stands from there on, and the revision before has nothing at the path or
something else (`changed_is_last`). Only a commit of the working copy can date a node anew
that is as it was, and it does so for a node that is flagged as replacing another.
-/
namespace TreeDelta

open Repository WorkingNode

variable {r r' : Repository}

def Record.DiffersFrom (a b : Record) : Prop :=
  a.kind ≠ b.kind ∨ a.content ≠ b.content ∨ a.props ≠ b.props ∨ a.copySource ≠ b.copySource

theorem Record.sameNode_eq_false_iff {a b : Record} : a.sameNode b = false ↔ a.DiffersFrom b := by
  rw [← Bool.not_eq_true, sameNode, DiffersFrom]
  simp only [Bool.and_eq_true, beq_iff_eq]
  tauto

theorem Record.not_differsFrom_self (record : Record) : ¬ record.DiffersFrom record := by
  simp [DiffersFrom]

/-- What dates each record of `s`, which is to follow `r`: it is the one of the youngest revision, or
it is new because that revision does not have it or `remade` says so. -/
def Snapshot.DatedAfter (s : Snapshot) (r : Repository) (remade : Path → Prop) : Prop :=
  s.All fun p record => r.youngestSnapshot.get? p = some record ∨
    record.changed = r.nextRevision ∧
      ((∀ before, r.youngestSnapshot.get? p = some before → before.DiffersFrom record) ∨ remade p)

theorem datedAfter_carry {p : Path} {new : Record} (hnew : new.changed = r.nextRevision)
    {replaced : Bool} {remade : Prop} (hremade : replaced = true → remade) :
    let record := Record.carry (if replaced then none else r.youngestSnapshot.get? p) new
    r.youngestSnapshot.get? p = some record ∨ record.changed = r.nextRevision ∧
      ((∀ before, r.youngestSnapshot.get? p = some before → before.DiffersFrom record) ∨ remade) := by
  intro record
  cases replaced with
  | true => exact .inr ⟨hnew, .inr (hremade rfl)⟩
  | false =>
    rcases Record.carry_cases (r.youngestSnapshot.get? p) new with ⟨hrecord, hdiffers⟩ | hold
    · have hrecord' : record = new := hrecord
      rw [hrecord']
      exact .inr ⟨hnew, .inl fun before hbefore =>
        Record.sameNode_eq_false_iff.1 (hdiffers before hbefore)⟩
    · exact .inl hold

theorem snapshotOf_datedAfter (r : Repository) (d : Draft) (remade : Path → Prop) :
    (r.snapshotOf d).DatedAfter r remade := by
  refine OrderedMap.all_map_iff.2 fun p node _ => ?_
  have hnew : (node.record r.nextRevision).changed = r.nextRevision := rfl
  have hremade (h : false = true) : remade p := by cases h
  exact datedAfter_carry hnew hremade

theorem recordOf_datedAfter (r : Repository) (w : WorkingTree) :
    Snapshot.DatedAfter (w.map r.recordOf) r fun p =>
      ∃ node, w.get? p = some node ∧ node.replaced = true := by
  refine OrderedMap.all_map_iff.2 fun p node hnode => ?_
  obtain ⟨new, hnew, hrecord⟩ := recordOf_eq_carry r p node
  have hremade (hreplaced : node.replaced = true) :
      ∃ node, w.get? p = some node ∧ node.replaced = true :=
    ⟨node, hnode, hreplaced⟩
  rw [hrecord]
  exact datedAfter_carry hnew hremade

/-- What dates a record at `p`: it is one of revision 0, or the revision before its last change does
not have it, or it was made anew. -/
def Repository.Dates (r : Repository) (remade : Nat → Path → Prop) (p : Path) (record : Record) :
    Prop :=
  record.changed = 0 ∨
    (∀ before, r.HasRecord (record.changed - 1) p before → before.DiffersFrom record) ∨
    remade record.changed p

def Repository.AllDated (r : Repository) (remade : Nat → Path → Prop) : Prop :=
  ∀ n p record, r.HasRecord n p record → record.changed ≤ n ∧ r.Dates remade p record

/-- The operation commits the working copy as revision `n`, with a node at `p` that is flagged as
replacing another. -/
def Operation.Remakes (op : Operation) (r : Repository) (n : Nat) (p : Path) : Prop :=
  op = .commitWorkingCopy ∧ (op.run r).2 = .ok () ∧ (op.run r).1.youngest = n ∧
    ∃ w node, r.working = some w ∧ w.get? p = some node ∧ node.replaced = true

/-- One of the operations, which start from nothing, makes revision `n` with `p` made anew. -/
def RemadeIn (ops : List Operation) (n : Nat) (p : Path) : Prop :=
  ∃ before op after, ops = before ++ op :: after ∧ op.Remakes (Repository.empty.runAll before) n p

namespace Repository.AllDated

variable {remade remade' : Nat → Path → Prop}

theorem of_revisions (h : r.AllDated remade) (hrevisions : r'.revisions = r.revisions)
    (hmono : ∀ n p, remade n p → remade' n p) : r'.AllDated remade' := by
  intro n p record
  simp only [HasRecord, Dates, snapshot?_eq_of_revisions hrevisions]
  exact fun hrecord => (h n p record hrecord).imp_right (.imp_right (.imp_right (hmono _ _)))

theorem append (h : r.AllDated remade) {s : Snapshot} (hs : s.DatedAfter r (remade' r.nextRevision))
    (hrevisions : r'.revisions = r.revisions ++ [s]) (hmono : ∀ n p, remade n p → remade' n p) :
    r'.AllDated remade' := by
  have hbefore : ∀ {n p before}, n ≤ r.youngest → r'.HasRecord n p before → r.HasRecord n p before :=
    fun hn hrecord => ((hasRecord_append hrevisions).1 hrecord).resolve_right fun hnew => by
      have heq := hnew.1
      rw [nextRevision] at heq
      omega
  have hold : ∀ {n p record}, r.HasRecord n p record →
      record.changed ≤ n ∧ r'.Dates remade' p record := by
    intro n p record hrecord
    obtain ⟨hchanged, hdates⟩ := h n p record hrecord
    have hyoungest : n ≤ r.youngest := by
      obtain ⟨s, hs, -⟩ := hrecord
      exact le_youngest_of_snapshot? hs
    refine ⟨hchanged, hdates.imp_right (.imp ?_ (hmono _ _))⟩
    exact fun hdiffers before hrecord' => hdiffers before (hbefore (by omega) hrecord')
  intro n p record hrecord
  rcases (hasRecord_append hrevisions).1 hrecord with hrecord | ⟨rfl, hget⟩
  · exact hold hrecord
  · rcases hs p record hget with hyoungest | ⟨hchanged, hreason⟩
    · exact (hold (hasRecord_youngest.2 hyoungest)).imp_left Nat.le_succ_of_le
    · refine ⟨Nat.le_of_eq hchanged, .inr ?_⟩
      rw [hchanged]
      refine hreason.imp_left fun hdiffers before hrecord' => hdiffers before ?_
      exact hasRecord_youngest.1 (hbefore (Nat.le_refl _) hrecord')

end Repository.AllDated

theorem Step.allDated {op : Operation} {out : Outcome} (h : Step r op out)
    {remade remade' : Nat → Path → Prop} (hr : r.AllDated remade)
    (hmono : ∀ n p, remade n p → remade' n p)
    (hremakes : ∀ w p node, op = .commitWorkingCopy → out.2 = .ok () → r.working = some w →
      w.get? p = some node → node.replaced = true → remade' out.1.youngest p) :
    out.1.AllDated remade' := by
  cases h with
  | failed data _ => exact hr.of_revisions rfl hmono
  | keptContent data => exact hr.of_revisions rfl hmono
  | edited data hchanges => exact hr.of_revisions hchanges.frame.1 hmono
  | checkedOut _ => exact hr.of_revisions rfl hmono
  | @committed d _ _ => exact hr.append (snapshotOf_datedAfter r d _) rfl hmono
  | @committedWorkingCopy w hw _ =>
    refine hr.append ((recordOf_datedAfter r w).mono fun p record => ?_) rfl hmono
    refine .imp_right (.imp_right (.imp_right ?_))
    rintro ⟨node, hnode, hreplaced⟩
    have hremade := hremakes w p node rfl rfl hw hnode hreplaced
    rwa [youngest, List.length_append] at hremade

theorem RemadeIn.append {ops : List Operation} {n : Nat} {p : Path} (h : RemadeIn ops n p)
    (op : Operation) : RemadeIn (ops ++ [op]) n p := by
  obtain ⟨before, op', after, rfl, hremakes⟩ := h
  exact ⟨before, op', after ++ [op], by simp, hremakes⟩

theorem empty_allDated (remade : Nat → Path → Prop) : Repository.empty.AllDated remade := by
  rintro n p record ⟨s, hs, hget⟩
  cases n with
  | zero =>
    cases hs
    have hzero : Snapshot.bare.All fun _ record => record.changed = 0 := OrderedMap.all_empty.insert rfl
    have hchanged := hzero p record hget
    exact ⟨Nat.le_of_eq hchanged, .inl hchanged⟩
  | succ n => cases hs

theorem runAll_allDated (ops : List Operation) :
    (Repository.empty.runAll ops).AllDated (RemadeIn ops) := by
  induction ops using List.reverseRecOn with
  | nil => exact empty_allDated _
  | append_singleton ops op ih =>
    have hrun : Repository.empty.runAll (ops ++ [op]) = (op.run (Repository.empty.runAll ops)).1 :=
      List.foldl_append
    rw [hrun]
    refine (step_run _ op).allDated ih (fun n p h => h.append op) ?_
    intro w p node hop hok hw hnode hreplaced
    exact ⟨ops, op, [], rfl, hop, hok, rfl, w, node, hw, hnode, hreplaced⟩

theorem resolveTree_file {e : Endpoint} {n : Nat} {p : Path} {record : Record}
    (hl : e.locate r.store = .ok ⟨.revision n, p⟩) (hrecord : r.HasRecord n p record)
    (hkind : record.kind = .file) (o : Options) :
    ∃ t, resolveTree r.store e o = .ok t ∧
      t.states = OrderedMap.empty.insert .root ⟨.file, record.content, record.props⟩ := by
  obtain ⟨v, hv, hnode⟩ : ∃ v, r.view? (.revision n) = some v ∧
      v.nodes.get? p = some (record.node p n) := by
    obtain ⟨s, hs, hget⟩ := hrecord
    refine ⟨_, congrArg (Option.map _) hs, ?_⟩
    rw [OrderedMap.get?_map, hget, Option.map_some]
  obtain ⟨t, ht, hreads⟩ := resolveTree_reads (o := o) hl hv
  have hroot : (r.walkAt ⟨.revision n, p⟩ o).Reads v o.depth .root _ := .root hnode
  refine ⟨t, ht, OrderedMap.ext_get? fun rel => ?_⟩
  rw [NodeTree.get?_states]
  by_cases hrel : rel = .root
  · subst hrel
    rw [(hreads .root _).2 hroot, OrderedMap.get?_insert_self, ← hkind]
    rfl
  · rw [OrderedMap.get?_insert_ne _ _ hrel, OrderedMap.get?_empty, Option.map_eq_none_iff]
    by_contra hne
    obtain ⟨m, hm⟩ := Option.ne_none_iff_exists'.1 hne
    have hread := (hreads rel m).1 hm
    rw [← Path.root_join rel] at hread
    -- What is read below the file would be read because the file is a directory.
    have hnames : rel.names ≠ [] := fun h => hrel (congrArg Path.mk h)
    obtain ⟨parent, hparent, hdirectory, -⟩ := hread.of_below hnames
    rw [hparent.unique hroot, TreeWalk.placed_isDirectory, Node.isDirectory, Record.node,
      hkind] at hdirectory
    cases hdirectory

theorem resolveTree_base_committed (hr : r.Arises) {w : WorkingTree} (hw : r.working = some w)
    {p : Path} {node : WorkingNode} (hnode : w.get? p = some node) (hfile : node.kind = .file) {b : Nat}
    (hbase : node.base = some b) (o : Options) :
    ∃ t t' state, resolveTree r.store ⟨.workingCopy p, .base⟩ o = .ok t ∧
      resolveTree r.store ⟨.workingCopy p, .committed⟩ o = .ok t' ∧ state.kind = .file ∧
      t.states = OrderedMap.empty.insert .root state ∧
      t'.states = OrderedMap.empty.insert .root state := by
  obtain ⟨record, hrecord, hkind, hchanged, hle⟩ :=
    ((hr.booksKept.working hw p node hnode).atBase hbase).record
  have hrecord' := hr.reachable.hasRecord_since hrecord _ (Nat.le_refl _) hle
  have hlocate : Endpoint.locate r.store ⟨.workingCopy p, .base⟩ = .ok ⟨.revision b, node.reposPath⟩ :=
    locate_recorded hw hnode hbase hchanged (by decide) rfl
  have hlocate' : Endpoint.locate r.store ⟨.workingCopy p, .committed⟩ =
      .ok ⟨.revision record.changed, node.reposPath⟩ :=
    locate_recorded hw hnode hbase hchanged (by decide) rfl
  obtain ⟨t, ht, hstates⟩ := resolveTree_file hlocate hrecord (hkind.trans hfile) o
  obtain ⟨t', ht', hstates'⟩ := resolveTree_file hlocate' hrecord' (hkind.trans hfile) o
  exact ⟨t, t', _, ht, ht', rfl, hstates, hstates'⟩

/-- Whatever operations bring a repository about, the last change that a record tells of is the last
one there was, and a file of the working copy is at its last change what it is at its base. -/
theorem changed_is_last {ops : List Operation} (hops : ∀ d, .commit d ∈ ops → d.Arises)
    (hr : Repository.empty.runAll ops = r) :
    (∀ n p record, r.HasRecord n p record →
      record.changed ≤ n ∧ (∀ m, record.changed ≤ m → m ≤ n → r.HasRecord m p record) ∧
      (record.changed = 0 ∨
        (∀ before, r.HasRecord (record.changed - 1) p before → before.DiffersFrom record) ∨
        RemadeIn ops record.changed p)) ∧
    ∀ w p node b, r.working = some w → w.get? p = some node → node.kind = .file → node.base = some b →
      ∀ o, ∃ t t' state, resolveTree r.store ⟨.workingCopy p, .base⟩ o = .ok t ∧
        resolveTree r.store ⟨.workingCopy p, .committed⟩ o = .ok t' ∧ state.kind = .file ∧
        t.states = OrderedMap.empty.insert .root state ∧
        t'.states = OrderedMap.empty.insert .root state := by
  have harises : r.Arises := hr ▸ Repository.Arises.empty.runAll hops
  have hdated : r.AllDated (RemadeIn ops) := hr ▸ runAll_allDated ops
  refine ⟨fun n p record hrecord => ?_, fun w p node b hw hnode hfile hbase => ?_⟩
  · obtain ⟨hle, hdates⟩ := hdated n p record hrecord
    exact ⟨hle, harises.reachable.hasRecord_since hrecord, hdates⟩
  · exact resolveTree_base_committed harises hw hnode hfile hbase

namespace Redated

def draft : Draft := Draft.empty.applyAll [.directory "d", .directory "e", .file "f" [97]]

def operations : List Operation :=
  [.commit draft, .checkout 1, .edit (.write "f" [98]), .edit (.delete "d"), .edit (.makeDirectory "d"),
   .commitWorkingCopy, .edit (.setProp "e" "p" "1"), .commitWorkingCopy]

def repository : Repository := Repository.empty.runAll operations

theorem operations_arise : ∀ d, .commit d ∈ operations → d.Arises := by
  intro d hd
  obtain rfl : d = draft := by simpa [operations] using hd
  exact .new _

def d : Path := Path.root.child ⟨"d", Eq.refl true⟩

def f : Path := Path.root.child ⟨"f", Eq.refl true⟩

def directory : Record := ⟨.directory, none, .empty, none, 2⟩

def file : Record := ⟨.file, some (.ofBytes [98]), .empty, none, 2⟩

def node : WorkingNode := .ofRecord file f 3

theorem hasRecord : repository.HasRecord 3 d directory ∧ repository.HasRecord 3 f file ∧
    repository.HasRecord 1 d { directory with changed := 1 } :=
  ⟨⟨_, rfl, rfl⟩, ⟨_, rfl, by decide +kernel⟩, ⟨_, rfl, rfl⟩⟩

theorem working_get? : ∃ w, repository.working = some w ∧ w.get? f = some node :=
  ⟨_, rfl, by decide +kernel⟩

end Redated

open Redated in
theorem changed_is_last_redated :
    (∀ d, .commit d ∈ operations → d.Arises) ∧ repository.HasRecord 2 f file ∧
      (repository.HasRecord 2 d directory ∧ RemadeIn operations 2 d) ∧
      ∃ t t' state, resolveTree repository.store ⟨.workingCopy f, .base⟩ .default = .ok t ∧
        resolveTree repository.store ⟨.workingCopy f, .committed⟩ .default = .ok t' ∧
        state.kind = .file ∧ t.states = OrderedMap.empty.insert .root state ∧
        t'.states = OrderedMap.empty.insert .root state := by
  obtain ⟨hrecords, hfiles⟩ := changed_is_last (r := repository) operations_arise rfl
  obtain ⟨hdirectory, hfile, hfirst⟩ := hasRecord
  obtain ⟨w, hw, hnode⟩ := working_get?
  refine ⟨operations_arise, ?_, ⟨?_, ?_⟩, hfiles w f node 3 hw hnode rfl rfl .default⟩
  · exact (hrecords 3 f file hfile).2.1 2 (Nat.le_refl 2) (by decide)
  · exact (hrecords 3 d directory hdirectory).2.1 2 (Nat.le_refl 2) (by decide)
  · rcases (hrecords 3 d directory hdirectory).2.2 with hzero | hdiffers | hremade
    · cases hzero
    · have hself := hdiffers _ hfirst
      simp [Record.DiffersFrom] at hself
    · exact hremade

theorem get?_map_recordOf {w : WorkingTree} {p : Path} {node : WorkingNode}
    (hnode : w.get? p = some node) :
    (OrderedMap.map r.recordOf w).get? p = some (r.recordOf p node) := by
  rw [OrderedMap.get?_map, hnode, Option.map_some]

theorem changed_recordOf (hr : r.Arises) {w : WorkingTree} {p : Path} {node : WorkingNode}
    (hnode : w.get? p = some node) :
    ((r.recordOf p node).changed = r.nextRevision ↔ node.replaced = true ∨
      ∀ old, r.HasRecord r.youngest p old → old.DiffersFrom (r.recordOf p node)) ∧
    ((r.recordOf p node).changed ≠ r.nextRevision → r.HasRecord r.youngest p (r.recordOf p node)) := by
  simp only [hasRecord_youngest]
  have hget := get?_map_recordOf (r := r) hnode
  rcases recordOf_datedAfter r w p _ hget with hold | ⟨hchanged, hreason⟩
  · have hle := (hr.booksKept.snapshot r.snapshot?_youngest p _ hold).changed
    have hne : (r.recordOf p node).changed ≠ r.nextRevision := Nat.ne_of_lt (Nat.lt_succ_of_le hle)
    refine ⟨iff_of_false hne ?_, fun _ => hold⟩
    rintro (hreplaced | hdiffers)
    · obtain ⟨new, hnew, hrecord⟩ := recordOf_eq_carry r p node
      rw [hreplaced] at hrecord
      exact hne (hrecord ▸ hnew)
    · exact Record.not_differsFrom_self _ (hdiffers _ hold)
  · refine ⟨iff_of_true hchanged ?_, fun hne => absurd hchanged hne⟩
    rcases hreason with hdiffers | ⟨node', hnode', hreplaced⟩
    · exact .inr hdiffers
    · rw [hnode] at hnode'
      cases hnode'
      exact .inl hreplaced

theorem WorkingNode.Accounted.replaced_iff {w : WorkingTree} {p : Path} {node : WorkingNode}
    (h : Accounted r w p node) (hbase : node.base = none) :
    node.replaced = true ↔ ∃ dir name parent, p = Path.child dir name ∧ w.get? dir = some parent ∧
      parent.BaseHas r node.reposPath := by
  cases h with
  | based hbase' _ =>
    rw [hbase] at hbase'
    cases hbase'
  | @added dir name parent _ _ hparent hadded =>
    rw [hadded.replaced]
    constructor
    · exact fun hhas => ⟨dir, name, parent, rfl, hparent, hhas⟩
    · rintro ⟨dir', name', parent', hpath, hparent', hhas⟩
      obtain ⟨rfl, rfl⟩ := Path.child_inj hpath
      rw [hparent] at hparent'
      cases hparent'
      exact hhas

theorem bookkeeping?_ofSnapshot {n : Nat} {s : Snapshot} (hw : r.working = some (.ofSnapshot s n))
    {p : Path} {record : Record} (hrecord : s.get? p = some record) :
    r.bookkeeping? p = .ok (some ⟨p, some n, some record.changed⟩) := by
  simp only [bookkeeping?, workingTree_eq_ok_iff.2 hw, bind, Except.bind, WorkingTree.ofSnapshot,
    OrderedMap.get?_map, hrecord]
  rfl

/-- A node without a base is dated by the commit exactly if it lies where the base of its parent has
a node, or differs from what the youngest revision had at its path. Otherwise it takes the record of
that revision. -/
theorem changed_of_addition (hr : r.Arises) (h : r.commitWorkingCopy = .ok r') :
    ∃ w, r.working = some w ∧ ∀ p node, w.get? p = some node → node.base = none →
      ∃ record, r'.HasRecord r'.youngest p record ∧
        r'.bookkeeping? p = .ok (some ⟨p, some r'.youngest, some record.changed⟩) ∧
        record.kind = node.kind ∧ record.content = node.content ∧ record.props = node.props ∧
        record.copySource = node.copySource ∧
        (record.changed = r'.youngest ↔
          (∃ dir name parent, p = Path.child dir name ∧ w.get? dir = some parent ∧ parent.BaseHas r p) ∨
          ∀ old, r.HasRecord r.youngest p old → old.DiffersFrom record) ∧
        (record.changed ≠ r'.youngest → r.HasRecord r.youngest p record) := by
  obtain ⟨w, hw, hplace, hrevisions, hworking⟩ := commitWorkingCopy_eq_ok h
  refine ⟨w, hw, fun p node hnode hbase => ⟨r.recordOf p node, ?_⟩⟩
  have hget := get?_map_recordOf (r := r) hnode
  have hyoungest : r'.youngest = r.nextRevision := by
    rw [youngest, hrevisions, List.length_append]
    rfl
  obtain ⟨hkind, hcontent, hprops, -⟩ := Record.carry_fields
    (if node.replaced then none else r.youngestSnapshot.get? p)
    ⟨node.kind, node.content, node.props, _, r.nextRevision⟩
  have hsource := source_map_recordOf r hnode
  rw [hget, hbase] at hsource
  have hreplaced := (hr.booksKept.working hw p node hnode).replaced_iff hbase
  rw [hplace p node hnode] at hreplaced
  refine ⟨⟨_, snapshot?_commitWorkingCopy hrevisions, hget⟩, bookkeeping?_ofSnapshot hworking hget,
    hkind, hcontent, hprops, hsource, ?_⟩
  rw [hyoungest, ← hreplaced]
  exact changed_recordOf hr hnode

namespace Readded

def operations : List Operation :=
  [.commit (Draft.empty.applyAll [.directory "d/f"]), .checkout 1, .edit (.delete "d"),
   .edit (.makeDirectory "d"), .edit (.makeDirectory "d/f")]

def repository : Repository := Repository.empty.runAll operations

theorem repository_arises : repository.Arises := by
  refine Repository.Arises.empty.runAll fun d hd => ?_
  obtain rfl : d = Draft.empty.applyAll [.directory "d/f"] := by simpa [operations] using hd
  exact .new _

def committed : Repository := (Operation.commitWorkingCopy.run repository).1

theorem commitWorkingCopy_eq : repository.commitWorkingCopy = .ok committed := rfl

def outer : Path := Path.root.child ⟨"d", Eq.refl true⟩

def inner : Path := outer.child ⟨"f", Eq.refl true⟩

def root : WorkingNode := ⟨.directory, none, .empty, .root, some 1, some 0, none, false⟩

theorem working_get? : ∃ w, repository.working = some w ∧ w.get? .root = some root ∧
    w.get? outer = some (.added .directory none outer true) ∧
    w.get? inner = some (.added .directory none inner false) :=
  ⟨_, rfl, rfl, rfl, rfl⟩

theorem root_baseHas : root.BaseHas repository outer := ⟨1, _, rfl, rfl, rfl⟩

theorem hasRecord_inner : repository.HasRecord 1 inner ⟨.directory, none, .empty, none, 1⟩ :=
  ⟨_, rfl, rfl⟩

end Readded

open Readded in
theorem changed_of_addition_readded :
    repository.Arises ∧ repository.commitWorkingCopy = .ok committed ∧
      (∃ w, repository.working = some w ∧ w.get? outer = some (.added .directory none outer true) ∧
        w.get? inner = some (.added .directory none inner false)) ∧
      committed.bookkeeping? outer = .ok (some ⟨outer, some 2, some 2⟩) ∧
      ∃ record, repository.HasRecord 1 inner record ∧
        committed.bookkeeping? inner = .ok (some ⟨inner, some 2, some record.changed⟩) := by
  obtain ⟨w, hw, hall⟩ := changed_of_addition repository_arises commitWorkingCopy_eq
  obtain ⟨w', hw', hroot, houter, hinner⟩ := working_get?
  obtain rfl : w = w' := Option.some.inj (hw.symm.trans hw')
  refine ⟨repository_arises, commitWorkingCopy_eq, ⟨w, hw, houter, hinner⟩, ?_, ?_⟩
  · obtain ⟨record, -, hbooks, -, -, -, -, hiff, -⟩ := hall outer _ houter rfl
    rw [hbooks, hiff.2 (.inl ⟨.root, _, root, rfl, hroot, root_baseHas⟩)]
    rfl
  · obtain ⟨record, -, hbooks, hkind, hcontent, hprops, hsource, hiff, hold⟩ := hall inner _ hinner rfl
    refine ⟨record, hold fun hchanged => ?_, hbooks⟩
    rcases hiff.1 hchanged with ⟨dir, name, parent, hpath, hparent, b, _, hb, -⟩ | hdiffers
    · obtain ⟨rfl, -⟩ := Path.child_inj hpath
      rw [houter] at hparent
      cases hparent
      cases hb
    · have hsame := hdiffers _ hasRecord_inner
      rw [Record.DiffersFrom, hkind, hcontent, hprops, hsource] at hsame
      simp [added] at hsame

open Readded in
theorem changed_of_addition_ne_youngest :
    ¬ ∀ (r r' : Repository) (w : WorkingTree) (p : Path) (node : WorkingNode),
      r.Arises → r.commitWorkingCopy = .ok r' → r.working = some w → w.get? p = some node →
      node.base = none →
      ∃ record, r'.HasRecord r'.youngest p record ∧ record.changed = r'.youngest := by
  intro hdated
  obtain ⟨w, hw, -, -, hinner⟩ := working_get?
  obtain ⟨record, hrecord, hchanged⟩ :=
    hdated _ _ w inner _ repository_arises commitWorkingCopy_eq hw hinner rfl
  have hget := hasRecord_youngest.1 hrecord
  have hfirst : (committed.youngestSnapshot.get? inner).map Record.changed = some 1 := rfl
  rw [hget, Option.map_some, hchanged] at hfirst
  exact absurd hfirst (by decide)

end TreeDelta
