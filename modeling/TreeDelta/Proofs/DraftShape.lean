import TreeDelta.Proofs.History
import TreeDelta.Proofs.Shape
set_option autoImplicit false

/-!
# The shape of a draft

No edit takes a parent away from its nodes, so whatever is committed is connected.
But a file may be put below a file or in the place of a directory that holds
something, and a draft stays a proper tree exactly as long as edits do no such
thing (`Draft.applyAll_isProper_iff`).
-/
namespace TreeDelta

open Repository

namespace Shape

/-- The shape once a directory has been made wherever nothing is on the way to `p` and at `p`. -/
def withDirectories (s : Shape) (p : Path) : Shape :=
  fun q => (s q).or (if p.isAtOrBelow q = true then some .directory else none)

def put (s : Shape) (p : Path) (k : NodeKind) : Shape := fun q => if q = p then some k else s q

def without (s : Shape) (p : Path) : Shape :=
  fun q => if q.isAtOrBelow p = true ∧ q ≠ .root then none else s q

/-- All that is there on the way to `p` are directories. -/
def IsOpenTo (s : Shape) (p : Path) : Prop :=
  ∀ q k, p.isAtOrBelow q = true → q ≠ p → s q = some k → k = .directory

end Shape

def Shape.withPath (s : Shape) (text : String) (f : Path → Shape) : Shape :=
  match Path.parse text with
  | .ok p => f p
  | .error _ => s

def DraftEdit.reshape (s : Shape) : DraftEdit → Shape
  | .file text _ => s.withPath text fun p => (s.withDirectories p).put p .file
  | .directory text => s.withPath text s.withDirectories
  | .remove text => s.withPath text s.without
  | .setProp .. | .deleteProp .. | .copiedFrom .. => s

theorem Draft.shape_eq (d : Draft) (q : Path) :
    d.shape q =
      ((d.nodes.get? q).map DraftNode.kind).or (if q = .root then some .directory else none) := by
  rw [shape, OrderedMap.get?_insertIfNew, Option.map_or]
  split <;> rfl

theorem get?_withParents (nodes : OrderedMap Path DraftNode) (p q : Path) :
    (Draft.withParents nodes p).get? q =
      (nodes.get? q).or (if q ∈ p.ancestors then some .directory else none) := by
  unfold Draft.withParents
  generalize p.ancestors = dirs
  induction dirs generalizing nodes with
  | nil => simp
  | cons dir dirs ih =>
    rw [List.foldl_cons, ih, OrderedMap.get?_insertIfNew, Option.or_assoc]
    congr 1
    by_cases h : q = dir <;> simp [h]

theorem Draft.shape_insert_of_kind {d : Draft} {p : Path} {node node' : DraftNode}
    (hnode : d.nodes.get? p = some node) (hkind : node'.kind = node.kind) :
    Draft.shape { d with nodes := d.nodes.insert p node' } = d.shape := by
  funext q
  rw [Draft.shape_eq, Draft.shape_eq, map_get?_insert_of_kind hnode hkind]

theorem Draft.shape_directory (d : Draft) (p : Path) :
    Draft.shape { d with nodes := (withParents d.nodes p).insertIfNew p .directory } =
      d.shape.withDirectories p := by
  funext q
  rw [shape_eq, Shape.withDirectories, shape_eq, OrderedMap.get?_insertIfNew, get?_withParents]
  simp only [Path.isAtOrBelow_iff_mem_ancestors, Option.map_or, apply_ite (Option.map DraftNode.kind),
    Option.map_some, Option.map_none, DraftNode.directory]
  cases (d.nodes.get? q).map DraftNode.kind with
  | some k => rfl
  | none => split_ifs <;> simp_all

theorem Draft.shape_file (d : Draft) (p : Path) (content : Bytes) :
    Draft.shape { d with nodes := (withParents d.nodes p).insert p (.file content) } =
      (d.shape.withDirectories p).put p .file := by
  rw [← shape_directory]
  funext q
  rw [shape_eq, Shape.put, shape_eq]
  by_cases hq : q = p
  · rw [hq, OrderedMap.get?_insert_self, if_pos rfl]
    rfl
  · rw [if_neg hq, OrderedMap.get?_insert_ne _ _ hq, OrderedMap.get?_insertIfNew, if_neg hq,
      Option.or_none]

theorem Draft.shape_remove (d : Draft) (p : Path) :
    Draft.shape { d with nodes := d.nodes.filter fun q _ => !q.isAtOrBelow p || q.isRoot } =
      d.shape.without p := by
  funext q
  rw [shape_eq, Shape.without, shape_eq, OrderedMap.get?_filter]
  by_cases hroot : q = .root
  · have hkept : ¬(q.isAtOrBelow p = true ∧ q ≠ .root) := fun h => h.2 hroot
    rw [if_neg hkept, hroot]
    cases d.nodes.get? .root <;> simp [Path.isRoot, Path.root, Option.filter]
  · have hisRoot : q.isRoot = false := Bool.eq_false_iff.2 (mt Path.isRoot_iff.1 hroot)
    cases d.nodes.get? q <;> cases hbelow : q.isAtOrBelow p <;> simp [hroot, hisRoot]

theorem Draft.shape_withPath {d : Draft} {f : Path → Draft} {g : Path → Shape} (text : String)
    (h : ∀ p, (f p).shape = g p) : (d.withPath text f).shape = d.shape.withPath text g := by
  unfold withPath Shape.withPath
  cases Path.parse text with
  | ok p => exact h p
  | error e => rfl

theorem Draft.shape_withPath_eq {d : Draft} {f : Path → Draft} (text : String)
    (h : ∀ p, (f p).shape = d.shape) : (d.withPath text f).shape = d.shape := by
  unfold withPath
  cases Path.parse text with
  | ok p => exact h p
  | error e => rfl

theorem Draft.shape_change (d : Draft) {p : Path} {fault : PathFault} {f : DraftNode → DraftNode}
    (hf : ∀ node, (f node).kind = node.kind) : (d.change p fault f).shape = d.shape := by
  unfold change
  split
  · rename_i node hnode
    exact shape_insert_of_kind hnode (hf node)
  · rfl

theorem Draft.shape_apply (d : Draft) (e : DraftEdit) : (d.apply e).shape = e.reshape d.shape := by
  cases e with
  | file text content => exact shape_withPath text fun p => d.shape_file p content
  | directory text => exact shape_withPath text fun p => d.shape_directory p
  | remove text => exact shape_withPath text fun p => d.shape_remove p
  | setProp text name value => exact shape_withPath_eq text fun p => d.shape_change fun _ => rfl
  | deleteProp text name =>
    refine shape_withPath_eq text fun p => ?_
    split
    · rename_i node hnode
      exact shape_insert_of_kind hnode rfl
    · rfl
  | copiedFrom text source revision =>
    simp only [apply, DraftEdit.reshape]
    split
    · exact d.shape_change fun _ => rfl
    · rfl
    · rfl

namespace Shape

variable {admits : NodeKind → Prop} {s : Shape}

theorem withDirectories_of_some {p q : Path} {k : NodeKind} (h : s q = some k) :
    s.withDirectories p q = some k := by
  rw [withDirectories, h, Option.some_or]

theorem withDirectories_of_not {p q : Path} (h : ¬p.isAtOrBelow q = true) :
    s.withDirectories p q = s q := by
  rw [withDirectories, if_neg h, Option.or_none]

theorem withDirectories_ne_none {p q : Path} (h : p.isAtOrBelow q = true) :
    s.withDirectories p q ≠ none := by
  rw [withDirectories, if_pos h]
  cases s q <;> simp

theorem Grounded.withDirectories {p : Path} (hs : s.Grounded admits) (hadmits : admits .directory)
    (hway : ∀ q k, p.isAtOrBelow q = true → q ≠ p → s q = some k → admits k) :
    (s.withDirectories p).Grounded admits where
  root := by
    obtain ⟨k, hk, hadm⟩ := hs.root
    exact ⟨k, withDirectories_of_some hk, hadm⟩
  parent dir n hn := by
    by_cases hbelow : p.isAtOrBelow (dir.child n) = true
    · have hdir : p.isAtOrBelow dir = true := Path.isAtOrBelow_of_child hbelow
      cases hk : s dir with
      | none =>
        exact ⟨.directory, by rw [Shape.withDirectories, hk, if_pos hdir, Option.none_or], hadmits⟩
      | some k =>
        refine ⟨k, withDirectories_of_some hk, hway dir k hdir ?_ hk⟩
        rintro rfl
        rw [Path.isAtOrBelow_child_self] at hbelow
        cases hbelow
    · rw [withDirectories_of_not hbelow] at hn
      obtain ⟨k, hk, hadm⟩ := hs.parent dir n hn
      exact ⟨k, withDirectories_of_some hk, hadm⟩

theorem put_self (s : Shape) (p : Path) (k : NodeKind) : s.put p k p = some k := if_pos rfl

theorem put_ne (s : Shape) {p q : Path} (k : NodeKind) (h : q ≠ p) : s.put p k q = s q := if_neg h

theorem Grounded.put {p : Path} {k : NodeKind} (hs : s.Grounded admits) (hp : s p ≠ none)
    (hk : admits k ∨ p ≠ .root ∧ ∀ n, s (p.child n) = none) : (s.put p k).Grounded admits where
  root := by
    by_cases hroot : Path.root = p
    · rcases hk with hk | hk
      · exact ⟨k, by rw [← hroot, put_self], hk⟩
      · exact absurd hroot.symm hk.1
    · rw [put_ne s k hroot]
      exact hs.root
  parent dir n hn := by
    have hold : s (dir.child n) ≠ none := by
      by_cases hp' : dir.child n = p
      · rwa [hp']
      · rwa [put_ne s k hp'] at hn
    by_cases hdir : dir = p
    · rcases hk with hk | hk
      · exact ⟨k, by rw [hdir, put_self], hk⟩
      · rw [hdir] at hold
        exact absurd (hk.2 n) hold
    · rw [put_ne s k hdir]
      exact hs.parent dir n hold

theorem Grounded.without (hs : s.Grounded admits) (p : Path) : (s.without p).Grounded admits := by
  refine hs.cut (q := p) ?_ (fun q hq hroot => if_pos ⟨hq, hroot⟩) fun q hq => if_neg ?_
  · refine if_neg ?_
    rintro ⟨-, h⟩
    exact h rfl
  · rw [hq]
    rintro ⟨h, -⟩
    cases h

end Shape

/-- The edit puts no node below a file, and no file in the place of the root or of a directory that
holds something. -/
def DraftEdit.Fits (s : Shape) : DraftEdit → Prop
  | .file text _ =>
    ∀ p, Path.parse text = .ok p → s.IsOpenTo p ∧ p ≠ .root ∧ ∀ n, s (p.child n) = none
  | .directory text => ∀ p, Path.parse text = .ok p → s.IsOpenTo p
  | .setProp .. | .deleteProp .. | .copiedFrom .. | .remove .. => True

namespace Shape

variable {s : Shape}

theorem Grounded.withPath {admits : NodeKind → Prop} (hs : s.Grounded admits) (text : String)
    {f : Path → Shape} (hf : ∀ p, (f p).Grounded admits) : (s.withPath text f).Grounded admits := by
  unfold Shape.withPath
  cases Path.parse text with
  | ok p => exact hf p
  | error e => exact hs

theorem withPath_isProper_iff (hs : s.IsProper) (text : String) {f : Path → Shape} {fits : Path → Prop}
    (hf : ∀ p, (f p).IsProper ↔ fits p) :
    (s.withPath text f).IsProper ↔ ∀ p, Path.parse text = .ok p → fits p := by
  unfold Shape.withPath
  cases Path.parse text with
  | ok p => simpa using hf p
  | error e => simpa using hs

theorem withDirectories_isProper_iff (hs : s.IsProper) (p : Path) :
    (s.withDirectories p).IsProper ↔ s.IsOpenTo p := by
  constructor
  · intro h q k hq hne hk
    obtain ⟨n, hn⟩ := Path.exists_child_of_isAtOrBelow hq hne
    obtain ⟨k', hk', rfl⟩ := h.parent q n (withDirectories_ne_none hn)
    rw [withDirectories_of_some hk] at hk'
    exact Option.some.inj hk'
  · exact fun h => hs.withDirectories rfl h

theorem put_file_isProper_iff (hs : s.IsProper) (p : Path) :
    ((s.withDirectories p).put p .file).IsProper ↔
      s.IsOpenTo p ∧ p ≠ .root ∧ ∀ n, s (p.child n) = none := by
  have hchild : ∀ n, s.withDirectories p (p.child n) = s (p.child n) := fun n =>
    withDirectories_of_not (by rw [Path.isAtOrBelow_child_self]; exact Bool.false_ne_true)
  constructor
  · intro h
    refine ⟨fun q k hq hne hk => ?_, ?_, fun n => ?_⟩
    · obtain ⟨n, hn⟩ := Path.exists_child_of_isAtOrBelow hq hne
      have hnew : (s.withDirectories p).put p .file (q.child n) ≠ none := by
        by_cases hp : q.child n = p
        · rw [hp, put_self]
          exact Option.some_ne_none _
        · rw [put_ne _ _ hp]
          exact withDirectories_ne_none hn
      obtain ⟨k', hk', rfl⟩ := h.parent q n hnew
      rw [put_ne _ _ hne, withDirectories_of_some hk] at hk'
      exact Option.some.inj hk'
    · rintro rfl
      obtain ⟨k, hk, rfl⟩ := h.root
      rw [put_self] at hk
      cases hk
    · by_contra hn
      have hne : p.child n ≠ p := Path.child_ne_self p n
      obtain ⟨k, hk, rfl⟩ := h.parent p n (by rwa [put_ne _ _ hne, hchild])
      rw [put_self] at hk
      cases hk
  · rintro ⟨hopen, hroot, hbelow⟩
    refine (hs.withDirectories rfl hopen).put (withDirectories_ne_none (Path.isAtOrBelow_self p)) ?_
    exact .inr ⟨hroot, fun n => (hchild n).trans (hbelow n)⟩

end Shape

theorem DraftEdit.reshape_isConnected {s : Shape} (hs : s.IsConnected) (e : DraftEdit) :
    (e.reshape s).IsConnected := by
  have hway : ∀ p, (s.withDirectories p).IsConnected := fun p =>
    hs.withDirectories trivial fun _ _ _ _ _ => trivial
  cases e with
  | file text content =>
    refine hs.withPath text fun p => ?_
    exact (hway p).put (Shape.withDirectories_ne_none (Path.isAtOrBelow_self p)) (.inl trivial)
  | directory text => exact hs.withPath text hway
  | remove text => exact hs.withPath text fun p => hs.without p
  | setProp | deleteProp | copiedFrom => exact hs

/-- A proper tree stays proper exactly under the edits that fit it. -/
theorem DraftEdit.reshape_isProper_iff {s : Shape} (hs : s.IsProper) (e : DraftEdit) :
    (e.reshape s).IsProper ↔ e.Fits s := by
  cases e with
  | file text content => exact Shape.withPath_isProper_iff hs text (Shape.put_file_isProper_iff hs)
  | directory text => exact Shape.withPath_isProper_iff hs text (Shape.withDirectories_isProper_iff hs)
  | remove text => exact iff_true_intro (hs.withPath text fun p => hs.without p)
  | setProp | deleteProp | copiedFrom => exact iff_true_intro hs

def Draft.FitsAll (d : Draft) : List DraftEdit → Prop
  | [] => True
  | e :: edits => e.Fits d.shape ∧ (d.apply e).FitsAll edits

namespace Draft

variable {d : Draft}

theorem applyAll_isConnected (hd : d.shape.IsConnected) (edits : List DraftEdit) :
    (d.applyAll edits).shape.IsConnected := by
  induction edits generalizing d with
  | nil => exact hd
  | cons e edits ih =>
    refine ih (d := d.apply e) ?_
    rw [shape_apply]
    exact e.reshape_isConnected hd

/-- A chain of edits goes through proper trees only as long as its edits fit, and then it does. -/
theorem applyAll_isProper_iff (hd : d.shape.IsProper) (edits : List DraftEdit) :
    (∀ done, done <+: edits → (d.applyAll done).shape.IsProper) ↔ d.FitsAll edits := by
  induction edits generalizing d with
  | nil =>
    refine iff_of_true (fun done hdone => ?_) trivial
    rw [List.prefix_nil.1 hdone]
    exact hd
  | cons e edits ih =>
    have hfirst : (d.apply e).shape.IsProper ↔ e.Fits d.shape := by
      rw [shape_apply]
      exact e.reshape_isProper_iff hd
    constructor
    · intro h
      have hstep : (d.apply e).shape.IsProper := h [e] ⟨edits, rfl⟩
      refine ⟨hfirst.1 hstep, (ih hstep).1 fun done hdone => ?_⟩
      exact h (e :: done) (List.cons_prefix_cons.2 ⟨rfl, hdone⟩)
    · rintro ⟨hfits, hall⟩ done hdone
      cases done with
      | nil => exact hd
      | cons e' done =>
        obtain ⟨rfl, hrest⟩ := List.cons_prefix_cons.1 hdone
        exact (ih (hfirst.2 hfits)).2 hall done hrest

theorem empty_isProper : Draft.empty.shape.IsProper where
  root := ⟨.directory, rfl, rfl⟩
  parent p n h := by
    rw [shape_eq, if_neg (Path.child_ne_root p n)] at h
    exact absurd rfl h

end Draft

theorem shape_draft {s : Snapshot} (hs : s.shape.IsConnected) (blobs : Blobs) :
    (s.draft blobs).shape = s.shape := by
  funext p
  rw [Draft.shape_eq, Snapshot.draft, OrderedMap.get?_map, Option.map_map]
  change (s.shape p).or _ = s.shape p
  by_cases hp : p = .root
  · obtain ⟨k, hk, -⟩ := hs.root
    rw [hp, hk, Option.some_or]
  · rw [if_neg hp, Option.or_none]

theorem draftAt_isConnected {r : Repository} {n : Nat} {d : Draft} (hr : r.Grounded fun _ => True)
    (h : r.draftAt n = .ok d) : d.shape.IsConnected := by
  obtain ⟨s, hs, rfl⟩ := draftAt_eq_ok h
  have hconnected : s.shape.IsConnected := hr.snapshot hs
  rw [shape_draft hconnected]
  exact hconnected

theorem Repository.Arises.isConnected {r : Repository} (h : r.Arises) : r.Grounded fun _ => True := by
  refine h.keeps (D := fun d => d.shape.IsConnected) ?_ ?_ ?_ ?_ ?_
  · exact ⟨fun hs => (empty_grounded_proper.snapshot hs).connected, fun hw => by cases hw⟩
  · exact Draft.empty_isProper.connected
  · exact fun _ _ _ hsource hbase => draftAt_isConnected hsource hbase
  · intro d e hd
    rw [Draft.shape_apply]
    exact e.reshape_isConnected hd
  · intro r op out hr hstep hdraft
    exact hstep.grounded trivial hr hdraft

theorem Draft.Arises.isConnected {d : Draft} (h : d.Arises) : d.shape.IsConnected := by
  cases h with
  | new edits => exact Draft.applyAll_isConnected Draft.empty_isProper.connected edits
  | revised hsource hbase edits =>
    exact Draft.applyAll_isConnected (draftAt_isConnected hsource.isConnected hbase) edits

namespace Shape

theorem IsConnected.isProper_iff {s : Shape} (hs : s.IsConnected) :
    s.IsProper ↔ ∀ p k, s p = some k → k ≠ .directory → p ≠ .root ∧ ∀ n, s (p.child n) = none := by
  constructor
  · intro h p k hp hk
    constructor
    · rintro rfl
      obtain ⟨k', hk', rfl⟩ := h.root
      exact hk (Option.some.inj (hp.symm.trans hk'))
    · intro n
      by_contra hn
      obtain ⟨k', hk', rfl⟩ := h.parent p n hn
      exact hk (Option.some.inj (hp.symm.trans hk'))
  · intro h
    constructor
    · obtain ⟨k, hk, -⟩ := hs.root
      refine ⟨k, hk, ?_⟩
      by_contra hne
      exact (h _ k hk hne).1 rfl
    · intro p n hn
      obtain ⟨k, hk, -⟩ := hs.parent p n hn
      refine ⟨k, hk, ?_⟩
      by_contra hne
      exact hn ((h p k hk hne).2 n)

end Shape

theorem commit_eq_ok {r : Repository} {d : Draft} (hok : (r.commit d).2 = .ok ()) :
    (r.commit d).1.snapshot? r.nextRevision = some (r.snapshotOf d) := by
  have hstep := step_commit r d
  generalize r.commit d = out at hstep hok
  cases hstep with
  | failed => cases hok
  | committed => exact (snapshot?_append rfl).2 (.inr ⟨rfl, rfl⟩)

/-- A revision made of a draft is connected, and it has the shape of the draft. It is a proper tree
unless its root is a file or something stands below one. A chain of edits that starts from a proper
tree comes to that only by an edit that does not fit. -/
theorem commit_shape {r : Repository} {d : Draft} (edits : List DraftEdit) (hd : d.Arises)
    (hok : (r.commit (d.applyAll edits)).2 = .ok ()) :
    ∃ s, (r.commit (d.applyAll edits)).1.snapshot? r.nextRevision = some s ∧
      s.shape = (d.applyAll edits).shape ∧ s.shape.IsConnected ∧
      (s.shape.IsProper ↔
        ∀ p k, s.shape p = some k → k ≠ .directory → p ≠ .root ∧ ∀ n, s.shape (p.child n) = none) ∧
      (d.shape.IsProper →
        ((∀ done, done <+: edits → (d.applyAll done).shape.IsProper) ↔ d.FitsAll edits)) := by
  have hshape := shape_snapshotOf r (d.applyAll edits)
  have hconnected : (r.snapshotOf (d.applyAll edits)).shape.IsConnected := by
    rw [hshape]
    exact (hd.applyAll edits).isConnected
  exact ⟨_, commit_eq_ok hok, hshape, hconnected, hconnected.isProper_iff,
    fun hproper => Draft.applyAll_isProper_iff hproper edits⟩

namespace ReplacedDirectory

def edits : List DraftEdit := [.file "a/b" [121], .file "a" [120]]

theorem commit_ok : (Repository.empty.commit (Draft.empty.applyAll edits)).2 = .ok () := by
  rfl

theorem shape_not_isProper : ¬ (Draft.empty.applyAll edits).shape.IsProper := by decide

end ReplacedDirectory

open ReplacedDirectory in
theorem commit_shape_replacedDirectory :
    (Repository.empty.commit (Draft.empty.applyAll edits)).2 = .ok () ∧
      ∃ s, (Repository.empty.commit (Draft.empty.applyAll edits)).1.snapshot? 1 = some s ∧
        s.shape.IsConnected ∧ ¬ s.shape.IsProper ∧ ¬ Draft.empty.FitsAll edits := by
  obtain ⟨s, hs, hshape, hconnected, -, hfits⟩ := commit_shape edits (.new []) commit_ok
  refine ⟨commit_ok, s, hs, hconnected, hshape ▸ shape_not_isProper, fun hall => ?_⟩
  exact shape_not_isProper ((hfits Draft.empty_isProper).2 hall edits (List.prefix_refl _))

open ReplacedDirectory in
theorem commit_not_isProper :
    ¬ ∀ (r : Repository) (edits : List DraftEdit) (s : Snapshot), r.Arises →
      (r.commit (Draft.empty.applyAll edits)).2 = .ok () →
      (r.commit (Draft.empty.applyAll edits)).1.snapshot? r.nextRevision = some s →
      s.shape.IsProper := by
  intro hproper
  have hshape := hproper .empty edits _ .empty commit_ok (commit_eq_ok commit_ok)
  rw [shape_snapshotOf] at hshape
  exact shape_not_isProper hshape

end TreeDelta
