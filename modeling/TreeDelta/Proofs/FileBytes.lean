import Mathlib.Logic.Function.Basic
import TreeDelta.Proofs.DraftShape
import TreeDelta.Proofs.FileContents
import TreeDelta.Proofs.InPlace
set_option autoImplicit false

/-!
# The bytes of files

`Operation.filesAfter` tells what an operation does to files that hold their bytes themselves.
A repository names them by their digests. As long as the digests tell the contents apart that are
kept in a run, its files are those that the operations made (`runAll_files`).
-/
namespace TreeDelta

open Repository

def Store.bytes? (s : Store) (origin : Origin) (p : Path) : Option Bytes := do
  let node ← (s.node? p origin).toOption.join
  let id ← node.content
  (s.content? id).toOption.join

abbrev ByteTree := Path → Option Bytes

structure Files where
  youngest : Nat
  bytes : Origin → ByteTree

def Repository.files (r : Repository) : Files := ⟨r.youngest, r.store.bytes?⟩

namespace ByteTree

def without (t : ByteTree) (p : Path) : ByteTree := fun q => if q.isAtOrBelow p then none else t q

def graft (t sub : ByteTree) (p : Path) : ByteTree := fun q =>
  match q.below? p with
  | some rel => sub rel
  | none => t q

def below (t : ByteTree) (p : Path) : ByteTree := fun rel => t (p.join rel)

def onPath (t : ByteTree) (text : String) (f : Path → ByteTree) : ByteTree :=
  match readPath text with
  | .ok p => f p
  | .error _ => t

end ByteTree

namespace Files

def put (f : Files) (origin : Origin) (t : ByteTree) : Files :=
  { f with bytes := Function.update f.bytes origin t }

def commit (f : Files) (t : ByteTree) : Files :=
  ⟨f.youngest + 1, Function.update f.bytes (.revision (f.youngest + 1)) t⟩

end Files

def LocalEdit.bytesAfter (f : Files) (change : LocalEdit) : ByteTree :=
  let t := f.bytes .workingCopy
  match change with
  | .write path data => t.onPath path fun p => Function.update t p (some data)
  | .append path data => t.onPath path fun p => Function.update t p ((t p).map (· ++ data))
  | .setProp _ _ _ | .deleteProp _ _ | .makeDirectory _ => t
  | .delete path => t.onPath path t.without
  | .copy source target => t.onPath source fun p => t.onPath target (t.graft (t.below p))
  | .move source target =>
    t.onPath source fun p => t.onPath target fun q => (t.graft (t.below p) q).without p
  | .switch path url n =>
    t.onPath path fun p => t.onPath (repositoryPath url) fun q =>
      t.graft ((f.bytes (.revision n)).below q) p

def Operation.filesAfter (f : Files) : Operation → Files
  | .commit d => f.commit fun p => (d.nodes.get? p).bind DraftNode.content
  | .commitWorkingCopy => f.commit (f.bytes .workingCopy)
  | .checkout n => f.put .workingCopy (f.bytes (.revision n))
  | .edit change => f.put .workingCopy (change.bytesAfter f)
  | .putContent _ => f

def Operation.handed (f : Files) : Operation → List Bytes
  | .commit d => d.nodes.entries.filterMap fun e => e.2.content
  | .edit (.write _ data) | .putContent data => [data]
  | .edit (.append path data) =>
    match readPath path with
    | .ok p => ((f.bytes .workingCopy p).map (· ++ data)).toList
    | .error _ => []
  | _ => []

/-- The contents that are kept and those that are handed in. -/
def Blobs.involved (blobs : Blobs) (data : List Bytes) : List Bytes := data ++ blobs.entries.map Prod.snd

def Blobs.Distinct (blobs : Blobs) (data : List Bytes) : Prop :=
  ∀ a ∈ blobs.involved data, ∀ b ∈ blobs.involved data, ContentId.ofBytes a = .ofBytes b → a = b

instance (blobs : Blobs) (data : List Bytes) : Decidable (blobs.Distinct data) :=
  inferInstanceAs (Decidable (∀ a ∈ blobs.involved data, ∀ b ∈ blobs.involved data, _ → _))

namespace Repository

/-- The files that operations make of `f`. One that fails leaves them as they are. -/
def filesAfter (r : Repository) (f : Files) : List Operation → Files
  | [] => f
  | op :: ops =>
    match (op.run r).2 with
    | .ok () => (op.run r).1.filesAfter (op.filesAfter f) ops
    | .error _ => (op.run r).1.filesAfter f ops

def handed (r : Repository) : List Operation → List Bytes
  | [] => []
  | op :: ops => op.handed r.files ++ (op.run r).1.handed ops

end Repository

def Repository.contentAt (r : Repository) : Origin → Path → Option ContentId
  | .revision n, p => (r.snapshot? n).bind fun s => (s.get? p).bind Record.content
  | .workingCopy, p => r.working.bind fun w => (w.get? p).bind WorkingNode.content

variable {r r' : Repository} {origin origin' : Origin} {p p' : Path}

theorem content_node? (r : Repository) (origin : Origin) (p : Path) :
    (r.node? p origin).toOption.join.bind Node.content = r.contentAt origin p := by
  cases origin with
  | revision n =>
    rw [node?, snapshot, contentAt]
    cases r.snapshot? n with
    | none => rfl
    | some s =>
      change ((s.get? p).map fun record => record.node p n).bind Node.content = _
      rw [Option.bind_map]
      rfl
  | workingCopy =>
    rw [node?, workingTree, contentAt]
    cases r.working with
    | none => rfl
    | some w =>
      change ((w.get? p).map fun node => node.node p).bind Node.content = _
      rw [Option.bind_map]
      rfl

theorem bytes?_eq (r : Repository) (origin : Origin) (p : Path) :
    r.store.bytes? origin p = (r.contentAt origin p).bind r.blobs.get? := by
  rw [← content_node?, Option.bind_assoc]
  rfl

theorem holds_contentAt (hr : ContentsHeld r) (origin : Origin) (p : Path) :
    r.blobs.Holds (r.contentAt origin p) := by
  intro id hid
  cases origin with
  | revision n =>
    obtain ⟨s, hs, hid⟩ := Option.bind_eq_some_iff.1 hid
    obtain ⟨record, hrecord, hid⟩ := Option.bind_eq_some_iff.1 hid
    exact hr.snapshot hs p record hrecord id hid
  | workingCopy =>
    obtain ⟨w, hw, hid⟩ := Option.bind_eq_some_iff.1 hid
    obtain ⟨node, hnode, hid⟩ := Option.bind_eq_some_iff.1 hid
    exact hr.working w hw p node hnode id hid

/-- A content that is named at a place has the bytes of that place, also when more is kept. -/
theorem bind_get?_eq_bytes? (hr : ContentsHeld r) {blobs : Blobs} (hgrows : r.blobs.Grows blobs)
    {content : Option ContentId} (h : content = r.contentAt origin p) :
    content.bind blobs.get? = r.store.bytes? origin p := by
  rw [bytes?_eq, ← h]
  cases hid : content with
  | none => rfl
  | some id =>
    obtain ⟨data, hdata⟩ := OrderedMap.contains_iff.1 (holds_contentAt hr origin p id (h ▸ hid))
    rw [Option.bind_some, Option.bind_some, hdata, hgrows id data hdata]

theorem bytes?_eq_of_contentAt (hr : ContentsHeld r) (hgrows : r.blobs.Grows r'.blobs)
    (h : r'.contentAt origin' p' = r.contentAt origin p) :
    r'.store.bytes? origin' p' = r.store.bytes? origin p := by
  rw [bytes?_eq r']
  exact bind_get?_eq_bytes? hr hgrows h

theorem contentAt_workingCopy {w : WorkingTree} (hw : r.working = some w) (p : Path) :
    r.contentAt .workingCopy p = (w.get? p).bind WorkingNode.content := by
  rw [contentAt, hw, Option.bind_some]

theorem contentAt_revision {n : Nat} {s : Snapshot} (hs : r.snapshot? n = some s) (p : Path) :
    r.contentAt (.revision n) p = (s.get? p).bind Record.content := by
  rw [contentAt, hs, Option.bind_some]

theorem bytes?_eq_none (h : r.contentAt origin p = none) : r.store.bytes? origin p = none := by
  rw [bytes?_eq, h]
  rfl

namespace Blobs

variable {blobs blobs' : Blobs} {data data' : List Bytes} {a : Bytes}

theorem mem_or_kept {id : ContentId} (h : (blobs.putMany data).get? id = some a) :
    a ∈ data ∨ blobs.get? id = some a := by
  induction data generalizing blobs with
  | nil => exact .inr h
  | cons d data ih =>
    rcases ih h with h | h
    · exact .inl (List.mem_cons_of_mem d h)
    · rw [Blobs.put, OrderedMap.get?_insertIfNew, Option.or_eq_some_iff] at h
      rcases h with h | ⟨-, h⟩
      · exact .inr h
      · split at h
        · cases h
          exact .inl List.mem_cons_self
        · cases h

theorem mem_involved_iff : a ∈ blobs.involved data ↔ a ∈ data ∨ ∃ id, blobs.get? id = some a := by
  rw [involved, List.mem_append, List.mem_map]
  refine or_congr_right ⟨?_, ?_⟩
  · rintro ⟨e, he, rfl⟩
    exact ⟨e.1, OrderedMap.get?_eq_some_iff.2 he⟩
  · rintro ⟨id, hid⟩
    exact ⟨(id, a), OrderedMap.get?_eq_some_iff.1 hid, rfl⟩

theorem Distinct.mono (h : blobs'.Distinct data') (hgrows : blobs.Grows blobs') (hdata : data ⊆ data') :
    blobs.Distinct data := by
  have hinvolved : ∀ a ∈ blobs.involved data, a ∈ blobs'.involved data' := by
    intro a ha
    rw [mem_involved_iff] at ha ⊢
    exact ha.imp (fun ha => hdata ha) fun ⟨id, hid⟩ => ⟨id, hgrows id a hid⟩
  exact fun a ha b hb => h a (hinvolved a ha) b (hinvolved b hb)

theorem Distinct.get?_ofBytes (h : blobs.Distinct data)
    (hnamed : blobs.All fun id data => ContentId.ofBytes data = id) (ha : a ∈ data)
    (hheld : blobs.contains (.ofBytes a) = true) : blobs.get? (.ofBytes a) = some a := by
  obtain ⟨b, hb⟩ := OrderedMap.contains_iff.1 hheld
  rw [hb, h b (mem_involved_iff.2 (.inr ⟨_, hb⟩)) a (mem_involved_iff.2 (.inl ha)) (hnamed _ b hb)]

theorem Distinct.putMany (h : blobs.Distinct data) : (blobs.putMany data).Distinct data := by
  have hinvolved : ∀ a ∈ (blobs.putMany data).involved data, a ∈ blobs.involved data := by
    intro a ha
    rw [mem_involved_iff] at ha ⊢
    rcases ha with ha | ⟨id, hid⟩
    · exact .inl ha
    · exact (mem_or_kept hid).imp_right fun hid => ⟨id, hid⟩
  exact fun a ha b hb => h a (hinvolved a ha) b (hinvolved b hb)

theorem Distinct.get?_putMany (h : blobs.Distinct data)
    (hnamed : blobs.All fun id data => ContentId.ofBytes data = id) (ha : a ∈ data) :
    (blobs.putMany data).get? (.ofBytes a) = some a :=
  h.putMany.get?_ofBytes (putMany_named hnamed data) ha (contains_putMany ha blobs)

end Blobs

namespace Files

variable {f : Files}

theorem bytes_put_self (origin : Origin) (t : ByteTree) : (f.put origin t).bytes origin = t :=
  Function.update_self ..

theorem bytes_put_ne (t : ByteTree) (h : origin' ≠ origin) :
    (f.put origin t).bytes origin' = f.bytes origin' := Function.update_of_ne h ..

theorem bytes_commit_self (t : ByteTree) : (f.commit t).bytes (.revision (f.youngest + 1)) = t :=
  Function.update_self ..

theorem bytes_commit_ne (t : ByteTree) (h : origin ≠ .revision (f.youngest + 1)) :
    (f.commit t).bytes origin = f.bytes origin := Function.update_of_ne h ..

theorem ext_bytes {g : Files} (hyoungest : f.youngest = g.youngest)
    (hbytes : ∀ origin p, f.bytes origin p = g.bytes origin p) : f = g := by
  obtain ⟨y, b⟩ := f
  obtain ⟨y', b'⟩ := g
  obtain rfl : y = y' := hyoungest
  obtain rfl : b = b' := funext fun origin => funext (hbytes origin)
  rfl

end Files

theorem contentAt_revision_eq {n m : Nat} (h : r'.snapshot? n = r.snapshot? m) (p : Path) :
    r'.contentAt (.revision n) p = r.contentAt (.revision m) p := by
  rw [contentAt, contentAt, h]

theorem files_put (hr : ContentsHeld r) (data : List Bytes) {w : WorkingTree} {t : ByteTree}
    (ht : ∀ p, ((w.get? p).bind WorkingNode.content).bind (r.blobs.putMany data).get? = t p) :
    Repository.files { r.keep data with working := some w } = r.files.put .workingCopy t := by
  refine Files.ext_bytes rfl fun origin p => ?_
  cases origin with
  | workingCopy =>
    rw [Files.bytes_put_self, ← ht]
    exact bytes?_eq _ _ _
  | revision n =>
    rw [Files.bytes_put_ne t (by simp)]
    refine bytes?_eq_of_contentAt hr (r.blobs.grows_putMany data) (contentAt_revision_eq ?_ p)
    exact snapshot?_eq_of_revisions rfl n

theorem files_commit (hr : ContentsHeld r) (data : List Bytes) {s : Snapshot}
    {working : Option WorkingTree} {t : ByteTree}
    (hworking : ∀ p, (working.bind fun w => (w.get? p).bind WorkingNode.content) =
      r.contentAt .workingCopy p)
    (ht : ∀ p, ((s.get? p).bind Record.content).bind (r.blobs.putMany data).get? = t p) :
    Repository.files ⟨r.blobs.putMany data, r.revisions ++ [s], working⟩ = r.files.commit t := by
  refine Files.ext_bytes List.length_append fun origin p => ?_
  have hgrows := r.blobs.grows_putMany data
  have hsnapshot : ∀ n s',
      Repository.snapshot? ⟨r.blobs.putMany data, r.revisions ++ [s], working⟩ n = some s' ↔
        r.snapshot? n = some s' ∨ n = r.nextRevision ∧ s = s' := fun _ _ => snapshot?_append rfl
  cases origin with
  | workingCopy =>
    rw [Files.bytes_commit_ne t (by simp)]
    exact bytes?_eq_of_contentAt hr hgrows (hworking p)
  | revision n =>
    by_cases hn : n = r.files.youngest + 1
    · rw [hn, Files.bytes_commit_self, ← ht]
      refine (bytes?_eq _ _ _).trans (congrArg (Option.bind · _) ?_)
      exact contentAt_revision ((hsnapshot _ s).2 (.inr ⟨rfl, rfl⟩)) p
    · rw [Files.bytes_commit_ne t fun h => hn (Origin.revision.inj h)]
      refine bytes?_eq_of_contentAt hr hgrows (contentAt_revision_eq (Option.ext fun s' => ?_) p)
      rw [hsnapshot]
      exact or_iff_left fun h => hn h.1

theorem files_keep (hr : ContentsHeld r) (data : List Bytes) : (r.keep data).files = r.files := by
  refine Files.ext_bytes rfl fun origin p => ?_
  have hcontent : (r.keep data).contentAt origin p = r.contentAt origin p := by
    cases origin <;> rfl
  exact bytes?_eq_of_contentAt hr (r.blobs.grows_putMany data) hcontent

namespace ByteTree

variable {t sub u : ByteTree}

theorem onPath_eq {text : String} {f : Path → ByteTree} (h : readPath text = .ok p) :
    t.onPath text f = f p := by
  rw [onPath, h]

theorem eq_graft (hbelow : ∀ rel, u (p.join rel) = sub rel)
    (houtside : ∀ q, q.isAtOrBelow p = false → u q = t q) (q : Path) : u q = t.graft sub p q := by
  unfold graft
  cases hq : q.below? p with
  | some rel =>
    rw [Path.below?_eq_some_iff.1 hq]
    exact hbelow rel
  | none => exact houtside q (by rw [Path.isAtOrBelow, hq]; rfl)

theorem eq_without (hbelow : ∀ q, q.isAtOrBelow p = true → u q = none)
    (houtside : ∀ q, q.isAtOrBelow p = false → u q = t q) (q : Path) : u q = t.without p q := by
  unfold without
  cases hq : q.isAtOrBelow p with
  | true => exact hbelow q hq
  | false => exact houtside q hq

end ByteTree

variable {w : WorkingTree}

theorem bytes?_of_get? (hw : r.working = some w) {node : WorkingNode} (hnode : w.get? p = some node) :
    r.store.bytes? .workingCopy p = node.content.bind r.blobs.get? := by
  rw [bytes?_eq, contentAt_workingCopy hw, hnode, Option.bind_some]

/-- A node that is put changes the bytes at its own path. -/
theorem files_insert (hr : ContentsHeld r) (hw : r.working = some w) (data : List Bytes)
    {node : WorkingNode} {a : Option Bytes} (ha : node.content.bind (r.blobs.putMany data).get? = a) :
    Repository.files { r.keep data with working := some (w.insert p node) } =
      r.files.put .workingCopy (Function.update (r.files.bytes .workingCopy) p a) := by
  refine files_put hr data fun q => ?_
  by_cases hq : q = p
  · rw [hq, Function.update_self, OrderedMap.get?_insert_self]
    exact ha
  · rw [Function.update_of_ne hq, OrderedMap.get?_insert_ne w node hq]
    exact bind_get?_eq_bytes? hr (r.blobs.grows_putMany data) (contentAt_workingCopy hw q).symm

theorem files_insert_same (hr : ContentsHeld r) (hw : r.working = some w) {node : WorkingNode}
    (h : node.content.bind r.blobs.get? = r.files.bytes .workingCopy p) :
    Repository.files { r with working := some (w.insert p node) } =
      r.files.put .workingCopy (r.files.bytes .workingCopy) := by
  refine (files_insert hr hw [] h).trans ?_
  rw [Function.update_eq_self]

theorem write_files (hr : ContentsHeld r) (hnamed : FilesNamed r) {path : String} {data : Bytes}
    (hdistinct : r.blobs.Distinct [data]) (h : r.write path data = (r', .ok ())) :
    r'.files = r.files.put .workingCopy ((LocalEdit.write path data).bytesAfter r.files) := by
  unfold write at h
  split at h
  · cases h
  rename_i p hpath
  obtain ⟨w, node, hw, hnode, rfl⟩ := setFile_eq_ok (InPlace.attempt_eq_ok h)
  have hcontent : node.content = some (.ofBytes data) := by
    rcases hnode with ⟨_, -, -, rfl⟩ | ⟨_, _, -, rfl⟩
    · rfl
    · rfl
  rw [LocalEdit.bytesAfter, ByteTree.onPath_eq hpath]
  refine files_insert hr hw [data] ?_
  rw [hcontent]
  exact hdistinct.get?_putMany hnamed.blobs List.mem_cons_self

theorem append_files (hr : ContentsHeld r) (hnamed : FilesNamed r) {path : String} {data : Bytes}
    (hdistinct : r.blobs.Distinct ((Operation.edit (.append path data)).handed r.files))
    (h : r.append path data = .ok r') :
    r'.files = r.files.put .workingCopy ((LocalEdit.append path data).bytesAfter r.files) := by
  obtain ⟨p, w, node, old, before, hpath, hw, hnode, -, hold, hbefore, rfl⟩ := append_eq_ok h
  have hbytes : r.files.bytes .workingCopy p = some before := by
    refine (bytes?_of_get? hw hnode).trans ?_
    rw [hold]
    exact hbefore
  have hhanded : (Operation.edit (.append path data)).handed r.files = [before ++ data] := by
    simp only [Operation.handed, hpath, hbytes, Option.map_some, Option.toList_some]
  rw [hhanded] at hdistinct
  rw [LocalEdit.bytesAfter, ByteTree.onPath_eq hpath, hbytes]
  refine files_insert hr hw [before ++ data] ?_
  exact hdistinct.get?_putMany hnamed.blobs List.mem_cons_self

theorem changeProps_files (hr : ContentsHeld r) {path : String} {f : Props → Props}
    (h : r.changeProps path f = .ok r') :
    r'.files = r.files.put .workingCopy (r.files.bytes .workingCopy) := by
  obtain ⟨p, w, node, -, hw, hnode, rfl⟩ := changeProps_eq_ok h
  exact files_insert_same hr hw (bytes?_of_get? hw hnode).symm

theorem makeDirectory_files (hr : ContentsHeld r) {path : String} (h : r.makeDirectory path = .ok r') :
    r'.files = r.files.put .workingCopy (r.files.bytes .workingCopy) := by
  obtain ⟨p, w, reposPath, replaced, -, hw, hplace, rfl⟩ := makeDirectory_eq_ok h
  have hfree : r.store.bytes? .workingCopy p = none := by
    refine bytes?_eq_none ?_
    rw [contentAt_workingCopy hw, (newLocation_eq_ok hw hplace).1, Option.bind_none]
  exact files_insert_same hr hw hfree.symm

theorem delete_files (hr : ContentsHeld r) {path : String} (hpath : readPath path = .ok p)
    (h : r.delete path = .ok r') :
    r'.files = r.files.put .workingCopy ((r.files.bytes .workingCopy).without p) := by
  obtain ⟨p', w, hpath', hw, -, -, rfl⟩ := delete_eq_ok h
  obtain rfl : p' = p := Except.ok.inj (hpath'.symm.trans hpath)
  refine files_put hr [] (ByteTree.eq_without (fun q hq => ?_) fun q hq => ?_)
  · rw [get?_withoutSubtree_below hq]
    rfl
  · rw [get?_withoutSubtree_outside hq]
    exact bind_get?_eq_bytes? hr (.refl _) (contentAt_workingCopy hw q).symm

theorem copy_files (hr : ContentsHeld r) (hconnected : r.Grounded fun _ => True) {source target : String}
    (h : r.copy source target = .ok r') :
    ∃ p q, readPath source = .ok p ∧ readPath target = .ok q ∧
      r'.files = r.files.put .workingCopy
        ((r.files.bytes .workingCopy).graft ((r.files.bytes .workingCopy).below p) q) := by
  obtain ⟨p, q, w, reposPath, replaced, hsource, htarget, hw, -, -, hplace, rfl⟩ := copy_eq_ok h
  have hfree := (newLocation_eq_ok hw hplace).1
  refine ⟨p, q, hsource, htarget, files_put hr [] (ByteTree.eq_graft (fun rel => ?_) fun k hk => ?_)⟩
  · rw [get?_copied_below (hconnected.working hw) hfree, Option.bind_map]
    exact bind_get?_eq_bytes? hr (.refl _) (contentAt_workingCopy hw (p.join rel)).symm
  · rw [get?_copied_outside hk]
    exact bind_get?_eq_bytes? hr (.refl _) (contentAt_workingCopy hw k).symm

theorem switch_files (hr : ContentsHeld r) {path url : String} {n : Nat} (h : r.switch path url n = .ok r') :
    r'.files = r.files.put .workingCopy ((LocalEdit.switch path url n).bytesAfter r.files) := by
  obtain ⟨p, q, w, s, here, there, hpath, hurl, hw, hs, -, -, -, rfl⟩ := switch_eq_ok h
  rw [LocalEdit.bytesAfter, ByteTree.onPath_eq hpath, ByteTree.onPath_eq hurl]
  refine files_put hr [] (ByteTree.eq_graft (fun rel => ?_) fun k hk => ?_)
  · rw [get?_switched_below, Option.bind_map]
    exact bind_get?_eq_bytes? hr (.refl _) (contentAt_revision hs (q.join rel)).symm
  · rw [get?_switched_outside hk]
    exact bind_get?_eq_bytes? hr (.refl _) (contentAt_workingCopy hw k).symm

theorem Files.put_put (f : Files) (origin : Origin) (t t' : ByteTree) :
    (f.put origin t).put origin t' = f.put origin t' := by
  rw [put, put, put, Function.update_idem]

theorem move_files (hr : ContentsHeld r) (hconnected : r.Grounded fun _ => True) {source target : String}
    (h : r.move source target = (r', .ok ())) :
    r'.files = r.files.put .workingCopy ((LocalEdit.move source target).bytesAfter r.files) := by
  unfold move at h
  split at h
  · cases h
  rename_i copied hcopy
  obtain ⟨p, q, hsource, htarget, hcopied⟩ := copy_files hr hconnected hcopy
  have hheld : ContentsHeld copied := (copy_changes hcopy).contentsHeld hr
  have hdeleted := delete_files hheld hsource (InPlace.attempt_eq_ok h)
  rw [hdeleted, hcopied, Files.bytes_put_self, Files.put_put, LocalEdit.bytesAfter,
    ByteTree.onPath_eq hsource, ByteTree.onPath_eq htarget]

theorem edit_files (hr : r.Arises) {change : LocalEdit}
    (hdistinct : r.blobs.Distinct ((Operation.edit change).handed r.files))
    (h : r.edit change = (r', .ok ())) :
    r'.files = r.files.put .workingCopy (change.bytesAfter r.files) := by
  have hheld := hr.reachable.contentsHeld
  cases change with
  | write path data => exact write_files hheld hr.filesNamed hdistinct h
  | append path data => exact append_files hheld hr.filesNamed hdistinct (InPlace.attempt_eq_ok h)
  | setProp path name value => exact changeProps_files hheld (InPlace.attempt_eq_ok h)
  | deleteProp path name => exact changeProps_files hheld (InPlace.attempt_eq_ok h)
  | makeDirectory path => exact makeDirectory_files hheld (InPlace.attempt_eq_ok h)
  | delete path =>
    obtain ⟨p, _, hpath, -⟩ := delete_eq_ok (InPlace.attempt_eq_ok h)
    rw [LocalEdit.bytesAfter, ByteTree.onPath_eq hpath]
    exact delete_files hheld hpath (InPlace.attempt_eq_ok h)
  | copy source target =>
    obtain ⟨p, q, hsource, htarget, hfiles⟩ := copy_files hheld hr.isConnected (InPlace.attempt_eq_ok h)
    rw [LocalEdit.bytesAfter, ByteTree.onPath_eq hsource, ByteTree.onPath_eq htarget]
    exact hfiles
  | move source target => exact move_files hheld hr.isConnected h
  | switch path url n => exact switch_files hheld (InPlace.attempt_eq_ok h)

theorem content_snapshotOf (r : Repository) (d : Draft) (p : Path) :
    ((r.snapshotOf d).get? p).bind Record.content =
      ((d.nodes.get? p).bind DraftNode.content).map ContentId.ofBytes := by
  have hcarry : ∀ node : DraftNode,
      (Record.carry (r.youngestSnapshot.get? p) (node.record r.nextRevision)).content =
        node.content.map ContentId.ofBytes := fun node => (Record.carry_fields _ _).2.1
  rw [snapshotOf, OrderedMap.get?_map, OrderedMap.get?_insertIfNew]
  cases d.nodes.get? p with
  | some node => exact hcarry node
  | none =>
    rw [Option.none_or]
    split
    · exact hcarry .directory
    · rfl

theorem commit_files (hr : ContentsHeld r) (hnamed : FilesNamed r) {d : Draft}
    (hdistinct : r.blobs.Distinct ((Operation.commit d).handed r.files))
    (h : r.commit d = (r', .ok ())) : r'.files = (Operation.commit d).filesAfter r.files := by
  have hstep := step_commit r d
  rw [h] at hstep
  cases hstep
  refine files_commit hr _ (fun _ => rfl) fun p => ?_
  rw [content_snapshotOf]
  cases hdata : (d.nodes.get? p).bind DraftNode.content with
  | none => rfl
  | some data =>
    obtain ⟨node, hnode, hcontent⟩ := Option.bind_eq_some_iff.1 hdata
    refine hdistinct.get?_putMany hnamed.blobs ?_
    exact List.mem_filterMap.2 ⟨(p, node), OrderedMap.get?_eq_some_iff.1 hnode, hcontent⟩

theorem commitWorkingCopy_files (hr : ContentsHeld r) (h : r.commitWorkingCopy = .ok r') :
    r'.files = Operation.commitWorkingCopy.filesAfter r.files := by
  have hstep := step_commitWorkingCopy r
  rw [h] at hstep
  cases hstep with
  | @committedWorkingCopy w hw _ =>
    have hcontent : ∀ p, (OrderedMap.get? (w.map r.recordOf) p).bind Record.content =
        r.contentAt .workingCopy p := by
      intro p
      rw [contentAt_workingCopy hw, OrderedMap.get?_map, Option.bind_map]
      exact congrArg _ (funext fun node => content_recordOf r p node)
    refine files_commit hr [] (fun p => ?_) fun p => ?_
    · rw [← hcontent, Option.bind_some, WorkingTree.ofSnapshot, OrderedMap.get?_map, Option.bind_map]
      rfl
    · exact bind_get?_eq_bytes? hr (.refl _) (hcontent p)

theorem checkout_files (hr : ContentsHeld r) {n : Nat} (h : r.checkout n = .ok r') :
    r'.files = (Operation.checkout n).filesAfter r.files := by
  have hstep := step_checkout r n
  rw [h] at hstep
  cases hstep with
  | checkedOut hs =>
    refine files_put hr [] fun p => ?_
    rw [WorkingTree.ofSnapshot, OrderedMap.get?_map, Option.bind_map]
    exact bind_get?_eq_bytes? hr (.refl _) (contentAt_revision hs p).symm

theorem run_files_of_error {op : Operation} {e : StoreError} (hr : ContentsHeld r)
    (h : op.run r = (r', .error e)) : r'.files = r.files := by
  have hstep := step_run r op
  rw [h] at hstep
  cases hstep with
  | failed data _ => exact files_keep hr data

theorem run_files_of_ok {op : Operation} (hr : r.Arises) (hdistinct : r.blobs.Distinct (op.handed r.files))
    (h : op.run r = (r', .ok ())) : r'.files = op.filesAfter r.files := by
  have hheld := hr.reachable.contentsHeld
  cases op with
  | commit d => exact commit_files hheld hr.filesNamed hdistinct h
  | commitWorkingCopy => exact commitWorkingCopy_files hheld (InPlace.attempt_eq_ok h)
  | checkout n => exact checkout_files hheld (InPlace.attempt_eq_ok h)
  | edit change => exact edit_files hr hdistinct h
  | putContent data =>
    cases h
    exact files_keep hheld [data]

theorem runAll_files (hr : r.Arises) {ops : List Operation} (hdrafts : ∀ d, .commit d ∈ ops → d.Arises)
    (hdistinct : (r.runAll ops).blobs.Distinct (r.handed ops)) :
    (r.runAll ops).files = r.filesAfter r.files ops := by
  induction ops generalizing r with
  | nil => rfl
  | cons op ops ih =>
    have hnext : (op.run r).1.Arises := hr.operation fun d hd => hdrafts d (hd ▸ List.mem_cons_self)
    have hfirst : r.blobs.Distinct (op.handed r.files) :=
      hdistinct.mono (runAll_extends r (op :: ops)).blobs (List.subset_append_left ..)
    have hrest := ih hnext (fun d hd => hdrafts d (List.mem_cons_of_mem _ hd))
      (hdistinct.mono (.refl _) (List.subset_append_right ..))
    rw [filesAfter]
    split
    · rename_i hok
      rw [← run_files_of_ok hr hfirst (Prod.ext rfl hok)]
      exact hrest
    · rename_i e herror
      rw [← run_files_of_error hr.reachable.contentsHeld (Prod.ext rfl herror)]
      exact hrest

/-- Every file names a content that is there under its digest, and a directory names none. So the
tree of every revision can be had, and no comparison, report or append misses a content. If the
digests tell the contents of a run apart, the files are those that its operations made. -/
theorem files_have_bytes (hr : r.Arises) :
    (∀ p origin n, r.node? p origin = .ok (some n) →
      n.kind = .directory ∧ n.content = none ∨
      n.kind = .file ∧ ∃ id data, n.content = some id ∧ r.store.content? id = .ok (some data) ∧
        ContentId.ofBytes data = id) ∧
    (∀ n ≤ r.youngest, ∃ d, r.draftAt n = .ok d) ∧
    (∀ spec e, compareTrees r.store spec = .error e → e.missesContent = false) ∧
    (∀ specs e, (Patch.write r.store specs).outcome = .error e → e.missesContent = false) ∧
    (∀ path data e, r.append path data = .error e → e.missesContent = false) ∧
    ∀ ops, (∀ d, .commit d ∈ ops → d.Arises) → (r.runAll ops).blobs.Distinct (r.handed ops) →
      (r.runAll ops).files = r.filesAfter r.files ops := by
  have hheld := hr.reachable.contentsHeld
  refine ⟨fun p origin n hnode => ?_, fun n hn => ?_, fun _ _ => compareTrees_error hheld,
    fun _ _ => write_error hheld, fun _ _ _ => append_error hheld, fun _ => runAll_files hr⟩
  · have hcarries := hr.filesNamed.node? hnode
    cases hkind : n.kind with
    | directory =>
      rw [hkind] at hcarries
      exact .inl ⟨rfl, hcarries⟩
    | file =>
      rw [hkind] at hcarries
      obtain ⟨id, hid⟩ := Option.isSome_iff_exists.1 hcarries
      obtain ⟨data, hdata, hdigest⟩ := hr.filesNamed.content? hheld hnode hid
      exact .inr ⟨rfl, id, data, hid, hdata, hdigest⟩
    | nonexistent =>
      rw [hkind] at hcarries
      exact hcarries.elim
  · obtain ⟨s, hs⟩ := exists_snapshot? hn
    exact ⟨_, draftAt_eq hheld hs⟩

namespace GrowingFile

def f : Path := Path.root.child ⟨"f", Eq.refl true⟩

def g : Path := Path.root.child ⟨"g", Eq.refl true⟩

def operations : List Operation :=
  [.commit (Draft.empty.applyAll [.file "f" [120]]), .checkout 1, .edit (.append "f" [121]),
   .commitWorkingCopy, .edit (.copy "f" "g"), .edit (.append "h" [120]), .edit (.write "g" [122])]

def repository : Repository := Repository.empty.runAll operations

theorem operations_arise : ∀ d, .commit d ∈ operations → d.Arises := by
  intro d hd
  obtain rfl : d = Draft.empty.applyAll [.file "f" [120]] := by simpa [operations] using hd
  exact .new _

theorem distinct : repository.blobs.Distinct (Repository.empty.handed operations) := by decide +kernel

theorem filesAfter_eq :
    let files := Repository.empty.filesAfter Repository.empty.files operations
    files.bytes (.revision 1) f = some [120] ∧ files.bytes (.revision 2) f = some [120, 121] ∧
      files.bytes .workingCopy g = some [122] := by
  decide +kernel

end GrowingFile

open GrowingFile in
theorem files_have_bytes_growingFile :
    Repository.empty.Arises ∧ (∀ d, .commit d ∈ operations → d.Arises) ∧
      repository.blobs.Distinct (Repository.empty.handed operations) ∧
      repository.store.bytes? (.revision 1) f = some [120] ∧
      repository.store.bytes? (.revision 2) f = some [120, 121] ∧
      repository.store.bytes? .workingCopy g = some [122] ∧
      ∃ d, repository.draftAt 2 = .ok d := by
  obtain ⟨-, -, -, -, -, hrun⟩ := files_have_bytes Repository.Arises.empty
  have hfiles : repository.files = Repository.empty.filesAfter Repository.empty.files operations :=
    hrun operations operations_arise distinct
  obtain ⟨hfirst, hsecond, hcopy⟩ := filesAfter_eq
  rw [← hfiles] at hfirst hsecond hcopy
  have harises : repository.Arises := Repository.Arises.empty.runAll operations_arise
  obtain ⟨-, htrees, -⟩ := files_have_bytes harises
  exact ⟨.empty, operations_arise, distinct, hfirst, hsecond, hcopy, htrees 2 (by decide +kernel)⟩

end TreeDelta
