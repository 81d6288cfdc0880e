import TreeDelta.Endpoint
import TreeDelta.Proofs.Bookkeeping
set_option autoImplicit false

namespace TreeDelta

open Repository

structure Path.IsNearest (P : Path → Prop) (p q : Path) : Prop where
  above : p.isAtOrBelow q = true
  holds : P q
  nearest : ∀ q', p.isAtOrBelow q' = true → P q' → q.isAtOrBelow q' = true

namespace Path

variable {P : Path → Prop} {dir p q : Path} {name : Name}

theorem isNearest_self (h : P p) : IsNearest P p p where
  above := isAtOrBelow_self p
  holds := h
  nearest _ h _ := h

theorem IsNearest.child (h : IsNearest P dir q) (hchild : ¬ P (dir.child name)) :
    IsNearest P (dir.child name) q where
  above := isAtOrBelow_child_iff.2 (.inr h.above)
  holds := h.holds
  nearest q' habove hq' := by
    rcases isAtOrBelow_child_iff.1 habove with rfl | habove
    · exact absurd hq' hchild
    · exact h.nearest q' habove hq'

theorem reverse_ancestors_child (dir : Path) (name : Name) :
    (dir.child name).ancestors.reverse = dir :: dir.ancestors.reverse := by
  have hancestors : (dir.child name).ancestors = dir.ancestors ++ [dir] := by
    obtain ⟨names⟩ := dir
    simp only [ancestors, depth_child, List.range_succ, List.map_append, List.map_cons, List.map_nil]
    refine congrArg₂ (· ++ ·) (List.map_congr_left fun n hn => ?_) ?_
    · rw [child, List.take_append_of_le_length (List.mem_range.1 hn).le]
    · rw [child, depth, List.take_left]
  rw [hancestors, List.reverse_append]
  rfl

end Path

def WorkingTree.HasBase (w : WorkingTree) (p : Path) : Prop :=
  ∃ node, w.get? p = some node ∧ node.base.isSome = true

namespace WorkingTree

/-- The place of `p` follows from that of the nearest node at or above it. -/
def PlacedAt (w : WorkingTree) (p place : Path) : Prop :=
  ∃ q rel node, p.IsNearest (fun q => w.contains q = true) q ∧ p = q.join rel ∧
    w.get? q = some node ∧ place = node.reposPath.join rel

/-- The revisions of `p` are those of the nearest node at or above it that has a base. -/
def DatedAt (w : WorkingTree) (p : Path) (base changed : Nat) : Prop :=
  ∃ q node, p.IsNearest w.HasBase q ∧ w.get? q = some node ∧ node.base = some base ∧
    node.changed = some changed

structure StandsFor (w : WorkingTree) (p : Path) (known : Recorded) : Prop where
  place : w.PlacedAt p known.reposPath
  revisions : w.DatedAt p known.base known.changed

variable {w : WorkingTree} {dir p : Path} {name : Name} {node : WorkingNode} {known : Recorded}

theorem placedAt_self (hnode : w.get? p = some node) : w.PlacedAt p node.reposPath :=
  ⟨p, .root, node, Path.isNearest_self (OrderedMap.contains_iff.2 ⟨node, hnode⟩), p.join_root.symm,
    hnode, node.reposPath.join_root.symm⟩

theorem PlacedAt.child {place : Path} (h : w.PlacedAt dir place) (hnone : w.get? (dir.child name) = none) :
    w.PlacedAt (dir.child name) (place.child name) := by
  obtain ⟨q, rel, node, hnearest, rfl, hnode, rfl⟩ := h
  have hunknown : ¬ w.contains ((q.join rel).child name) = true := OrderedMap.get?_eq_none_iff.1 hnone
  exact ⟨q, rel.child name, node, hnearest.child hunknown, (q.join_child rel name).symm, hnode,
    (node.reposPath.join_child rel name).symm⟩

theorem DatedAt.child {base changed : Nat} (h : w.DatedAt dir base changed)
    (hchild : ¬ w.HasBase (dir.child name)) : w.DatedAt (dir.child name) base changed := by
  obtain ⟨q, node, hnearest, hnode⟩ := h
  exact ⟨q, node, hnearest.child hchild, hnode⟩

theorem standsFor_self (hnode : w.get? p = some node) {base changed : Nat}
    (hbase : node.base = some base) (hchanged : node.changed = some changed) :
    w.StandsFor p ⟨node.reposPath, base, changed⟩ where
  place := placedAt_self hnode
  revisions := ⟨p, node, Path.isNearest_self ⟨node, hnode, Option.isSome_iff_exists.2 ⟨base, hbase⟩⟩,
    hnode, hbase, hchanged⟩

theorem StandsFor.of_added (h : w.StandsFor dir known) (hnode : w.get? (dir.child name) = some node)
    (hbase : node.base = none) :
    w.StandsFor (dir.child name) { known with reposPath := node.reposPath } where
  place := placedAt_self hnode
  revisions := h.revisions.child fun ⟨m, hm, hsome⟩ => by
    obtain rfl := Option.some.inj (hnode.symm.trans hm)
    rw [hbase] at hsome
    cases hsome

theorem StandsFor.of_unknown (h : w.StandsFor dir known) (hnone : w.get? (dir.child name) = none) :
    w.StandsFor (dir.child name) { known with reposPath := known.reposPath.child name } where
  place := h.place.child hnone
  revisions := h.revisions.child fun ⟨m, hm, _⟩ => by
    rw [hnone] at hm
    cases hm

end WorkingTree

section Search

variable {r : Repository} {w : WorkingTree}

theorem store_bookkeeping? (hw : r.working = some w) (p : Path) :
    r.store.bookkeeping? p = .ok ((w.get? p).map WorkingNode.bookkeeping) := by
  simp only [store, bookkeeping?, workingTree_eq_ok_iff.2 hw]
  rfl

theorem hasBase_root (hr : r.Arises) (hw : r.working = some w) : w.HasBase .root := by
  obtain ⟨k, hk, -⟩ := (hr.isConnected.working hw).root
  obtain ⟨node, hnode, -⟩ := Option.map_eq_some_iff.1 hk
  have hbooks := hr.booksKept.working hw .root node hnode
  generalize hroot : Path.root = p at hbooks hnode
  cases hbooks with
  | based hbase _ => exact ⟨node, hnode, Option.isSome_iff_exists.2 ⟨_, hbase⟩⟩
  | added _ _ _ => exact absurd hroot.symm (Path.child_ne_root _ _)

variable (hw : r.working = some w) {p : Path} (rel : Path) (known : Option Path)
  (candidates : List Path)
include hw

theorem recordedFrom_of_unknown (hnone : w.get? p = none) (path : Path) :
    recordedFrom r.store path known (p :: candidates) = recordedFrom r.store path known candidates := by
  rw [recordedFrom, store_bookkeeping? hw, hnone]
  rfl

theorem recordedFrom_of_known {node : WorkingNode} (hnode : w.get? p = some node) :
    recordedFrom r.store (p.join rel) known (p :: candidates) =
      match node.base, node.changed with
      | some base, some changed => .ok ⟨known.getD (node.reposPath.join rel), base, changed⟩
      | _, _ =>
        recordedFrom r.store (p.join rel) (some (known.getD (node.reposPath.join rel))) candidates := by
  rw [recordedFrom, store_bookkeeping? hw, hnode, Path.below?_eq_some_iff.2 (Eq.refl (p.join rel))]
  rfl

end Search

section Total

variable {r : Repository} (hr : r.Arises) {w : WorkingTree} (hw : r.working = some w)
include hr hw

theorem recordedFrom_of_base {p : Path} (rel : Path) (known : Option Path) (candidates : List Path)
    {node : WorkingNode} (hnode : w.get? p = some node) {base : Nat} (hbase : node.base = some base) :
    ∃ here, w.StandsFor p here ∧ recordedFrom r.store (p.join rel) known (p :: candidates) =
      .ok { here with reposPath := known.getD (here.reposPath.join rel) } := by
  obtain ⟨record, -, -, hchanged, -⟩ := ((hr.booksKept.working hw p node hnode).atBase hbase).record
  refine ⟨_, WorkingTree.standsFor_self hnode hbase hchanged, ?_⟩
  rw [recordedFrom_of_known hw rel known _ hnode, hbase, hchanged]

/-- The search from `p` on, for a path at or below it. What is known of the place stays, and what is
not known is taken from what stands for `p`. -/
theorem recordedFrom_ancestors (p rel : Path) (known : Option Path) :
    ∃ here, w.StandsFor p here ∧
      recordedFrom r.store (p.join rel) known (p :: p.ancestors.reverse) =
        .ok { here with reposPath := known.getD (here.reposPath.join rel) } := by
  induction p using Path.childInduction generalizing rel known with
  | root =>
    obtain ⟨node, hnode, hsome⟩ := hasBase_root hr hw
    obtain ⟨base, hbase⟩ := Option.isSome_iff_exists.1 hsome
    exact recordedFrom_of_base hr hw rel known _ hnode hbase
  | child dir name ih =>
    have hjoin : (dir.child name).join rel = dir.join (Path.join ⟨[name]⟩ rel) := by
      rw [← Path.join_assoc]
      rfl
    cases hnode : w.get? (dir.child name) with
    | none =>
      obtain ⟨here, hhere, hsearch⟩ := ih (Path.join ⟨[name]⟩ rel) known
      refine ⟨_, hhere.of_unknown hnode, ?_⟩
      rw [recordedFrom_of_unknown hw known _ hnode, Path.reverse_ancestors_child, hjoin, hsearch,
        ← Path.join_assoc]
      rfl
    | some node =>
      cases hbase : node.base with
      | some base => exact recordedFrom_of_base hr hw rel known _ hnode hbase
      | none =>
        obtain ⟨here, hhere, hsearch⟩ :=
          ih (Path.join ⟨[name]⟩ rel) (some (known.getD (node.reposPath.join rel)))
        refine ⟨_, hhere.of_added hnode hbase, ?_⟩
        rw [recordedFrom_of_known hw rel known _ hnode, hbase, Path.reverse_ancestors_child, hjoin]
        exact hsearch

theorem recorded_eq_ok (p : Path) : ∃ known, recorded r.store p = .ok known ∧ w.StandsFor p known := by
  obtain ⟨known, hknown, hsearch⟩ := recordedFrom_ancestors hr hw p .root none
  rw [Path.join_root, Option.getD_none, Path.join_root] at hsearch
  exact ⟨known, hsearch, hknown⟩

end Total

structure Repository.Locates (r : Repository) (p : Path) (known : Recorded) : Prop where
  working : Endpoint.locate r.store ⟨.workingCopy p, .working⟩ = .ok ⟨.workingCopy, p⟩
  base : Endpoint.locate r.store ⟨.workingCopy p, .base⟩ = .ok ⟨.revision known.base, known.reposPath⟩
  committed : Endpoint.locate r.store ⟨.workingCopy p, .committed⟩ =
    .ok ⟨.revision known.changed, known.reposPath⟩
  prev : known.changed ≠ 0 → Endpoint.locate r.store ⟨.workingCopy p, .prev⟩ =
    .ok ⟨.revision (known.changed - 1), known.reposPath⟩
  head : Endpoint.locate r.store ⟨.workingCopy p, .head⟩ = .ok ⟨.revision r.youngest, known.reposPath⟩
  number : ∀ n, Endpoint.locate r.store ⟨.workingCopy p, .number n⟩ =
    .ok ⟨.revision n.toNat, known.reposPath⟩
  fails : ∀ revision error, Endpoint.locate r.store ⟨.workingCopy p, revision⟩ = .error error ↔
    revision = .prev ∧ known.changed = 0 ∧
      error = .unsupported (.nothingBefore (Target.workingCopy p).text 0)

section Locates

variable {r : Repository} {p : Path} {known : Recorded} (h : recorded r.store p = .ok known)
include h

theorem locate_of_recorded {revision : RevisionSpec} (hne : revision ≠ .working) :
    Endpoint.locate r.store ⟨.workingCopy p, revision⟩ =
      (Endpoint.recordedRevision r.store ⟨.workingCopy p, revision⟩ known).map
        fun n => ⟨.revision n, known.reposPath⟩ := by
  simp only [Endpoint.locate, if_neg hne, h, bind, Except.bind]
  cases Endpoint.recordedRevision r.store ⟨.workingCopy p, revision⟩ known with
  | error e => rfl
  | ok n => rfl

theorem locate_prev : Endpoint.locate r.store ⟨.workingCopy p, .prev⟩ =
    if known.changed = 0 then .error (.unsupported (.nothingBefore (Target.workingCopy p).text 0))
    else .ok ⟨.revision (known.changed - 1), known.reposPath⟩ := by
  rw [locate_of_recorded h (by decide)]
  obtain ⟨reposPath, base, changed⟩ := known
  cases changed with
  | zero => rfl
  | succ n => rfl

theorem locates_of_recorded : r.Locates p known where
  working := rfl
  base := locate_of_recorded h (by decide)
  committed := locate_of_recorded h (by decide)
  prev hchanged := by rw [locate_prev h, if_neg hchanged]
  head := locate_of_recorded h (by decide)
  number n := locate_of_recorded h (by simp)
  fails revision error := by
    have hfound : ∀ {l}, revision ≠ .prev → Endpoint.locate r.store ⟨.workingCopy p, revision⟩ = .ok l →
        (Endpoint.locate r.store ⟨.workingCopy p, revision⟩ = .error error ↔ revision = .prev ∧
          known.changed = 0 ∧ error = .unsupported (.nothingBefore (Target.workingCopy p).text 0)) :=
      fun hne hl => by simp [hl, hne]
    cases revision with
    | working => exact hfound (by decide) rfl
    | base => exact hfound (by decide) (locate_of_recorded h (by decide))
    | committed => exact hfound (by decide) (locate_of_recorded h (by decide))
    | head => exact hfound (by decide) (locate_of_recorded h (by decide))
    | number n => exact hfound (by simp) (locate_of_recorded h (by simp))
    | prev =>
      rw [locate_prev h]
      split
      case isTrue hchanged => simp [hchanged, eq_comm]
      case isFalse hchanged => simp [hchanged]

end Locates

/-- Every path of a working copy, known or not, stands for a place and for two revisions. An endpoint
there is found with every keyword, unless it asks for what came before revision 0. -/
theorem recorded_standsFor {r : Repository} (hr : r.Arises) {w : WorkingTree} (hw : r.working = some w)
    (p : Path) :
    ∃ known, recorded r.store p = .ok known ∧ w.StandsFor p known ∧ r.Locates p known := by
  obtain ⟨known, hrecorded, hknown⟩ := recorded_eq_ok hr hw p
  exact ⟨known, hrecorded, hknown, locates_of_recorded hrecorded⟩

namespace SwitchedDirectory

def draft : Draft := Draft.empty.applyAll [.directory "d/e", .directory "g"]

def operations : List Operation :=
  [.commit draft, .checkout 1, .edit (.switch "g" "d" 1), .edit (.makeDirectory "g/h")]

def repository : Repository := Repository.empty.runAll operations

theorem repository_arises : repository.Arises := by
  refine Repository.Arises.empty.runAll fun d hd => ?_
  obtain rfl : d = draft := by simpa [operations] using hd
  exact .new _

def missing : Path := ⟨[⟨"g", Eq.refl true⟩, ⟨"h", Eq.refl true⟩, ⟨"x", Eq.refl true⟩]⟩

def place : Path := ⟨[⟨"d", Eq.refl true⟩, ⟨"h", Eq.refl true⟩, ⟨"x", Eq.refl true⟩]⟩

end SwitchedDirectory

open SwitchedDirectory in
theorem recorded_standsFor_switched :
    repository.Arises ∧ ∃ w, repository.working = some w ∧
      recorded repository.store missing = .ok ⟨place, 1, 1⟩ ∧ w.StandsFor missing ⟨place, 1, 1⟩ ∧
      Endpoint.locate repository.store ⟨.workingCopy missing, .prev⟩ = .ok ⟨.revision 0, place⟩ ∧
      ∃ error, Endpoint.locate repository.store ⟨.workingCopy .root, .prev⟩ = .error error := by
  obtain ⟨w, hw⟩ : ∃ w, repository.working = some w := ⟨_, rfl⟩
  obtain ⟨known, hknown, hstands, hlocates⟩ := recorded_standsFor repository_arises hw missing
  obtain rfl : known = ⟨place, 1, 1⟩ := Except.ok.inj (hknown.symm.trans rfl)
  obtain ⟨root, hroot, -, hrootLocates⟩ := recorded_standsFor repository_arises hw .root
  have hchanged : root.changed = 0 := by
    obtain rfl : root = _ := Except.ok.inj (hroot.symm.trans rfl)
    rfl
  exact ⟨repository_arises, w, hw, hknown, hstands, hlocates.prev (by decide), _,
    (hrootLocates.fails .prev _).2 ⟨rfl, hchanged, rfl⟩⟩

end TreeDelta
