import Mathlib.Data.List.TakeDrop
import Mathlib.Data.List.TakeWhile
import TreeDelta.Proofs.LocalChange
set_option autoImplicit false

/-!
# What an operation does

`Step` lists the ways in which an operation can end, each with the whole state
that it leaves. Every run of an operation is one of them (`step_run`), so what
holds of every step holds of every operation, and by `Reachable` of every run.
-/
namespace TreeDelta

open Repository

theorem Record.carry_fields (old : Option Record) (new : Record) :
    (carry old new).kind = new.kind ∧ (carry old new).content = new.content ∧
      (carry old new).props = new.props ∧ (carry old new).copySource = new.copySource := by
  unfold carry
  split
  · split
    · rename_i hsame
      simpa only [sameNode, Bool.and_eq_true, beq_iff_eq, and_assoc] using hsame
    · exact ⟨rfl, rfl, rfl, rfl⟩
  · exact ⟨rfl, rfl, rfl, rfl⟩

theorem Record.changed_carry (old : Option Record) (new : Record) :
    (carry old new).changed = new.changed ∨
      ∃ record, old = some record ∧ (carry old new).changed = record.changed := by
  unfold carry
  split
  · rename_i record
    split
    · exact .inr ⟨record, rfl, rfl⟩
    · exact .inl rfl
  · exact .inl rfl

theorem exists_snapshot? {r : Repository} {n : Nat} (hn : n ≤ r.youngest) :
    ∃ s, r.snapshot? n = some s := by
  cases n with
  | zero => exact ⟨.bare, rfl⟩
  | succ n => exact ⟨_, List.getElem?_eq_getElem hn⟩

theorem snapshot?_eq_of_revisions {r r' : Repository} (h : r'.revisions = r.revisions) (n : Nat) :
    r'.snapshot? n = r.snapshot? n := by
  cases n with
  | zero => rfl
  | succ n => rw [snapshot?, snapshot?, h]

theorem snapshot?_append {r r' : Repository} {s t : Snapshot} {n : Nat}
    (hr : r'.revisions = r.revisions ++ [s]) :
    r'.snapshot? n = some t ↔ r.snapshot? n = some t ∨ n = r.nextRevision ∧ s = t := by
  cases n with
  | zero => simp [snapshot?, nextRevision]
  | succ n =>
    rw [snapshot?, snapshot?, hr, nextRevision, youngest, Nat.add_left_inj]
    rcases Nat.lt_trichotomy n r.revisions.length with hlt | rfl | hgt
    · rw [List.getElem?_append_left hlt]
      simp [Nat.ne_of_lt hlt]
    · simp
    · have hlen : (r.revisions ++ [s]).length ≤ n := by
        rw [List.length_append]
        exact hgt
      rw [List.getElem?_eq_none (Nat.le_of_lt hgt), List.getElem?_eq_none hlen]
      simp [Nat.ne_of_gt hgt]

inductive Step (r : Repository) : Operation → Outcome → Prop
  | failed {op : Operation} (data : List Bytes) (e : StoreError) : Step r op (r.keep data, .error e)
  | keptContent (data : Bytes) : Step r (.putContent data) (r.keep [data], .ok ())
  | edited {change : LocalEdit} {r' : Repository} (data : List Bytes)
      (h : LocalChanges (r.keep data) r') : Step r (.edit change) (r', .ok ())
  | checkedOut {n : Nat} {s : Snapshot} (hs : r.snapshot? n = some s) :
    Step r (.checkout n) ({ r with working := some (.ofSnapshot s n) }, .ok ())
  | committed {d : Draft} (hfault : d.fault = none)
      (hsources : ∀ e ∈ d.nodes.entries, e.2.sourcePrecedes r.nextRevision = true) :
    Step r (.commit d)
      ({ r.keep (d.nodes.entries.filterMap fun e => e.2.content) with
          revisions := r.revisions ++ [r.snapshotOf d] }, .ok ())
  | committedWorkingCopy {w : WorkingTree} (hw : r.working = some w)
      (hplace : ∀ e ∈ w.entries, e.2.reposPath = e.1) :
    Step r .commitWorkingCopy
      ({ r with
          revisions := r.revisions ++ [w.map r.recordOf]
          working := some (.ofSnapshot (w.map r.recordOf) r.nextRevision) }, .ok ())

theorem step_commit (r : Repository) (d : Draft) : Step r (.commit d) (r.commit d) := by
  unfold commit
  split
  · rename_i e _
    exact .failed [] _
  · rename_i hfault
    simp only [List.span_eq_takeWhile_dropWhile]
    split
    · exact .failed _ _
    · rename_i hnone
      have hrest : d.nodes.entries.dropWhile (fun e => e.2.sourcePrecedes r.nextRevision) = [] := by
        cases hdrop : d.nodes.entries.dropWhile fun e => e.2.sourcePrecedes r.nextRevision with
        | nil => rfl
        | cons e rest =>
          have hstop : e.2.sourcePrecedes r.nextRevision = false := by
            have hhead := List.head?_dropWhile_not (fun e => e.2.sourcePrecedes r.nextRevision)
              d.nodes.entries
            rw [hdrop] at hhead
            simpa using hhead
          rw [hdrop, List.head?_cons, Option.bind_some] at hnone
          rw [DraftNode.sourcePrecedes, hnone] at hstop
          cases hstop
      have hsources : ∀ e ∈ d.nodes.entries, e.2.sourcePrecedes r.nextRevision = true :=
        List.dropWhile_eq_nil_iff.1 hrest
      rw [List.takeWhile_eq_self_iff.2 hsources]
      exact .committed hfault hsources

theorem step_commitWorkingCopy (r : Repository) :
    Step r .commitWorkingCopy (r.attempt r.commitWorkingCopy) := by
  cases h : r.commitWorkingCopy with
  | error e => exact .failed [] e
  | ok r' =>
    obtain ⟨w, hw, h⟩ := bind_eq_ok_iff.1 h
    rw [workingTree_eq_ok_iff] at hw
    split at h
    · cases h
    · rename_i hplace
      cases h
      refine .committedWorkingCopy hw fun e he => ?_
      simpa using List.find?_eq_none.1 hplace e he

theorem step_checkout (r : Repository) (n : Nat) : Step r (.checkout n) (r.attempt (r.checkout n)) := by
  cases h : r.checkout n with
  | error e => exact .failed [] e
  | ok r' =>
    obtain ⟨s, hs, h⟩ := bind_eq_ok_iff.1 h
    cases h
    exact .checkedOut (snapshot_eq_ok_iff.1 hs)

theorem step_edit (r : Repository) (change : LocalEdit) : Step r (.edit change) (r.edit change) := by
  obtain ⟨data, ⟨e, h⟩ | ⟨r', h, hchanges⟩⟩ := edit_editResult r change
  · rw [h]
    exact .failed data e
  · rw [h]
    exact .edited data hchanges

theorem step_run (r : Repository) (op : Operation) : Step r op (op.run r) := by
  cases op with
  | commit d => exact step_commit r d
  | commitWorkingCopy => exact step_commitWorkingCopy r
  | checkout n => exact step_checkout r n
  | edit change => exact step_edit r change
  | putContent data => exact .keptContent data

namespace Repository

def runAll (r : Repository) (ops : List Operation) : Repository := ops.foldl (fun r op => (op.run r).1) r

inductive Reachable : Repository → Prop
  | empty : Reachable .empty
  | run {r : Repository} (h : Reachable r) (op : Operation) : Reachable (op.run r).1

theorem Reachable.runAll {r : Repository} (h : r.Reachable) (ops : List Operation) :
    (r.runAll ops).Reachable := by
  induction ops generalizing r with
  | nil => exact h
  | cons op ops ih => exact ih (h.run op)

end Repository

theorem Draft.applyAll_cons (d : Draft) (e : DraftEdit) (edits : List DraftEdit) :
    d.applyAll (e :: edits) = (d.apply e).applyAll edits := rfl

theorem Draft.applyAll_append (d : Draft) (edits edits' : List DraftEdit) :
    d.applyAll (edits ++ edits') = (d.applyAll edits).applyAll edits' := List.foldl_append

/-- A repository that operations bring about whose drafts are themselves drawn up by edits: from
nothing, or from a revision of such a repository. -/
inductive Repository.Arises : Repository → Prop
  | empty : Arises .empty
  | commitNew {r : Repository} (h : Arises r) (edits : List DraftEdit) :
    Arises (r.commit (Draft.empty.applyAll edits)).1
  | commitRevised {r source : Repository} {n : Nat} {base : Draft} (h : Arises r)
      (hsource : Arises source) (hbase : source.draftAt n = .ok base) (edits : List DraftEdit) :
    Arises (r.commit (base.applyAll edits)).1
  | run {r : Repository} (h : Arises r) {op : Operation} (hop : ∀ d, op ≠ .commit d) :
    Arises (op.run r).1

inductive Draft.Arises : Draft → Prop
  | new (edits : List DraftEdit) : Arises (Draft.empty.applyAll edits)
  | revised {source : Repository} {n : Nat} {base : Draft} (hsource : source.Arises)
      (hbase : source.draftAt n = .ok base) (edits : List DraftEdit) : Arises (base.applyAll edits)

theorem Draft.Arises.applyAll {d : Draft} (h : d.Arises) (edits : List DraftEdit) :
    (d.applyAll edits).Arises := by
  cases h with
  | new before =>
    rw [← Draft.applyAll_append]
    exact .new _
  | revised hsource hbase before =>
    rw [← Draft.applyAll_append]
    exact .revised hsource hbase _

theorem Draft.sample_arises : Draft.sample.Arises := .new _

namespace Repository.Arises

variable {r : Repository}

theorem operation (h : r.Arises) {op : Operation} (hop : ∀ d, op = .commit d → d.Arises) :
    (op.run r).1.Arises := by
  by_cases hcommit : ∃ d, op = .commit d
  · obtain ⟨d, rfl⟩ := hcommit
    cases hop d rfl with
    | new edits => exact .commitNew h edits
    | revised hsource hbase edits => exact .commitRevised h hsource hbase edits
  · exact .run h fun d hd => hcommit ⟨d, hd⟩

theorem runAll (h : r.Arises) {ops : List Operation} (hops : ∀ d, .commit d ∈ ops → d.Arises) :
    (r.runAll ops).Arises := by
  induction ops generalizing r with
  | nil => exact h
  | cons op ops ih =>
    have hstep : (op.run r).1.Arises := h.operation fun d hd => hops d (hd ▸ List.mem_cons_self)
    exact ih hstep fun d hd => hops d (List.mem_cons_of_mem _ hd)

theorem reachable (h : r.Arises) : r.Reachable := by
  induction h with
  | empty => exact .empty
  | commitNew _ edits ih => exact .run ih (.commit _)
  | commitRevised _ _ _ edits ih => exact .run ih (.commit _)
  | @run r _ op _ ih => exact .run ih op

/-- What holds of the empty repository and draft, of the drafts of revisions and of edited drafts,
and what every step keeps, holds of all that comes about. -/
theorem keeps {P : Repository → Prop} {D : Draft → Prop} (empty : P .empty) (new : D .empty)
    (revised : ∀ source n base, P source → source.draftAt n = .ok base → D base)
    (edit : ∀ d e, D d → D (d.apply e))
    (step : ∀ r op out, P r → Step r op out → (∀ d, op = .commit d → D d) → P out.1)
    (h : r.Arises) : P r := by
  have hedits : ∀ (edits : List DraftEdit) (d : Draft), D d → D (d.applyAll edits) := by
    intro edits
    induction edits with
    | nil => exact fun _ hd => hd
    | cons e edits ih => exact fun d hd => ih _ (edit d e hd)
  have hcommit : ∀ (r : Repository) (d : Draft), P r → D d → P (r.commit d).1 := by
    intro r d hr hd
    refine step r _ _ hr (step_commit r d) fun d' heq => ?_
    cases heq
    exact hd
  induction h with
  | empty => exact empty
  | commitNew _ edits ih => exact hcommit _ _ ih (hedits edits _ new)
  | commitRevised _ _ hbase edits ih ihsource =>
    exact hcommit _ _ ih (hedits edits _ (revised _ _ _ ihsource hbase))
  | @run r _ op hop ih => exact step r op _ ih (step_run r op) fun d hd => absurd hd (hop d)

end Repository.Arises

end TreeDelta
