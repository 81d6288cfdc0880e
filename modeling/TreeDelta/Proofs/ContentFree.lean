import TreeDelta.Patch.Report
import TreeDelta.Proofs.Operation
import TreeDelta.Proofs.TreeReading
set_option autoImplicit false

namespace TreeDelta

open Repository

/-- The stores answer alike, except for contents. -/
structure Store.SameTrees (s s' : Store) : Prop where
  node? : s'.node? = s.node?
  children : s'.children = s.children
  copySource? : s'.copySource? = s.copySource?
  youngest : s'.youngest = s.youngest
  bookkeeping? : s'.bookkeeping? = s.bookkeeping?

/-- No node lies deeper than its origin is high. -/
def Store.HeightBounds (s : Store) : Prop :=
  ∀ p origin n, s.node? p origin = .ok (some n) → p.depth ≤ s.height origin

def Options.listing (o : Options) : Bool := o.summarizeOnly || o.propertiesOnly

theorem Repository.store_heightBounds (r : Repository) : r.store.HeightBounds := by
  intro p origin n hn
  obtain ⟨v, hv⟩ := view?_of_node?_eq_ok hn
  have hnode := (view?_views hv .root false).node? p
  refine depth_le_height hv (OrderedMap.contains_iff.2 ⟨n, ?_⟩)
  exact Except.ok.inj (hnode.symm.trans hn)

section Same

variable {s s' : Store} (h : s.SameTrees s')
include h

theorem recordedFrom_sameTrees (path : Path) (known : Option Path) (candidates : List Path) :
    recordedFrom s' path known candidates = recordedFrom s path known candidates := by
  induction candidates generalizing known with
  | nil => rfl
  | cons candidate candidates ih => simp only [recordedFrom, h.bookkeeping?, ih]

theorem recorded_sameTrees (path : Path) : recorded s' path = recorded s path :=
  recordedFrom_sameTrees h path none _

theorem recordedRevision_sameTrees (e : Endpoint) (known : Recorded) :
    e.recordedRevision s' known = e.recordedRevision s known := by
  simp only [Endpoint.recordedRevision, h.youngest]

theorem locate_sameTrees (e : Endpoint) : e.locate s' = e.locate s := by
  obtain ⟨target, revision⟩ := e
  cases target with
  | repository path =>
    cases revision with
    | head => simp only [Endpoint.locate, h.youngest]
    | _ => rfl
  | workingCopy path =>
    simp only [Endpoint.locate, recorded_sameTrees h, recordedRevision_sameTrees h]

theorem TreeWalk.visit_sameTrees (origin : Origin) (base : Path) (tracks : Bool) :
    TreeWalk.visit ⟨s', origin, base, tracks⟩ = TreeWalk.visit ⟨s, origin, base, tracks⟩ := by
  funext t n rel inherited
  simp only [visit, attachSource, candidateSource, sourceNode, h.copySource?, h.node?]

/-- Two walks over the same nodes, with levels enough to get below the deepest, read the same. -/
theorem TreeWalk.descend_sameTrees {origin : Origin} {base : Path} {tracks : Bool} {depth : Depth}
    {height : Nat} (hheight : ∀ p n, s.node? p origin = .ok (some n) → p.depth ≤ height)
    {levels levels' : Nat} (t : NodeTree) {dir : Path} (hdir : (base.join dir).depth ≤ height)
    (hlevels : height < (base.join dir).depth + levels)
    (hlevels' : height < (base.join dir).depth + levels') :
    TreeWalk.descend ⟨s', origin, base, tracks⟩ depth levels' t dir =
      TreeWalk.descend ⟨s, origin, base, tracks⟩ depth levels t dir := by
  induction levels generalizing levels' t dir with
  | zero => omega
  | succ levels ih =>
    cases levels' with
    | zero => omega
    | succ levels' =>
      have henter : ∀ inherited,
          TreeWalk.enter ⟨s', origin, base, tracks⟩ depth levels' dir inherited =
            TreeWalk.enter ⟨s, origin, base, tracks⟩ depth levels dir inherited := by
        intro inherited
        funext t name
        have hbelow : ∀ t node, s.node? (base.join (dir.child name)) origin = .ok (some node) →
            TreeWalk.descend ⟨s', origin, base, tracks⟩ depth levels' t (dir.child name) =
              TreeWalk.descend ⟨s, origin, base, tracks⟩ depth levels t (dir.child name) := by
          intro t node hnode
          refine ih t (hheight _ node hnode) ?_ ?_
          · rw [Path.join_child, Path.depth_child]
            omega
          · rw [Path.join_child, Path.depth_child]
            omega
        simp only [enter, h.node?, visit_sameTrees h]
        cases hfound : s.node? (base.join (dir.child name)) origin with
        | error e => simp only [asking, Except.mapError, bind, Except.bind]
        | ok found =>
          cases found with
          | none => simp only [asking, Except.mapError, bind, Except.bind]
          | some node => simp only [hbelow _ node hfound]
      simp only [descend_succ, h.children, henter]

theorem TreeWalk.descend_root_sameTrees (hs : s.HeightBounds) (hs' : s'.HeightBounds) {l : Location}
    {root : Node} (hroot : s.node? l.path l.origin = .ok (some root)) (tracks : Bool) (depth : Depth)
    (t : NodeTree) :
    TreeWalk.descend ⟨s', l.origin, l.path, tracks⟩ depth (s'.height l.origin + 1) t .root =
      TreeWalk.descend ⟨s, l.origin, l.path, tracks⟩ depth (s.height l.origin + 1) t .root := by
  have hheight : ∀ p n, s.node? p l.origin = .ok (some n) →
      p.depth ≤ min (s.height l.origin) (s'.height l.origin) := fun p n hn =>
    Nat.le_min.2 ⟨hs p l.origin n hn, hs' p l.origin n (by rw [h.node?]; exact hn)⟩
  have hdepth := hheight l.path root hroot
  rw [← Path.join_root l.path] at hdepth
  exact descend_sameTrees h hheight t hdepth (by omega) (by omega)

theorem resolveTree_sameTrees (hs : s.HeightBounds) (hs' : s'.HeightBounds) (e : Endpoint)
    (o : Options) : resolveTree s' e o = resolveTree s e o := by
  rw [resolveTree, resolveTree, locate_sameTrees h]
  cases e.locate s with
  | error e => simp only [bind, Except.bind]
  | ok l =>
    simp only [bind, Except.bind, h.node?, TreeWalk.visit_sameTrees h]
    cases hroot : s.node? l.path l.origin with
    | error e => simp only [asking, Except.mapError]
    | ok found =>
      cases found with
      | none => simp only [asking, Except.mapError]
      | some root =>
        simp only [asking, Except.mapError, TreeWalk.descend_root_sameTrees h hs hs' hroot]

theorem resolvePair_sameTrees (hs : s.HeightBounds) (hs' : s'.HeightBounds) (old new : Endpoint)
    (o : Options) : resolvePair s' old new o = resolvePair s old new o := by
  simp only [resolvePair, resolveTree_sameTrees h hs hs']

theorem compareTrees_sameTrees (hs : s.HeightBounds) (hs' : s'.HeightBounds) {spec : ComparisonSpec}
    (hlisting : spec.options.listing = true) : compareTrees s' spec = compareTrees s spec := by
  have hcontent : ∀ (f : Frame), f.options = spec.options → ∀ p, f.contentOf p = .ok none := by
    intro f hoptions p
    rw [Options.listing] at hlisting
    rw [Frame.contentOf, hoptions, hlisting]
    rfl
  have hresult : ∀ old new root, Frame.result ⟨s', spec.options, old, new, root⟩ =
      Frame.result ⟨s, spec.options, old, new, root⟩ := by
    intro old new root
    funext p
    rw [Frame.result, Frame.result, hcontent _ rfl, hcontent _ rfl]
    rfl
  simp only [compareTrees, resolvePair_sameTrees h hs hs', hresult]

theorem writeAll_sameTrees (hs : s.HeightBounds) (hs' : s'.HeightBounds) (f : Patch.Form) (out : Bytes)
    {specs : List ComparisonSpec} (hlisting : ∀ spec ∈ specs, spec.options.listing = true) :
    Patch.writeAll s' f out specs = Patch.writeAll s f out specs := by
  induction specs generalizing out with
  | nil => rfl
  | cons spec specs ih =>
    obtain ⟨hspec, hspecs⟩ := List.forall_mem_cons.1 hlisting
    simp only [Patch.writeAll, compareTrees_sameTrees h hs hs' hspec]
    cases compareTrees s spec with
    | error e => rfl
    | ok results => exact ih _ hspecs

/-- What a listing tells and what is written of it do not depend on contents. -/
theorem listing_sameTrees (hs : s.HeightBounds) (hs' : s'.HeightBounds) :
    (∀ spec : ComparisonSpec, spec.options.listing = true →
        compareTrees s' spec = compareTrees s spec) ∧
      ∀ specs : List ComparisonSpec, (∀ spec ∈ specs, spec.options.listing = true) →
        Patch.write s' specs = Patch.write s specs := by
  refine ⟨fun spec => compareTrees_sameTrees h hs hs', fun specs hlisting => ?_⟩
  cases specs with
  | nil => rfl
  | cons first specs => simp only [Patch.write, writeAll_sameTrees h hs hs' _ _ hlisting]

end Same

namespace LostContents

def operations : List Operation :=
  [.commit (Draft.empty.applyAll [.file "f" [97]]), .commit (Draft.empty.applyAll [.file "f" [98]])]

def repository : Repository := Repository.empty.runAll operations

def lost (s : Store) : Store :=
  { s with
    content? := fun id => .error (.missingContent id)
    height := fun origin => s.height origin + 3 }

theorem lost_sameTrees (s : Store) : s.SameTrees (lost s) := ⟨rfl, rfl, rfl, rfl, rfl⟩

theorem lost_heightBounds {s : Store} (hs : s.HeightBounds) : (lost s).HeightBounds :=
  fun p origin n hn => Nat.le_add_right_of_le (hs p origin n hn)

def store : Store := repository.store

def spec (o : Options) : ComparisonSpec :=
  ⟨⟨.repository .root, .number 1⟩, ⟨.repository .root, .number 2⟩, none, o⟩

def summary : Options := { Options.default with summarizeOnly := true }

def told (x : Except DiffError (List PairResult)) : Option (List (String × Bool)) :=
  x.toOption.map fun results => results.map fun x => (x.path.text, x.textChanged)

end LostContents

open LostContents in
theorem listing_sameTrees_lostContents :
    store.SameTrees (lost store) ∧ store.HeightBounds ∧ (lost store).HeightBounds ∧
      summary.listing = true ∧
      compareTrees (lost store) (spec summary) = compareTrees store (spec summary) ∧
      Patch.write (lost store) [spec summary] = Patch.write store [spec summary] ∧
      told (compareTrees (lost store) (spec summary)) = some [("f", true)] ∧
      told (compareTrees (lost store) (spec .default)) = none := by
  have hbounds : store.HeightBounds := repository.store_heightBounds
  obtain ⟨hcompare, hwrite⟩ :=
    listing_sameTrees (lost_sameTrees store) hbounds (lost_heightBounds hbounds)
  refine ⟨lost_sameTrees store, hbounds, lost_heightBounds hbounds, rfl, hcompare (spec summary) rfl,
    hwrite [spec summary] (List.forall_mem_singleton.2 rfl), ?_, by decide +kernel⟩
  rw [hcompare (spec summary) rfl]
  decide +kernel

end TreeDelta
