import TreeDelta.Proofs.PairPaths
import TreeDelta.Proofs.PlainAddition
set_option autoImplicit false

namespace TreeDelta

open Repository

namespace NodeTree

/-- The source that a node would have. One recorded for the node goes first, also if it names
nothing. -/
inductive Candidate (s : Store) (t : NodeTree) : Path → CopySource → Prop
  | own {rel : Path} {source : CopySource}
      (h : s.copySource? (t.location.join rel) t.origin = .ok (some source)) :
    Candidate s t rel source
  | inherited {n : Nat} {dir : Path} {name : Name} {parent : Node} {above : CopySource}
      (horigin : t.origin = .revision n)
      (hown : s.copySource? (t.location.join (dir.child name)) t.origin = .ok none)
      (hparent : t.nodes.get? dir = some parent) (habove : parent.copySource = some above) :
    Candidate s t (dir.child name) (above.descend ⟨[name]⟩)

def Names (s : Store) (source : CopySource) (m : Node) : Prop :=
  s.node? source.path (.revision source.revision) = .ok (some m)

/-- What the tree holds is what its nodes were copied from. -/
structure HoldsExactly (s : Store) (tracks : Bool) (t : NodeTree) : Prop where
  keys : ∀ source, t.copySources.contains source = true ↔
    ∃ rel n, t.nodes.get? rel = some n ∧ n.copySource = some source
  held : t.copySources.All fun source n => ∃ m, Names s source m ∧ n = { m with path := n.path }
  attached : tracks = true → t.nodes.All fun rel n => ∀ source,
    n.copySource = some source ↔ Candidate s t rel source ∧ ∃ m, Names s source m
  untracked : tracks = false → t.copySources = .empty ∧ t.nodes.All fun _ n => n.copySource = none

section Candidates

variable {s : Store} {t : NodeTree} {source : CopySource}

theorem candidate_root_iff :
    Candidate s t .root source ↔ s.copySource? (t.location.join .root) t.origin = .ok (some source) := by
  constructor
  · intro h
    generalize hrel : Path.root = rel at h
    cases h with
    | own h => exact h
    | inherited _ _ _ _ => exact absurd hrel.symm (Path.child_ne_root _ _)
  · exact .own

theorem candidate_child_iff {dir : Path} {name : Name} {parent : Node}
    (hparent : t.nodes.get? dir = some parent) :
    Candidate s t (dir.child name) source ↔
      s.copySource? (t.location.join (dir.child name)) t.origin = .ok (some source) ∨
        (∃ n, t.origin = .revision n) ∧
          s.copySource? (t.location.join (dir.child name)) t.origin = .ok none ∧
          parent.copySource.map (fun above => above.descend ⟨[name]⟩) = some source := by
  constructor
  · intro h
    generalize hrel : dir.child name = rel at h
    cases h with
    | own h => exact .inl h
    | inherited horigin hown hparent' habove =>
      obtain ⟨rfl, rfl⟩ := Path.child_inj hrel
      obtain rfl := Option.some.inj (hparent.symm.trans hparent')
      exact .inr ⟨⟨_, horigin⟩, hown, by rw [habove]; rfl⟩
  · rintro (h | ⟨⟨n, horigin⟩, hown, hfollows⟩)
    · exact .own h
    · obtain ⟨above, habove, rfl⟩ := Option.map_eq_some_iff.1 hfollows
      exact .inherited horigin hown hparent habove

end Candidates

end NodeTree

open NodeTree

variable {r : Repository}

theorem TreeWalk.Reads.copySource_eq_some_iff_candidate {l : Location} {o : Options} {v : View}
    {t : NodeTree} (hv : r.view? l.origin = some v) (horigin : t.origin = l.origin)
    (hlocation : t.location = l.path)
    (hreads : ∀ rel n, t.nodes.get? rel = some n ↔ (r.walkAt l o).Reads v o.depth rel n)
    (htracks : o.tracksCopies l.origin = true) {rel : Path} {n : Node}
    (h : (r.walkAt l o).Reads v o.depth rel n) (source : CopySource) :
    n.copySource = some source ↔ Candidate r.store t rel source ∧ (v.committed source).isSome = true := by
  have hown : ∀ p found, r.store.copySource? (t.location.join p) t.origin = .ok found ↔
      v.recorded (l.path.join p) = found := by
    intro p found
    have hasked : r.store.copySource? (l.path.join p) l.origin = .ok (v.recorded (l.path.join p)) :=
      (view?_views hv .root false).copySource? _
    rw [horigin, hlocation, hasked, Except.ok.injEq]
  cases h with
  | root _ =>
    rw [candidate_root_iff, hown]
    simp only [placed, attached, walkAt, htracks, if_true, Option.filter_eq_some_iff]
    refine and_congr_left fun _ => ?_
    cases l.origin <;> simp [candidateSource]
  | child hparent _ _ _ _ =>
    rw [candidate_child_iff ((hreads _ _).2 hparent), hown, hown, horigin]
    simp only [placed, attached, walkAt, htracks, if_true, Option.filter_eq_some_iff]
    refine and_congr_left fun _ => ?_
    cases l.origin with
    | revision n => simp [candidateSource, Option.or_eq_some_iff]
    | workingCopy => simp [candidateSource]

theorem committed_isSome_iff {source : CopySource} :
    (r.committed source).isSome = true ↔ ∃ m, Names r.store source m := by
  rw [Option.isSome_iff_exists]
  exact exists_congr fun m => committed_eq_some_iff

theorem resolveTree_holdsExactly {e : Endpoint} {o : Options} {t : NodeTree}
    (h : resolveTree r.store e o = .ok t) : t.HoldsExactly r.store (o.tracksCopies t.origin) := by
  obtain ⟨l, v, hl, hv, horigin, hreads⟩ := resolveTree_eq_ok h
  obtain ⟨l', hl', hsound⟩ := resolveTree_sound h
  obtain rfl : l = l' := Except.ok.inj (hl.symm.trans hl')
  have hcommitted : v.committed = r.committed := by
    cases horigin : l.origin <;> rw [horigin] at hv <;>
      obtain ⟨_, -, rfl⟩ := Option.map_eq_some_iff.1 hv <;> rfl
  have hfirst := resolveTree_holdsFirst h
  have hkeys : ∀ source, t.copySources.contains source = true ↔
      ∃ rel n, t.nodes.get? rel = some n ∧ n.copySource = some source := by
    intro source
    constructor
    · intro hheld
      obtain ⟨held, hheld⟩ := OrderedMap.contains_iff.1 hheld
      obtain ⟨n, hn, hsource⟩ := (hfirst.first source held hheld).1
      exact ⟨_, n, hn, hsource⟩
    · rintro ⟨rel, n, hn, hsource⟩
      exact hfirst.holds rel n hn source hsource
  have huntracked : o.tracksCopies t.origin = false → t.nodes.All fun _ n => n.copySource = none := by
    intro htracks rel n hn
    rw [horigin] at htracks
    exact ((hreads rel n).1 hn).copySource_eq_none htracks
  refine ⟨hkeys, hsound.copySources, fun htracks rel n hn source => ?_, fun htracks => ?_⟩
  · rw [horigin] at htracks
    rw [TreeWalk.Reads.copySource_eq_some_iff_candidate hv horigin hsound.location hreads htracks
      ((hreads rel n).1 hn), hcommitted, committed_isSome_iff]
  · refine ⟨OrderedMap.ext_get? fun source => OrderedMap.get?_eq_none_iff.2 ?_, huntracked htracks⟩
    rw [hkeys]
    rintro ⟨rel, n, hn, hsource⟩
    rw [huntracked htracks rel n hn] at hsource
    cases hsource

/-- In every tree that an endpoint resolves to, the sources held are those of its nodes, each with
the node that it names up to the path. Where copies are tracked, a node has the source that it would
have, unless that names nothing. -/
theorem resolve_holdsExactly {e : Endpoint} {o : Options} {t : NodeTree}
    (h : resolve r.store e o = .ok t) : t.HoldsExactly r.store (o.tracksCopies t.origin) :=
  resolveTree_holdsExactly (resolve_eq_ok h)

open FreshChild in
theorem resolve_holdsExactly_freshChild :
    ∃ t m m', resolve committed.store endpoint options = .ok t ∧ t.HoldsExactly committed.store true ∧
      t.copySources.keys = [⟨copied, 1⟩, source] ∧
      t.nodes.get? fresh = some m ∧ m.copySource = some source ∧
      t.nodes.get? other = some m' ∧ m'.copySource = none ∧
      ∃ t', resolve committed.store endpoint .default = .ok t' ∧ t'.copySources = .empty := by
  obtain ⟨t, ht, horigin⟩ : ∃ t, resolve committed.store endpoint options = .ok t ∧
      t.origin = .revision 2 := ⟨_, rfl, rfl⟩
  obtain ⟨t', ht', horigin'⟩ : ∃ t', resolve committed.store endpoint .default = .ok t' ∧
      t'.origin = .revision 2 := ⟨_, rfl, rfl⟩
  have hexact := resolve_holdsExactly ht
  have hexact' := resolve_holdsExactly ht'
  rw [horigin] at hexact
  rw [horigin'] at hexact'
  have hkeys : (resolve committed.store endpoint options).toOption.map
      (fun t => t.copySources.keys) = some [⟨copied, 1⟩, source] := by decide +kernel
  rw [ht] at hkeys
  have hfound := found?_eq (resolve_eq_ok ht)
  have hfresh : (found? fresh).bind Node.copySource = some source := by decide +kernel
  obtain ⟨m, hm, hsource⟩ := Option.bind_eq_some_iff.1 hfresh
  have hother : (found? other).bind Node.copySource = none := by decide +kernel
  obtain ⟨m', hm'⟩ : ∃ m', found? other = some m' := Option.isSome_iff_exists.1 (by decide +kernel)
  rw [hm', Option.bind_some] at hother
  rw [hfound] at hm hm'
  exact ⟨t, m, m', ht, hexact, Option.some.inj hkeys, hm, hsource, hm', hother, t', ht',
    (hexact'.untracked rfl).1⟩

end TreeDelta
