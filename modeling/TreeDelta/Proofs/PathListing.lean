import TreeDelta.Proofs.PairPaths
import TreeDelta.Proofs.TextOrder
import TreeDelta.Proofs.WrittenPath
set_option autoImplicit false

namespace TreeDelta

theorem compare_map {α β : Type} [Ord α] [Ord β] {f : α → β} (hf : ∀ a b, compare (f a) (f b) = compare a b)
    (l m : List α) : compare (l.map f) (m.map f) = compare l m := by
  induction l generalizing m with
  | nil => cases m <;> rfl
  | cons a l ih =>
    cases m with
    | nil => rfl
    | cons b m => rw [List.map_cons, List.map_cons, List.compare_cons_cons, List.compare_cons_cons, hf, ih]

theorem Path.compare_of_not_below {base k q : Path} (hk : compare base k = .lt)
    (hout : k.isAtOrBelow base = false) (hq : q.isAtOrBelow base = true) : compare q k = .lt := by
  cases hqk : compare q k with
  | lt => rfl
  | eq | gt =>
    have hkq : compare k q ≠ .gt := fun h => by simp [Std.OrientedCmp.lt_of_gt h] at hqk
    rw [isAtOrBelow_of_between (by simp [hk]) hkq hq] at hout
    cases hout

namespace WrittenPath

def compareBytes (s t : String) : Ordering :=
  compare ((components s).map Bytes.ofString) ((components t).map Bytes.ofString)

theorem compareBytes_text (p q : Path) : compareBytes p.text q.text = compare p q := by
  rw [compareBytes, Path.components_text, Path.components_text, compare_map Bytes.compare_ofString,
    compare_map fun n m => (Name.compare_def n m).symm, Path.compare_def]

/-- The order of canonical texts is total, and it puts a place before all that is below it and this before
all that follows. -/
structure InOrder (a b c : String) : Prop where
  eq_iff : compareBytes a b = .eq ↔ a = b
  swap : compareBytes b a = (compareBytes a b).swap
  trans : (compareBytes a b).isLE → (compareBytes b c).isLE → (compareBytes a c).isLE
  below : isAtOrBelow b a = true → b ≠ a → compareBytes a b = .lt
  beyond : compareBytes a b = .lt → isAtOrBelow b a = false → isAtOrBelow c a = true → compareBytes c b = .lt

theorem inOrder {a b c : String} (ha : IsCanonical a) (hb : IsCanonical b) (hc : IsCanonical c) :
    InOrder a b c := by
  obtain ⟨p, rfl⟩ := ha.exists_text
  obtain ⟨q, rfl⟩ := hb.exists_text
  obtain ⟨k, rfl⟩ := hc.exists_text
  constructor
  · rw [compareBytes_text, Std.LawfulEqCmp.compare_eq_iff_eq, Path.text_injective.eq_iff]
  · rw [compareBytes_text, compareBytes_text]
    exact Std.OrientedCmp.eq_swap
  · simp only [compareBytes_text]
    exact Std.TransCmp.isLE_trans
  · rw [compareBytes_text, ← Path.isAtOrBelow_text]
    exact fun hbelow hne => Path.compare_of_below hbelow fun h => hne (congrArg Path.text h)
  · simp only [compareBytes_text, ← Path.isAtOrBelow_text]
    exact Path.compare_of_not_below

end WrittenPath

/-- What lies at or below `p` is one run of the keys, and starts with `p` if `p` is one of them. -/
structure IsSubtreeRun (keys : List Path) (p : Path) (before run after : List Path) : Prop where
  keys_eq : keys = before ++ (run ++ after)
  inside : ∀ k ∈ run, k.isAtOrBelow p = true
  outside : ∀ k ∈ before ++ after, k.isAtOrBelow p = false
  first : p ∈ keys → run.head? = some p

theorem eq_false_of_filter_eq {α : Type} {inside : α → Bool} {before run after : List α}
    (h : (before ++ (run ++ after)).filter inside = run) : ∀ x ∈ before ++ after, inside x = false := by
  have hrun : run.filter inside = run := by
    rw [← h, List.filter_filter]
    simp
  rw [List.filter_append, List.filter_append, hrun] at h
  have hlength := congrArg List.length h
  rw [List.length_append, List.length_append] at hlength
  have hbefore : before.filter inside = [] := List.length_eq_zero_iff.1 (by omega)
  have hafter : after.filter inside = [] := List.length_eq_zero_iff.1 (by omega)
  intro x hx
  rcases List.mem_append.1 hx with hx | hx
  · exact Bool.eq_false_iff.2 (List.filter_eq_nil_iff.1 hbefore x hx)
  · exact Bool.eq_false_iff.2 (List.filter_eq_nil_iff.1 hafter x hx)

variable {ν : Type} (tree : OrderedMap Path ν) (p : Path)

theorem takeWhile_keysFrom :
    (tree.keys.dropWhile fun k => compare k p == .lt).takeWhile (·.isAtOrBelow p) =
      tree.keys.filter (·.isAtOrBelow p) := by
  rw [OrderedMap.keys, List.dropWhile_map, List.takeWhile_map, List.filter_map]
  exact congrArg (List.map Prod.fst) (takeWhile_entriesFrom tree p)

theorem head?_keys_below (hp : p ∈ tree.keys) : (tree.keys.filter (·.isAtOrBelow p)).head? = some p := by
  have hmem : p ∈ tree.keys.filter (·.isAtOrBelow p) := List.mem_filter.2 ⟨hp, p.isAtOrBelow_self⟩
  have hascending := tree.keys_ascending.filter (·.isAtOrBelow p)
  cases hrun : tree.keys.filter (·.isAtOrBelow p) with
  | nil =>
    rw [hrun] at hmem
    cases hmem
  | cons k rest =>
    have hfirst : k ∈ tree.keys.filter (·.isAtOrBelow p) := hrun ▸ List.mem_cons_self
    have hk : k.isAtOrBelow p = true := (List.mem_filter.1 hfirst).2
    rw [hrun] at hmem hascending
    rcases List.mem_cons.1 hmem with rfl | hrest
    · rfl
    · have hkp := (List.pairwise_cons.1 hascending).1 p hrest
      have hpk := Path.compare_of_below hk fun h => by simp [h] at hkp
      simp [Std.OrientedCmp.gt_of_lt hpk] at hkp

theorem exists_subtreeRun : ∃ before run after, IsSubtreeRun tree.keys p before run after := by
  have hkeys := List.takeWhile_append_dropWhile (p := fun k => compare k p == .lt) (l := tree.keys)
  have hrun := List.takeWhile_append_dropWhile (p := (·.isAtOrBelow p))
    (l := tree.keys.dropWhile fun k => compare k p == .lt)
  rw [takeWhile_keysFrom] at hrun
  rw [← hrun] at hkeys
  refine ⟨_, _, _, hkeys.symm, fun k hk => (List.mem_filter.1 hk).2, ?_, head?_keys_below tree p⟩
  exact eq_false_of_filter_eq (congrArg _ hkeys)

/-- The last components of the texts that are one component longer than `s`, read from `s` on up to the
first text that is not at or below `s`. -/
def WrittenPath.namesBelow (s : String) (texts : List String) : List String :=
  (((texts.dropWhile fun t => compareBytes t s == .lt).takeWhile fun t => isAtOrBelow t s).filter fun t =>
    (components t).length == (components s).length + 1).filterMap name?

theorem childName?_eq (p q : Path) :
    p.childName? q = if q.isAtOrBelow p && q.depth == p.depth + 1 then q.name? else none := by
  ext n
  rw [Path.childName?_eq_some_iff]
  constructor
  · rintro rfl
    rw [(Path.isAtOrBelow_child_iff).2 (.inr p.isAtOrBelow_self), Path.depth_child]
    simp
  · intro h
    split at h
    · rename_i hbelow
      obtain ⟨hbelow, hdepth⟩ := Bool.and_eq_true_iff.1 hbelow
      obtain ⟨⟨rel⟩, rfl⟩ := Path.isAtOrBelow_iff.1 hbelow
      have hlength : rel.length = 1 := by simpa [Path.depth, Path.join] using hdepth
      obtain ⟨m, rfl⟩ := List.length_eq_one_iff.1 hlength
      have hchild : p.join ⟨[m]⟩ = p.child m := (p.join_cons m []).trans (Path.join_root _)
      rw [hchild, Path.name?_child, Option.some_inj] at h
      rw [hchild, h]
    · cases h

theorem namesBelow_keys :
    WrittenPath.namesBelow p.text (tree.keys.map Path.text) = (childNames tree p).map Name.text := by
  have hbefore : (fun t => WrittenPath.compareBytes t p.text == .lt) ∘ Path.text = fun k => compare k p == .lt := by
    funext k
    rw [Function.comp_apply, WrittenPath.compareBytes_text]
  have hinside : (WrittenPath.isAtOrBelow · p.text) ∘ Path.text = (·.isAtOrBelow p) := by
    funext k
    rw [Function.comp_apply, Path.isAtOrBelow_text]
  have hlevel : (fun t => (WrittenPath.components t).length == (WrittenPath.components p.text).length + 1) ∘
      Path.text = fun k => k.depth == p.depth + 1 := by
    funext k
    simp only [Function.comp_apply, Path.components_text, List.length_map, Path.depth]
  have hname : WrittenPath.name? ∘ Path.text = fun k => k.name?.map Name.text := by
    funext k
    rw [Function.comp_apply, Path.text_name?]
  unfold WrittenPath.namesBelow
  rw [List.dropWhile_map, hbefore, List.takeWhile_map, hinside, takeWhile_keysFrom, List.filter_map, hlevel,
    List.filterMap_map, hname, List.filter_filter, List.filterMap_filter, childNames, List.map_filterMap]
  congr 1
  funext k
  rw [childName?_eq, Bool.and_comm]
  split <;> rfl

variable {r : Repository} {p : Path} {origin : Origin} {node : Node}

theorem children_of_node? (h : r.store.node? p origin = .ok (some node)) :
    ∃ v names, r.view? origin = some v ∧ names = childNames v.nodes p ∧
      r.store.children p origin = .ok names ∧
      ∀ n, n ∈ names ↔ ∃ found, r.store.node? (p.child n) origin = .ok (some found) := by
  obtain ⟨v, hv⟩ := view?_of_node?_eq_ok h
  have hviews := Repository.view?_views hv .root false
  have hnode (q : Path) : r.store.node? q origin = .ok (v.nodes.get? q) := hviews.node? q
  have hp : v.nodes.contains p = true := by
    rw [hnode] at h
    exact OrderedMap.contains_iff.2 ⟨node, Except.ok.inj h⟩
  refine ⟨v, _, hv, rfl, hviews.children p hp, fun n => ?_⟩
  rw [mem_childNames_iff, hnode, OrderedMap.contains_iff]
  simp only [Except.ok.injEq]

theorem names_ascending_bytes {names : List Name} (h : r.store.children p origin = .ok names) :
    names.Pairwise fun n m => compare (Bytes.ofString n.text) (Bytes.ofString m.text) = .lt :=
  (children_ascending h).imp fun {n m} hlt => (Bytes.compare_ofString n.text m.text).trans hlt

open WrittenPath in
/-- Paths stand in the total order of their written components, byte by byte, in which a subtree is one
run that starts at its top. A store lists as the children of a node the names of the nodes right below
it, each once and in the order of their bytes, which are those that a reading of the tree from
the node on up to the first path outside finds. -/
theorem paths_in_order :
    (∀ p q : Path, compareBytes p.text q.text = compare p q) ∧
    (∀ a b c : String, IsCanonical a → IsCanonical b → IsCanonical c → InOrder a b c) ∧
    (∀ {ν : Type} (tree : OrderedMap Path ν) (p : Path),
      ∃ before run after, IsSubtreeRun tree.keys p before run after) ∧
    ∀ (r : Repository) (p : Path) (origin : Origin) (node : Node),
      r.store.node? p origin = .ok (some node) →
      ∃ v names, r.view? origin = some v ∧ r.store.children p origin = .ok names ∧
        (∀ n, n ∈ names ↔ ∃ found, r.store.node? (p.child n) origin = .ok (some found)) ∧
        (names.Pairwise fun n m => compare (Bytes.ofString n.text) (Bytes.ofString m.text) = .lt) ∧
        names.map Name.text = namesBelow p.text (v.nodes.keys.map Path.text) := by
  refine ⟨compareBytes_text, fun _ _ _ => inOrder, exists_subtreeRun, fun r p origin node h => ?_⟩
  obtain ⟨v, names, hv, rfl, hchildren, hmem⟩ := children_of_node? h
  exact ⟨v, _, hv, hchildren, hmem, names_ascending_bytes hchildren, (namesBelow_keys v.nodes p).symm⟩

namespace ListedApart

def draft : Draft :=
  Draft.empty.applyAll [.directory "A/x/+", .directory "A+", .directory "A-1", .directory "A/-b"]

def repository : Repository := Repository.empty.runAll [.commit draft]

def a : Path := Path.root.child ⟨"A", Eq.refl true⟩

def b : Name := ⟨"-b", Eq.refl true⟩

def x : Name := ⟨"x", Eq.refl true⟩

theorem node?_a : ∃ node, repository.store.node? a (.revision 1) = .ok (some node) := ⟨_, rfl⟩

end ListedApart

open ListedApart WrittenPath in
theorem paths_in_order_apart :
    (compareBytes "A" "A-1" = .lt ∧ isAtOrBelow "A-1" "A" = false ∧ isAtOrBelow "A/x" "A" = true ∧
      compareBytes "A/x" "A-1" = .lt) ∧
    ∃ names, repository.store.children a (.revision 1) = .ok names ∧ names = [b, x] ∧
      ∀ n, n ∈ names ↔ ∃ found, repository.store.node? (a.child n) (.revision 1) = .ok (some found) := by
  obtain ⟨-, horder, -, hlisted⟩ := paths_in_order
  obtain ⟨node, hnode⟩ := node?_a
  obtain ⟨v, names, hv, hchildren, hmem, -, hbelow⟩ := hlisted repository a (.revision 1) node hnode
  have hfirst : compareBytes "A" "A-1" = .lt ∧ isAtOrBelow "A-1" "A" = false ∧
      isAtOrBelow "A/x" "A" = true := by decide
  refine ⟨⟨hfirst.1, hfirst.2.1, hfirst.2.2, ?_⟩, names, hchildren, ?_, hmem⟩
  · exact (horder "A" "A-1" "A/x" (by decide) (by decide) (by decide)).beyond hfirst.1 hfirst.2.1 hfirst.2.2
  · have hcomputed : repository.store.children a (.revision 1) = .ok [b, x] := rfl
    exact Except.ok.inj (hchildren.symm.trans hcomputed)

end TreeDelta
