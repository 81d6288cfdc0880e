import Mathlib.Data.List.Sort
import TreeDelta.OrderedMap
set_option autoImplicit false

namespace TreeDelta.OrderedMap

universe u v w
variable {κ : Type u} {ν : Type v} {μ : Type w} [Ord κ]

theorem contains_iff {m : OrderedMap κ ν} {k : κ} : m.contains k = true ↔ ∃ x, m.get? k = some x :=
  Option.isSome_iff_exists

theorem get?_eq_none_iff {m : OrderedMap κ ν} {k : κ} : m.get? k = none ↔ ¬ m.contains k = true := by
  simp [contains]

theorem contains_eq_of_rel {R : ν → μ → Prop} {m : OrderedMap κ ν} {m' : OrderedMap κ μ} {k k' : κ}
    (h : Option.Rel R (m.get? k) (m'.get? k')) : m'.contains k' = m.contains k := by
  rw [contains, contains]
  generalize m.get? k = a, m'.get? k' = b at h
  cases h with
  | none => rfl
  | some _ => rfl

theorem keys_ascending (m : OrderedMap κ ν) : m.keys.Pairwise fun a b => compare a b = .lt :=
  List.pairwise_map.2 m.ascending

theorem keys_map (m : OrderedMap κ ν) (f : κ → ν → μ) : (m.map f).keys = m.keys := by
  rw [keys, map, List.map_map]
  rfl

theorem keys_nodup [Std.LawfulEqOrd κ] (m : OrderedMap κ ν) : m.keys.Nodup := by
  refine m.keys_ascending.imp fun {a b} hlt heq => ?_
  subst heq
  simp at hlt

def All (m : OrderedMap κ ν) (P : κ → ν → Prop) : Prop := ∀ k x, m.get? k = some x → P k x

theorem all_empty {P : κ → ν → Prop} : (empty : OrderedMap κ ν).All P := by
  intro k x h
  cases h

theorem All.mono {m : OrderedMap κ ν} {P Q : κ → ν → Prop} (h : m.All P)
    (hPQ : ∀ k x, P k x → Q k x) : m.All Q :=
  fun k x hx => hPQ k x (h k x hx)

section LawfulOrder

variable [Std.TransOrd κ] [Std.LawfulEqOrd κ]

theorem get?_insert_ne (m : OrderedMap κ ν) {k k' : κ} (x : ν) (h : k' ≠ k) :
    (m.insert k x).get? k' = m.get? k' := by
  rw [get?_insert, if_neg fun hc => h (Std.LawfulEqCmp.eq_of_compare hc)]

@[simp] theorem get?_erase_self (m : OrderedMap κ ν) (k : κ) : (m.erase k).get? k = none := by
  rw [erase, get?_filter]
  simp

theorem get?_erase_ne (m : OrderedMap κ ν) {k k' : κ} (h : k' ≠ k) :
    (m.erase k).get? k' = m.get? k' := by
  rw [erase, get?_filter]
  cases m.get? k' <;> simp [h]

theorem contains_map (f : κ → ν → μ) (m : OrderedMap κ ν) (k : κ) :
    (m.map f).contains k = m.contains k := by
  rw [contains, contains, get?_map, Option.isSome_map]

theorem contains_insert_iff {m : OrderedMap κ ν} {k k' : κ} {x : ν} :
    (m.insert k x).contains k' = true ↔ k' = k ∨ m.contains k' = true := by
  by_cases h : k' = k
  · subst h
    simp [contains]
  · simp [contains, get?_insert_ne m x h, h]

theorem contains_insertMany_iff {m : OrderedMap κ ν} {l : List (κ × ν)} {k : κ} :
    (m.insertMany l).contains k = true ↔ k ∈ l.map Prod.fst ∨ m.contains k = true := by
  unfold insertMany
  induction l generalizing m with
  | nil => simp
  | cons e l ih =>
    rw [List.foldl_cons, ih, contains_insert_iff, List.map_cons, List.mem_cons, or_left_comm, or_assoc]

theorem get?_insertMany_of_not_mem {m : OrderedMap κ ν} {l : List (κ × ν)} {k : κ}
    (h : k ∉ l.map Prod.fst) : (m.insertMany l).get? k = m.get? k := by
  unfold insertMany
  induction l generalizing m with
  | nil => rfl
  | cons e l ih =>
    rw [List.map_cons, List.mem_cons, not_or] at h
    rw [List.foldl_cons, ih h.2, get?_insert_ne m e.2 h.1]

/-- Where all entries of a key agree, the order in which they are put makes no difference. -/
theorem get?_insertMany_of_mem {m : OrderedMap κ ν} {l : List (κ × ν)} {k : κ} {x : ν}
    (hx : (k, x) ∈ l) (hsame : ∀ y, (k, y) ∈ l → y = x) : (m.insertMany l).get? k = some x := by
  induction l generalizing m with
  | nil => cases hx
  | cons e l ih =>
    change ((m.insert e.1 e.2).insertMany l).get? k = some x
    by_cases hk : k ∈ l.map Prod.fst
    · obtain ⟨⟨k', y⟩, hy, rfl⟩ := List.mem_map.1 hk
      have hyx : y = x := hsame y (List.mem_cons_of_mem _ hy)
      subst hyx
      exact ih hy fun z hz => hsame z (List.mem_cons_of_mem _ hz)
    · have he : (k, x) = e := by
        rcases List.mem_cons.1 hx with h | h
        · exact h
        · exact absurd (List.mem_map.2 ⟨(k, x), h, rfl⟩) hk
      rw [get?_insertMany_of_not_mem hk, ← he, get?_insert_self]

theorem insert_insert (m : OrderedMap κ ν) (k : κ) (x y : ν) :
    (m.insert k x).insert k y = m.insert k y := by
  refine ext_get? fun k' => ?_
  by_cases h : k' = k
  · rw [h, get?_insert_self, get?_insert_self]
  · rw [get?_insert_ne _ _ h, get?_insert_ne _ _ h, get?_insert_ne _ _ h]

theorem insert_of_get? {m : OrderedMap κ ν} {k : κ} {x : ν} (h : m.get? k = some x) :
    m.insert k x = m := by
  refine ext_get? fun k' => ?_
  by_cases hk : k' = k
  · rw [hk, get?_insert_self, h]
  · rw [get?_insert_ne m x hk]

theorem mem_keys_iff {m : OrderedMap κ ν} {k : κ} : k ∈ m.keys ↔ m.contains k = true := by
  rw [contains_iff, keys, List.mem_map]
  constructor
  · rintro ⟨e, he, rfl⟩
    exact ⟨e.2, get?_eq_some_iff.2 he⟩
  · rintro ⟨x, hx⟩
    exact ⟨(k, x), get?_eq_some_iff.1 hx, rfl⟩

theorem get?_insertMany_entries (m m' : OrderedMap κ ν) (k : κ) :
    (m.insertMany m'.entries).get? k = (m'.get? k).or (m.get? k) := by
  cases h : m'.get? k with
  | none =>
    have hk : k ∉ m'.keys := fun hmem => get?_eq_none_iff.1 h (mem_keys_iff.1 hmem)
    rw [get?_insertMany_of_not_mem hk, Option.none_or]
  | some x =>
    refine get?_insertMany_of_mem (get?_eq_some_iff.1 h) fun y hy => ?_
    rw [get?_eq_some_iff.2 hy] at h
    exact Option.some.inj h

theorem exists_entries_eq {m : OrderedMap κ ν} {k : κ} {x : ν} (h : m.get? k = some x) :
    ∃ before after, m.entries = before ++ (k, x) :: after ∧ (∀ e ∈ before, e.1 ≠ k) ∧
      ∀ e ∈ after, e.1 ≠ k := by
  obtain ⟨before, after, hentries⟩ := List.append_of_mem (get?_eq_some_iff.1 h)
  have hkeys := m.keys_nodup
  rw [keys, hentries, List.map_append, List.map_cons, List.nodup_middle, List.nodup_cons,
    ← List.map_append] at hkeys
  refine ⟨before, after, hentries, fun e he hk => ?_, fun e he hk => ?_⟩
  · exact hkeys.1 (List.mem_map.2 ⟨e, List.mem_append_left after he, hk⟩)
  · exact hkeys.1 (List.mem_map.2 ⟨e, List.mem_append_right before he, hk⟩)

theorem unionKeys_self (m : OrderedMap κ ν) : m.unionKeys m = m.keys := by
  have hsame : (m.map fun _ _ => ()).insertMany (m.map fun _ _ => ()).entries = m.map fun _ _ => () :=
    ext_get? fun k => by rw [get?_insertMany_entries, Option.or_self]
  rw [unionKeys, hsame, keys_map]

theorem mem_unionKeys_iff {a : OrderedMap κ ν} {b : OrderedMap κ μ} {k : κ} :
    k ∈ a.unionKeys b ↔ a.contains k = true ∨ b.contains k = true := by
  have hb : k ∈ (b.map fun _ _ => ()).entries.map Prod.fst ↔ b.contains k = true := by
    change k ∈ (b.map fun _ _ => ()).keys ↔ _
    rw [mem_keys_iff, contains_map]
  rw [unionKeys, mem_keys_iff, contains_insertMany_iff, contains_map, hb]
  exact or_comm

theorem mem_unionKeys_of_ne {a b : OrderedMap κ ν} {k : κ} (h : a.get? k ≠ b.get? k) :
    k ∈ a.unionKeys b := by
  rw [mem_unionKeys_iff]
  by_contra hmissing
  rw [not_or] at hmissing
  exact h ((get?_eq_none_iff.2 hmissing.1).trans (get?_eq_none_iff.2 hmissing.2).symm)

theorem unionKeys_nodup (a : OrderedMap κ ν) (b : OrderedMap κ μ) : (a.unionKeys b).Nodup :=
  keys_nodup _

theorem unionKeys_ascending (a : OrderedMap κ ν) (b : OrderedMap κ μ) :
    (a.unionKeys b).Pairwise fun k k' => compare k k' = .lt :=
  keys_ascending _

theorem eq_of_ascending {l l' : List κ} (h : l.Pairwise fun a b => compare a b = .lt)
    (h' : l'.Pairwise fun a b => compare a b = .lt) (hmem : ∀ k, k ∈ l ↔ k ∈ l') : l = l' := by
  have : Std.Irrefl fun a b : κ => compare a b = .lt := ⟨fun a ha => by simp at ha⟩
  have : Std.Antisymm fun a b : κ => compare a b = .lt := ⟨fun a b hab hba => by
    have haa := Std.TransCmp.lt_trans hab hba
    simp at haa⟩
  exact h.eq_of_mem_iff h' hmem

theorem unionKeys_congr {a a' : OrderedMap κ ν} {b b' : OrderedMap κ μ}
    (ha : ∀ k, a'.contains k = a.contains k) (hb : ∀ k, b'.contains k = b.contains k) :
    a'.unionKeys b' = a.unionKeys b :=
  eq_of_ascending (unionKeys_ascending a' b') (unionKeys_ascending a b) fun k => by
    rw [mem_unionKeys_iff, mem_unionKeys_iff, ha, hb]

theorem unionKeys_eq_filter {a a' : OrderedMap κ ν} {b b' : OrderedMap κ μ}
    (ha : ∀ k, a'.contains k = true → a.contains k = true)
    (hb : ∀ k, b'.contains k = true → b.contains k = true) :
    a'.unionKeys b' = (a.unionKeys b).filter fun k => a'.contains k || b'.contains k :=
  eq_of_ascending (unionKeys_ascending a' b') ((unionKeys_ascending a b).filter _) fun k => by
    rw [List.mem_filter, mem_unionKeys_iff, mem_unionKeys_iff, Bool.or_eq_true]
    exact ⟨fun h => ⟨h.imp (ha k) (hb k), h⟩, And.right⟩

theorem unionKeys_comm (a : OrderedMap κ ν) (b : OrderedMap κ μ) : b.unionKeys a = a.unionKeys b :=
  eq_of_ascending (unionKeys_ascending b a) (unionKeys_ascending a b) fun k => by
    rw [mem_unionKeys_iff, mem_unionKeys_iff, or_comm]

variable {P : κ → ν → Prop} {m : OrderedMap κ ν}

theorem All.insert {k : κ} {x : ν} (h : m.All P) (hx : P k x) : (m.insert k x).All P := by
  intro k' y hy
  by_cases hk : k' = k
  · subst hk
    rw [get?_insert_self] at hy
    exact Option.some.inj hy ▸ hx
  · rw [get?_insert_ne m x hk] at hy
    exact h k' y hy

theorem All.insertMany {l : List (κ × ν)} (h : m.All P) (hl : ∀ e ∈ l, P e.1 e.2) :
    (m.insertMany l).All P := by
  unfold OrderedMap.insertMany
  induction l generalizing m with
  | nil => exact h
  | cons e l ih =>
    exact ih (h.insert (hl e List.mem_cons_self)) fun d hd => hl d (List.mem_cons_of_mem _ hd)

theorem All.insertIfNew {k : κ} {x : ν} (h : m.All P) (hx : P k x) : (m.insertIfNew k x).All P := by
  unfold OrderedMap.insertIfNew
  split
  · exact h
  · exact h.insert hx

theorem All.filter (p : κ → ν → Bool) (h : m.All P) : (m.filter p).All P := by
  intro k x hx
  rw [get?_filter, Option.filter_eq_some_iff] at hx
  exact h k x hx.1

theorem all_map_iff {f : κ → ν → μ} {Q : κ → μ → Prop} :
    (m.map f).All Q ↔ m.All fun k x => Q k (f k x) := by
  constructor
  · intro h k x hx
    exact h k (f k x) (by rw [get?_map, hx]; rfl)
  · intro h k y hy
    rw [get?_map, Option.map_eq_some_iff] at hy
    obtain ⟨x, hx, rfl⟩ := hy
    exact h k x hx

theorem map_congr {f g : κ → ν → μ} (h : m.All fun k x => f k x = g k x) : m.map f = m.map g := by
  refine ext_get? fun k => ?_
  rw [get?_map, get?_map]
  cases hx : m.get? k with
  | none => rfl
  | some x => exact congrArg some (h k x hx)

theorem get?_insertIfNew [DecidableEq κ] (m : OrderedMap κ ν) (k k' : κ) (x : ν) :
    (m.insertIfNew k x).get? k' = (m.get? k').or (if k' = k then some x else none) := by
  unfold OrderedMap.insertIfNew
  split
  · rename_i hk
    obtain ⟨y, hy⟩ := contains_iff.1 hk
    by_cases h : k' = k
    · rw [h, hy]
      rfl
    · rw [if_neg h, Option.or_none]
  · rename_i hk
    by_cases h : k' = k
    · rw [h, get?_insert_self, get?_eq_none_iff.2 hk, if_pos rfl, Option.none_or]
    · rw [get?_insert_ne m x h, if_neg h, Option.or_none]

theorem get?_insertIfNew_of_get? {k k' : κ} {x y : ν} (h : m.get? k' = some y) :
    (m.insertIfNew k x).get? k' = some y := by
  unfold OrderedMap.insertIfNew
  split
  · exact h
  · rename_i hk
    have hne : k' ≠ k := by
      rintro rfl
      exact hk (contains_iff.2 ⟨y, h⟩)
    rw [get?_insert_ne m x hne, h]

end LawfulOrder

end TreeDelta.OrderedMap
