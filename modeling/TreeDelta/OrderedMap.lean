set_option autoImplicit false

/-!
# Finite maps in key order

`OrderedMap κ ν` is a list of entries with strictly ascending keys. The list is
canonical: two maps with the same look-ups are the same map (`ext_get?`), so
comparing maps compares what they hold.
-/
namespace TreeDelta

universe u v w

/-- Entries with strictly ascending keys. -/
structure OrderedMap (κ : Type u) (ν : Type v) [Ord κ] where
  entries : List (κ × ν)
  ascending : entries.Pairwise (fun a b => compare a.1 b.1 = .lt)
deriving DecidableEq

namespace OrderedMap

variable {κ : Type u} {ν : Type v} {μ : Type w} [Ord κ]

def insertEntry (k : κ) (x : ν) : List (κ × ν) → List (κ × ν)
  | [] => [(k, x)]
  | e :: rest =>
    match compare k e.1 with
    | .lt => (k, x) :: e :: rest
    | .eq => (k, x) :: rest
    | .gt => e :: insertEntry k x rest

def findEntry (k : κ) : List (κ × ν) → Option ν
  | [] => none
  | e :: rest => if compare k e.1 = .eq then some e.2 else findEntry k rest

theorem mem_insertEntry {k : κ} {x : ν} {e : κ × ν} {l : List (κ × ν)}
    (h : e ∈ insertEntry k x l) : e = (k, x) ∨ e ∈ l := by
  induction l with
  | nil => simpa [insertEntry] using h
  | cons d rest ih =>
    rw [insertEntry] at h
    split at h
    · simpa using h
    · rcases List.mem_cons.1 h with h | h <;> simp [h]
    · rcases List.mem_cons.1 h with h | h
      · simp [h]
      · rcases ih h with h | h <;> simp [h]

theorem pairwise_insertEntry [Std.TransOrd κ] [Std.LawfulEqOrd κ] (k : κ) (x : ν)
    {l : List (κ × ν)} (h : l.Pairwise (fun a b => compare a.1 b.1 = .lt)) :
    (insertEntry k x l).Pairwise (fun a b => compare a.1 b.1 = .lt) := by
  induction l with
  | nil => simp [insertEntry]
  | cons d rest ih =>
    have hd := List.pairwise_cons.1 h
    rw [insertEntry]
    split
    case h_1 hc =>
      refine List.pairwise_cons.2 ⟨fun e he => ?_, h⟩
      rcases List.mem_cons.1 he with rfl | he
      · exact hc
      · exact Std.TransCmp.lt_trans hc (hd.1 e he)
    case h_2 hc =>
      have hk : k = d.1 := Std.LawfulEqCmp.eq_of_compare hc
      exact List.pairwise_cons.2 ⟨fun e he => hk ▸ hd.1 e he, hd.2⟩
    case h_3 hc =>
      refine List.pairwise_cons.2 ⟨fun e he => ?_, ih hd.2⟩
      rcases mem_insertEntry he with rfl | he
      · exact Std.OrientedCmp.lt_of_gt hc
      · exact hd.1 e he

theorem findEntry_insertEntry [Std.TransOrd κ] [Std.LawfulEqOrd κ] (k k' : κ) (x : ν)
    (l : List (κ × ν)) :
    findEntry k' (insertEntry k x l) =
      if compare k' k = .eq then some x else findEntry k' l := by
  induction l with
  | nil => simp [insertEntry, findEntry]
  | cons d rest ih =>
    rw [insertEntry]
    split
    case h_1 => rfl
    case h_2 hc =>
      have hk : k = d.1 := Std.LawfulEqCmp.eq_of_compare hc
      subst hk
      by_cases h : compare k' d.1 = .eq <;> simp [findEntry, h]
    case h_3 hc =>
      by_cases h : compare k' k = .eq
      · have hk : k' = k := Std.LawfulEqCmp.eq_of_compare h
        subst hk
        simp [findEntry, hc, ih]
      · simp [findEntry, ih, h]

theorem findEntry_eq_some_iff [Std.TransOrd κ] [Std.LawfulEqOrd κ] {k : κ} {x : ν}
    {l : List (κ × ν)} (h : l.Pairwise (fun a b => compare a.1 b.1 = .lt)) :
    findEntry k l = some x ↔ (k, x) ∈ l := by
  induction l with
  | nil => simp [findEntry]
  | cons d rest ih =>
    have hd := List.pairwise_cons.1 h
    by_cases hk : compare k d.1 = .eq
    · have hkd : k = d.1 := Std.LawfulEqCmp.eq_of_compare hk
      subst hkd
      simp only [findEntry, hk, if_true, Option.some.injEq, List.mem_cons]
      constructor
      · rintro rfl
        exact .inl rfl
      · rintro (h | h)
        · exact congrArg Prod.snd h.symm
        · have := hd.1 _ h
          simp at this
    · simp only [findEntry, hk, if_false, ih hd.2, List.mem_cons]
      constructor
      · exact .inr
      · rintro (h | h)
        · subst h
          simp at hk
        · exact h

def empty : OrderedMap κ ν := ⟨[], List.Pairwise.nil⟩

instance : Inhabited (OrderedMap κ ν) := ⟨empty⟩

def get? (m : OrderedMap κ ν) (k : κ) : Option ν := findEntry k m.entries

def contains (m : OrderedMap κ ν) (k : κ) : Bool := (m.get? k).isSome

def keys (m : OrderedMap κ ν) : List κ := m.entries.map Prod.fst

def isEmpty (m : OrderedMap κ ν) : Bool := m.entries.isEmpty

def filter (p : κ → ν → Bool) (m : OrderedMap κ ν) : OrderedMap κ ν :=
  ⟨m.entries.filter fun e => p e.1 e.2, m.ascending.filter _⟩

def map (f : κ → ν → μ) (m : OrderedMap κ ν) : OrderedMap κ μ :=
  ⟨m.entries.map fun e => (e.1, f e.1 e.2), List.Pairwise.map _ (fun _ _ h => h) m.ascending⟩

@[simp] theorem get?_empty (k : κ) : (empty : OrderedMap κ ν).get? k = none := rfl

section Insertion

variable [Std.TransOrd κ] [Std.LawfulEqOrd κ]

def insert (m : OrderedMap κ ν) (k : κ) (x : ν) : OrderedMap κ ν :=
  ⟨insertEntry k x m.entries, pairwise_insertEntry k x m.ascending⟩

def erase (m : OrderedMap κ ν) (k : κ) : OrderedMap κ ν :=
  m.filter fun k' _ => compare k' k ≠ .eq

def insertIfNew (m : OrderedMap κ ν) (k : κ) (x : ν) : OrderedMap κ ν :=
  if m.contains k then m else m.insert k x

/-- Inserts the entries from left to right, so the last entry of a key wins. -/
def insertMany (m : OrderedMap κ ν) (l : List (κ × ν)) : OrderedMap κ ν :=
  l.foldl (fun m e => m.insert e.1 e.2) m

def ofList (l : List (κ × ν)) : OrderedMap κ ν := empty.insertMany l

def unionKeys (a : OrderedMap κ ν) (b : OrderedMap κ μ) : List κ :=
  ((a.map fun _ _ => ()).insertMany (b.map fun _ _ => ()).entries).keys

theorem get?_insert (m : OrderedMap κ ν) (k k' : κ) (x : ν) :
    (m.insert k x).get? k' = if compare k' k = .eq then some x else m.get? k' :=
  findEntry_insertEntry k k' x m.entries

@[simp] theorem get?_insert_self (m : OrderedMap κ ν) (k : κ) (x : ν) :
    (m.insert k x).get? k = some x := by
  simp [get?_insert]

theorem get?_eq_some_iff {m : OrderedMap κ ν} {k : κ} {x : ν} :
    m.get? k = some x ↔ (k, x) ∈ m.entries :=
  findEntry_eq_some_iff m.ascending

theorem get?_filter (p : κ → ν → Bool) (m : OrderedMap κ ν) (k : κ) :
    (m.filter p).get? k = (m.get? k).filter (p k) := by
  ext x
  rw [get?_eq_some_iff, Option.filter_eq_some_iff, get?_eq_some_iff]
  simp [filter]

theorem get?_map (f : κ → ν → μ) (m : OrderedMap κ ν) (k : κ) :
    (m.map f).get? k = (m.get? k).map (f k) := by
  ext y
  rw [get?_eq_some_iff, Option.map_eq_some_iff]
  constructor
  · intro h
    obtain ⟨e, he, heq⟩ := List.mem_map.1 h
    cases heq
    exact ⟨e.2, get?_eq_some_iff.2 he, rfl⟩
  · rintro ⟨x, hx, rfl⟩
    exact List.mem_map.2 ⟨(k, x), get?_eq_some_iff.1 hx, rfl⟩

theorem ext_get? {a b : OrderedMap κ ν} (h : ∀ k, a.get? k = b.get? k) : a = b := by
  have hmem : ∀ e, e ∈ a.entries ↔ e ∈ b.entries := fun e => by
    rw [← get?_eq_some_iff (k := e.1), ← get?_eq_some_iff (k := e.1), h]
  obtain ⟨l, hl⟩ := a
  obtain ⟨r, hr⟩ := b
  congr
  simp only at hmem
  clear h
  induction l generalizing r with
  | nil =>
    cases r with
    | nil => rfl
    | cons d rest => simpa using (hmem d).2 (by simp)
  | cons c l ih =>
    cases r with
    | nil => simpa using (hmem c).1 (by simp)
    | cons d r =>
      have hc := List.pairwise_cons.1 hl
      have hd := List.pairwise_cons.1 hr
      have hcd : c = d := by
        rcases List.mem_cons.1 ((hmem c).1 (by simp)) with h | h
        · exact h
        · rcases List.mem_cons.1 ((hmem d).2 (by simp)) with h' | h'
          · exact h'.symm
          · have := Std.TransCmp.lt_trans (hd.1 c h) (hc.1 d h')
            simp at this
      subst hcd
      refine congrArg (c :: ·) (ih hc.2 r hd.2 fun e => ?_)
      constructor
      · intro he
        rcases List.mem_cons.1 ((hmem e).1 (by simp [he])) with h | h
        · subst h
          have := hc.1 _ he
          simp at this
        · exact h
      · intro he
        rcases List.mem_cons.1 ((hmem e).2 (by simp [he])) with h | h
        · subst h
          have := hd.1 _ he
          simp at this
        · exact h

end Insertion

end OrderedMap

end TreeDelta
