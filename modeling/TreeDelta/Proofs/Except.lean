import Mathlib.Data.List.Forall2
set_option autoImplicit false

namespace TreeDelta

variable {ε α β : Type}

theorem bind_eq_ok_iff {x : Except ε α} {f : α → Except ε β} {b : β} :
    (x >>= f) = .ok b ↔ ∃ a, x = .ok a ∧ f a = .ok b := by
  cases x with
  | error e => simp [bind, Except.bind]
  | ok a => simp [bind, Except.bind]

theorem bind_eq_error_iff {x : Except ε α} {f : α → Except ε β} {e : ε} :
    (x >>= f) = .error e ↔ x = .error e ∨ ∃ a, x = .ok a ∧ f a = .error e := by
  cases x with
  | error e => simp [bind, Except.bind]
  | ok a => simp [bind, Except.bind]

theorem toOption_eq_some_iff {x : Except ε α} {a : α} : x.toOption = some a ↔ x = .ok a := by
  cases x with
  | error e => simp [Except.toOption]
  | ok b => simp [Except.toOption]

theorem forM_eq_ok_iff {f : α → Except ε Unit} {l : List α} :
    l.forM f = .ok () ↔ ∀ a ∈ l, f a = .ok () := by
  induction l with
  | nil => simp [pure, Except.pure]
  | cons a l ih =>
    rw [List.forM_eq_forM, List.forM_cons, bind_eq_ok_iff, List.forall_mem_cons]
    exact ⟨fun ⟨_, ha, hl⟩ => ⟨ha, ih.1 hl⟩, fun ⟨ha, hl⟩ => ⟨(), ha, ih.2 hl⟩⟩

theorem forM_eq_error_iff {f : α → Except ε Unit} {l : List α} {e : ε} :
    l.forM f = .error e ↔
      ∃ before a after, l = before ++ a :: after ∧ (∀ b ∈ before, f b = .ok ()) ∧ f a = .error e := by
  constructor
  · intro h
    induction l with
    | nil => cases h
    | cons a l ih =>
      rw [List.forM_eq_forM, List.forM_cons, bind_eq_error_iff] at h
      rcases h with h | ⟨_, ha, h⟩
      · exact ⟨[], a, l, rfl, by simp, h⟩
      · obtain ⟨before, b, after, rfl, hbefore, hb⟩ := ih h
        exact ⟨a :: before, b, after, rfl, List.forall_mem_cons.2 ⟨ha, hbefore⟩, hb⟩
  · rintro ⟨before, a, after, rfl, hbefore, ha⟩
    have hall := forM_eq_ok_iff.2 hbefore
    rw [List.forM_eq_forM] at hall ⊢
    rw [List.forM_append, hall, List.forM_cons, ha]
    rfl

theorem foldlM_keeps {P : β → Prop} {f : β → α → Except ε β} (l : List α) {b b' : β}
    (hstep : ∀ a ∈ l, ∀ x y, P x → f x a = .ok y → P y) (hb : P b) (h : l.foldlM f b = .ok b') :
    P b' := by
  induction l generalizing b with
  | nil =>
    cases h
    exact hb
  | cons a l ih =>
    rw [List.foldlM_cons] at h
    obtain ⟨c, hc, h⟩ := bind_eq_ok_iff.1 h
    have hPc := hstep a List.mem_cons_self b c hb hc
    exact ih (fun d hd => hstep d (List.mem_cons_of_mem _ hd)) hPc h

/-- The same for what is said of the elements that are still to come. -/
theorem foldlM_keeps_rest {P : List α → β → Prop} {f : β → α → Except ε β} {l : List α} {b b' : β}
    (hstep : ∀ a l x y, P (a :: l) x → f x a = .ok y → P l y) (hb : P l b)
    (h : l.foldlM f b = .ok b') : P [] b' := by
  induction l generalizing b with
  | nil =>
    cases h
    exact hb
  | cons a l ih =>
    rw [List.foldlM_cons] at h
    obtain ⟨c, hc, h⟩ := bind_eq_ok_iff.1 h
    exact ih (hstep a l b c hb hc) h

theorem mapM_eq_ok {γ : Type} {f : α → Except ε β} {g : α → γ} {g' : β → γ} (l : List α)
    (h : ∀ a ∈ l, ∃ b, f a = .ok b ∧ g' b = g a) :
    ∃ bs, l.mapM f = .ok bs ∧ bs.map g' = l.map g := by
  induction l with
  | nil => exact ⟨[], rfl, rfl⟩
  | cons a l ih =>
    obtain ⟨b, hb, hmark⟩ := h a List.mem_cons_self
    obtain ⟨bs, hbs, hmarks⟩ := ih fun c hc => h c (List.mem_cons_of_mem _ hc)
    refine ⟨b :: bs, ?_, ?_⟩
    · rw [List.mapM_cons]
      exact bind_eq_ok_iff.2 ⟨b, hb, bind_eq_ok_iff.2 ⟨bs, hbs, rfl⟩⟩
    · rw [List.map_cons, List.map_cons, hmark, hmarks]

theorem mapM_eq_ok_iff {f : α → Except ε β} {l : List α} {bs : List β} :
    l.mapM f = .ok bs ↔ List.Forall₂ (fun a b => f a = .ok b) l bs := by
  induction l generalizing bs with
  | nil =>
    rw [List.forall₂_nil_left_iff, List.mapM_nil]
    exact ⟨fun h => (Except.ok.inj h).symm, fun h => h ▸ rfl⟩
  | cons a l ih =>
    rw [List.mapM_cons, bind_eq_ok_iff, List.forall₂_cons_left_iff]
    refine exists_congr fun b => ?_
    rw [bind_eq_ok_iff]
    constructor
    · rintro ⟨hb, bs, hbs, h⟩
      cases h
      exact ⟨bs, hb, ih.1 hbs, rfl⟩
    · rintro ⟨bs, hb, hbs, rfl⟩
      exact ⟨hb, bs, ih.2 hbs, rfl⟩

theorem exists_of_mapM_eq_error {f : α → Except ε β} {l : List α} {e : ε} (h : l.mapM f = .error e) :
    ∃ before a after bs, l = before ++ a :: after ∧
      List.Forall₂ (fun a b => f a = .ok b) before bs ∧ f a = .error e := by
  induction l with
  | nil => cases h
  | cons a l ih =>
    rw [List.mapM_cons, bind_eq_error_iff] at h
    rcases h with h | ⟨b, hb, h⟩
    · exact ⟨[], a, l, [], rfl, .nil, h⟩
    · rcases bind_eq_error_iff.1 h with h | ⟨_, _, h⟩
      · obtain ⟨before, c, after, bs, rfl, hbefore, hc⟩ := ih h
        exact ⟨a :: before, c, after, b :: bs, rfl, .cons hb hbefore, hc⟩
      · cases h

theorem exists_mem_of_mapM_eq_ok {f : α → Except ε β} {l : List α} {bs : List β} (h : l.mapM f = .ok bs)
    {b : β} (hb : b ∈ bs) : ∃ a ∈ l, f a = .ok b := by
  induction mapM_eq_ok_iff.1 h with
  | nil => cases hb
  | cons hfirst hrest ih =>
    rcases List.mem_cons.1 hb with rfl | hb
    · exact ⟨_, List.mem_cons_self, hfirst⟩
    · obtain ⟨a, ha, hfa⟩ := ih (mapM_eq_ok_iff.2 hrest) hb
      exact ⟨a, List.mem_cons_of_mem _ ha, hfa⟩

theorem foldlM_reaches {P : β → Prop} {Q : α → β → Prop} {f : β → α → Except ε β} (l : List α) {b : β}
    (hstep : ∀ a ∈ l, ∀ x, P x → ∃ y, f x a = .ok y ∧ P y ∧ Q a y ∧ ∀ c, Q c x → Q c y) (hb : P b) :
    ∃ b', l.foldlM f b = .ok b' ∧ P b' ∧ (∀ a ∈ l, Q a b') ∧ ∀ c, Q c b → Q c b' := by
  induction l generalizing b with
  | nil => exact ⟨b, rfl, hb, by simp, fun _ h => h⟩
  | cons a l ih =>
    obtain ⟨x, hx, hPx, hQx, hkeep⟩ := hstep a List.mem_cons_self b hb
    obtain ⟨y, hy, hPy, hall, hkeep'⟩ := ih (fun d hd => hstep d (List.mem_cons_of_mem _ hd)) hPx
    refine ⟨y, ?_, hPy, ?_, fun c hc => hkeep' c (hkeep c hc)⟩
    · rw [List.foldlM_cons]
      exact bind_eq_ok_iff.2 ⟨x, hx, hy⟩
    · intro d hd
      rcases List.mem_cons.1 hd with rfl | hd
      · exact hkeep' d hQx
      · exact hall d hd

end TreeDelta
