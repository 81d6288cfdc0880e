import TreeDelta.Proofs.Alignment.Block
import TreeDelta.Proofs.Alignment.Turns
set_option autoImplicit false

namespace TreeDelta.Alignment

inductive Joined (m : Nat) : List Block → Prop
  | change {a oldLen b newLen : Nat} (hchange : oldLen ≠ 0 ∨ newLen ≠ 0) :
    Joined m [.change a oldLen b newLen]
  | cons {a oldLen b newLen i j len : Nat} {bs : List Block} (hchange : oldLen ≠ 0 ∨ newLen ≠ 0)
      (hlen : len ≠ 0) (hle : len ≤ m) (tail : Joined m bs) :
    Joined m (.change a oldLen b newLen :: .same i j len :: bs)

inductive Margin : Nat → List Block → Prop
  | none : Margin 0 []
  | kept (i j len : Nat) : Margin len [.same i j len]

/-- A group with `p` kept elements in front of its changes and `q` after them. -/
inductive Cluster (m p q : Nat) : List Block → Prop
  | mk {lead body trail : List Block} (hlead : Margin p lead) (hbody : Joined m body)
      (htrail : Margin q trail) : Cluster m p q (lead ++ (body ++ trail))

theorem Joined.concat {m : Nat} {bs : List Block} (h : Joined m bs) {i j len a oldLen b newLen : Nat}
    (hlen : len ≠ 0) (hle : len ≤ m) (hchange : oldLen ≠ 0 ∨ newLen ≠ 0) :
    Joined m (bs ++ [.same i j len, .change a oldLen b newLen]) := by
  induction h with
  | change hfirst => exact .cons hfirst hlen hle (.change hchange)
  | cons hfirst hlen' hle' _ ih => exact .cons hfirst hlen' hle' ih

theorem Joined.reverse_eq_cons {m : Nat} {bs : List Block} (h : Joined m bs) :
    ∃ a oldLen b newLen front, bs.reverse = .change a oldLen b newLen :: front := by
  induction h with
  | change => exact ⟨_, _, _, _, _, rfl⟩
  | cons _ _ _ _ ih =>
    obtain ⟨a, oldLen, b, newLen, front, hfront⟩ := ih
    exact ⟨a, oldLen, b, newLen, _, by rw [List.reverse_cons, List.reverse_cons, hfront]; rfl⟩

variable {α : Type} {old new : List α} {exact : Bool} {n : Nat}

/-- The groups from `i` and `j` on. Nothing may lie before a group only at the start of both lists,
and a group has less than `n` kept elements on a side only where both lists end there. -/
inductive Clusters (exact : Bool) (n : Nat) (old new : List α) : Nat → Nat → List (List Block) → Prop
  | done {i j len : Nat} (h : Agree old new i j len) (hi : i + len = old.length)
      (hj : j + len = new.length) : Clusters exact n old new i j []
  | group {i j len k l p q : Nat} {g : List Block} {gs : List (List Block)}
      (h : Agree old new i j len) (hgap : len = 0 → i = 0 ∧ j = 0)
      (hg : BlockTrace exact old new (i + len) (j + len) g k l) (hcluster : Cluster (2 * n) p q g)
      (hp : p ≤ n) (hstart : p < n → i + len = 0 ∧ j + len = 0)
      (hq : q ≤ n) (hend : q < n → k = old.length ∧ l = new.length)
      (tail : Clusters exact n old new k l gs) : Clusters exact n old new i j (g :: gs)

inductive Begun (exact : Bool) (n : Nat) (old new : List α) (i j k l : Nat) : List Block → Prop
  | mk {len p : Nat} {lead body : List Block} (h : Agree old new i j len) (hgap : len = 0 → i = 0 ∧ j = 0)
      (hp : p ≤ n) (hstart : p < n → i + len = 0 ∧ j + len = 0)
      (hlead : Margin p lead) (hbody : Joined (2 * n) body)
      (htrace : BlockTrace exact old new (i + len) (j + len) (lead ++ body) k l) :
    Begun exact n old new i j k l (lead ++ body)

section Read

variable {i j k l i' j' : Nat} {group trail : List Block}

theorem Begun.reverse_eq_cons (h : Begun exact n old new i j k l group) :
    ∃ a oldLen b newLen front, group.reverse = .change a oldLen b newLen :: front := by
  cases h with
  | @mk _ _ lead _ _ _ _ _ _ hbody =>
    obtain ⟨a, oldLen, b, newLen, front, hfront⟩ := hbody.reverse_eq_cons
    exact ⟨a, oldLen, b, newLen, front ++ lead.reverse, by rw [List.reverse_append, hfront]; rfl⟩

theorem Begun.close (h : Begun exact n old new i j k l group) {q : Nat} (htrail : Margin q trail)
    (htrace : BlockTrace exact old new k l trail i' j') (hq : q ≤ n)
    (hend : q < n → i' = old.length ∧ j' = new.length) {gs : List (List Block)}
    (tail : Clusters exact n old new i' j' gs) :
    Clusters exact n old new i j ((group ++ trail) :: gs) := by
  cases h with
  | mk hagree hgap hp hstart hlead hbody hgroup =>
    have hall := hgroup.append htrace
    rw [List.append_assoc] at hall ⊢
    exact .group hagree hgap hall (.mk hlead hbody htrail) hp hstart hq hend tail

theorem Begun.extend (h : Begun exact n old new i j k l group) {len a oldLen b newLen : Nat} (hlen : len ≠ 0)
    (hle : len ≤ 2 * n) (hchange : oldLen ≠ 0 ∨ newLen ≠ 0)
    (htrace : BlockTrace exact old new k l [.same k l len, .change a oldLen b newLen] i' j') :
    Begun exact n old new i j i' j' (group ++ [.same k l len, .change a oldLen b newLen]) := by
  cases h with
  | mk hagree hgap hp hstart hlead hbody hgroup =>
    have hall := hgroup.append htrace
    rw [List.append_assoc] at hall ⊢
    exact .mk hagree hgap hp hstart hlead (hbody.concat hlen hle hchange) hall

end Read

theorem blockTrace_single_same {i j len : Nat} (h : Agree old new i j len) :
    BlockTrace exact old new i j [.same i j len] (i + len) (j + len) :=
  .same h (.nil _ _)

/-- A stretch that is cut ends one group and starts the next; what lies between is
in neither. -/
theorem cutStretch_trace (exact : Bool) {n k l m : Nat} (h : Agree old new k l m) (hm : m > 2 * n) :
    BlockTrace exact old new k l [.same k l n] (k + n) (l + n) ∧
      Agree old new (k + n) (l + n) (m - n - n) ∧
      BlockTrace exact old new (k + n + (m - n - n)) (l + n + (m - n - n))
        [.same (k + (m - n)) (l + (m - n)) n] (k + m) (l + m) := by
  have hn : n ≤ m := by omega
  have hend := h.drop (Nat.sub_le m n)
  rw [show m - (m - n) = n by omega] at hend
  have hlast : BlockTrace exact old new (k + (m - n)) (l + (m - n))
      [.same (k + (m - n)) (l + (m - n)) n] (k + (m - n) + n) (l + (m - n) + n) :=
    blockTrace_single_same hend
  refine ⟨blockTrace_single_same (h.take hn), (h.drop hn).take (Nat.sub_le _ _), ?_⟩
  rw [show k + n + (m - n - n) = k + (m - n) by omega, show l + n + (m - n - n) = l + (m - n) by omega]
  rwa [show k + (m - n) + n = k + m by omega, show l + (m - n) + n = l + m by omega] at hlast

theorem BlockTrace.nil_eq {i j k l : Nat} (h : BlockTrace exact old new i j [] k l) : i = k ∧ j = l := by
  cases h
  exact ⟨rfl, rfl⟩

theorem groupFrom_nil_change (a oldLen b newLen : Nat) (pending : List Block) :
    groupFrom n (.change a oldLen b newLen :: pending) [] =
      [(.change a oldLen b newLen :: pending).reverse] := by
  cases pending <;> rfl

theorem groupFrom_last (a oldLen b newLen i j len : Nat) (pending : List Block) (hlen : len ≤ n) :
    groupFrom n (.change a oldLen b newLen :: pending) [.same i j len] =
      [(.same i j len :: .change a oldLen b newLen :: pending).reverse] := by
  rw [groupFrom, if_neg (by omega)]
  rfl

theorem groupFrom_clusters {i j k l : Nat} {group bs : List Block}
    (hbegun : Begun exact n old new i j k l group) (hturns : Turns bs)
    (hbs : BlockTrace exact old new k l bs old.length new.length) :
    Clusters exact n old new i j (groupFrom n group.reverse (trimLast n bs)) := by
  induction hturns generalizing i j k l group with
  | nil =>
    obtain ⟨a, oldLen, b, newLen, front, hfront⟩ := hbegun.reverse_eq_cons
    cases hbs
    have hgap : Agree old new old.length new.length 0 := .zero (Nat.le_refl _) (Nat.le_refl _)
    have hclosed := hbegun.close .none (.nil _ _) (Nat.zero_le n) (fun _ => ⟨rfl, rfl⟩) (.done hgap rfl rfl)
    rw [List.append_nil] at hclosed
    rwa [trimLast, hfront, groupFrom_nil_change, ← hfront, List.reverse_reverse]
  | @kept k l len hlen =>
    obtain ⟨a, oldLen, b, newLen, front, hfront⟩ := hbegun.reverse_eq_cons
    cases hbs with
    | same h tail =>
      have hends := tail.nil_eq
      have hcut : len - (len - n) ≤ n := by omega
      have hrest := h.drop (Nat.sub_le len (len - n))
      have hclosed := hbegun.close (.kept k l (len - (len - n)))
        (blockTrace_single_same (h.take (Nat.sub_le len (len - n)))) hcut (fun _ => by omega)
        (.done hrest (by omega) (by omega))
      rwa [trimLast, hfront, groupFrom_last _ _ _ _ _ _ _ _ hcut, ← hfront, List.reverse_cons,
        List.reverse_reverse]
  | @cons k l len a oldLen b newLen bs hlen hchange tail ih =>
    cases hbs with
    | same h htail =>
      cases htail with
      | change hi hj ha hb htail =>
        have hchangeTrace : BlockTrace exact old new (k + len) (l + len) [.change a oldLen b newLen]
            (k + len + oldLen) (l + len + newLen) := .change hi hj ha hb (.nil _ _)
        simp only [trimLast, groupFrom]
        -- A long stretch ends this group and starts the next one, a short one becomes part of it.
        split
        · rename_i hcut
          obtain ⟨hfirst, hgap, hlast⟩ := cutStretch_trace exact h hcut
          have hnext : Begun exact n old new (k + n) (l + n) (k + len + oldLen) (l + len + newLen)
              ([.same (k + (len - n)) (l + (len - n)) n] ++ [.change a oldLen b newLen]) :=
            .mk hgap (by omega) (Nat.le_refl n) (by omega) (.kept _ _ n) (.change hchange)
              (hlast.append hchangeTrace)
          rw [List.reverse_cons, List.reverse_reverse]
          exact hbegun.close (.kept k l n) hfirst (Nat.le_refl n) (by omega) (ih hnext htail)
        · rename_i hcut
          have hmore := hbegun.extend hlen (by omega) hchange (.same h hchangeTrace)
          have hall := ih hmore htail
          rwa [List.reverse_append] at hall

theorem groups_clusters {bs : List Block} (hturns : InTurn bs)
    (hbs : BlockTrace exact old new 0 0 bs old.length new.length) :
    Clusters exact n old new 0 0 (groups n bs) := by
  have hstart : Agree old new 0 0 0 := .zero (Nat.zero_le _) (Nat.zero_le _)
  cases hturns with
  | turns hturns =>
    cases hturns with
    | nil => exact .done hstart hbs.nil_eq.1 hbs.nil_eq.2
    | @kept _ _ len =>
      cases hbs with
      | same h tail =>
        have hgroups : groups n [.same 0 0 len] = [] := by
          rw [groups, trimFirst, trimLast, groupFrom, if_neg (by omega)]
          rfl
        exact hgroups ▸ .done h tail.nil_eq.1 tail.nil_eq.2
    | @cons _ _ len a oldLen b newLen bs hlen hchange tail =>
      cases hbs with
      | same h htail =>
        cases htail with
        | change hi hj ha hb htail =>
          have hsub : len - n ≤ len := Nat.sub_le len n
          have hlead : BlockTrace exact old new (0 + (len - n)) (0 + (len - n))
              [.same (0 + (len - n)) (0 + (len - n)) (len - (len - n))]
              (0 + (len - n) + (len - (len - n))) (0 + (len - n) + (len - (len - n))) :=
            blockTrace_single_same (h.drop hsub)
          rw [Nat.add_assoc, Nat.add_sub_cancel' hsub] at hlead
          have hbegun : Begun exact n old new 0 0 _ _
              ([.same (0 + (len - n)) (0 + (len - n)) (len - (len - n))] ++ [.change a oldLen b newLen]) :=
            .mk (h.take hsub) (fun _ => ⟨rfl, rfl⟩) (by omega) (by omega) (.kept _ _ _) (.change hchange)
              (hlead.append (.change hi hj ha hb (.nil _ _)))
          simp only [groups, trimFirst, trimLast, groupFrom]
          rw [if_neg (by omega)]
          exact groupFrom_clusters hbegun tail htail
  | @change a oldLen b newLen bs hchange tail =>
    cases hbs with
    | change hi hj ha hb htail =>
      have hbegun : Begun exact n old new 0 0 _ _ ([] ++ [.change a oldLen b newLen]) :=
        .mk hstart (fun _ => ⟨rfl, rfl⟩) (Nat.zero_le n) (fun _ => ⟨rfl, rfl⟩) .none (.change hchange)
          (.change hi hj ha hb (.nil _ _))
      exact groupFrom_clusters hbegun tail htail

def Block.IsKept : Block → Prop
  | .same .. => True
  | .change .. => False

theorem BlockTrace.head_placed {i j k l : Nat} {b : Block} {bs : List Block}
    (h : BlockTrace exact old new i j (b :: bs) k l) (hplaced : exact = true ∨ b.IsKept) :
    b.old = i ∧ b.new = j := by
  cases h with
  | same => exact ⟨rfl, rfl⟩
  | change _ _ ha hb =>
    have hexact := hplaced.resolve_right id
    exact ⟨ha (.inl hexact), hb (.inl hexact)⟩

theorem BlockTrace.getLast_placed {i j k l : Nat} {b : Block} {bs : List Block}
    (h : BlockTrace exact old new i j bs k l) (hlast : bs.getLast? = some b)
    (hplaced : exact = true ∨ b.IsKept) : b.oldEnd = k ∧ b.newEnd = l := by
  obtain ⟨front, rfl⟩ := List.getLast?_eq_some_iff.mp hlast
  obtain ⟨i', j', -, hb⟩ := blockTrace_append_iff.mp h
  have hstart := hb.head_placed hplaced
  cases hb with
  | same _ tail =>
    cases tail
    exact ⟨rfl, rfl⟩
  | change _ _ _ _ tail =>
    cases tail
    exact ⟨congrArg (· + _) hstart.1, congrArg (· + _) hstart.2⟩

theorem Cluster.ends {m p q : Nat} {g : List Block} (h : Cluster m p q g) :
    ∃ first bs last, g = first :: bs ∧ g.getLast? = some last ∧ (p ≠ 0 → first.IsKept) ∧
      (q ≠ 0 → last.IsKept) := by
  cases h with
  | @mk lead body trail hlead hbody htrail =>
    obtain ⟨first, bs, hfirst, hp⟩ : ∃ first bs, lead ++ (body ++ trail) = first :: bs ∧
        (p ≠ 0 → first.IsKept) := by
      cases hlead with
      | none => cases hbody <;> exact ⟨_, _, rfl, fun hp => absurd rfl hp⟩
      | kept i j => exact ⟨.same i j p, _, rfl, fun _ => trivial⟩
    obtain ⟨last, hlast, hq⟩ : ∃ last, (lead ++ (body ++ trail)).getLast? = some last ∧
        (q ≠ 0 → last.IsKept) := by
      cases htrail with
      | none =>
        obtain ⟨_, _, _, _, _, hreverse⟩ := hbody.reverse_eq_cons
        rw [List.reverse_eq_cons_iff] at hreverse
        exact ⟨_, by rw [hreverse, List.append_nil, ← List.append_assoc, List.getLast?_concat],
          fun hq => absurd rfl hq⟩
      | kept i j =>
        exact ⟨.same i j q, by rw [← List.append_assoc, List.getLast?_concat], fun _ => trivial⟩
    exact ⟨first, bs, last, hfirst, hlast, hp, hq⟩

end TreeDelta.Alignment
