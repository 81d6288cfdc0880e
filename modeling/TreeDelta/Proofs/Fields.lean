import TreeDelta.Text.Fields
set_option autoImplicit false

namespace TreeDelta.Text

variable {sep : Char}

theorem splitAll_eq_splitOn (sep : Char) (cs : List Char) : splitAll sep cs = cs.splitOn sep := by
  induction cs with
  | nil => rfl
  | cons c cs ih =>
    rw [splitAll, List.splitOn_cons_eq_if_modifyHead, ih]
    by_cases h : c = sep
    · simp [h]
    · rw [if_neg h, if_neg (by simpa using h)]
      cases hcs : cs.splitOn sep with
      | nil => exact absurd hcs (List.splitOn_ne_nil sep cs)
      | cons f fs => rfl

theorem fields_ne_nil (sep : Char) (s : String) : fields sep s ≠ [] := by
  rw [fields, splitAll_eq_splitOn]
  simp [List.splitOn_ne_nil]

theorem not_mem_of_mem_splitAll {cs f : List Char} (hf : f ∈ splitAll sep cs) : sep ∉ f := by
  induction cs generalizing f with
  | nil => simp_all [splitAll]
  | cons c cs ih =>
    rw [splitAll] at hf
    split at hf
    · rcases List.mem_cons.1 hf with rfl | hf
      · exact List.not_mem_nil
      · exact ih hf
    · rename_i hc
      split at hf
      · rw [List.mem_singleton.1 hf]
        exact List.not_mem_cons_of_ne_of_not_mem (Ne.symm hc) List.not_mem_nil
      · rename_i g gs hg
        rw [hg] at ih
        rcases List.mem_cons.1 hf with rfl | hf
        · exact List.not_mem_cons_of_ne_of_not_mem (Ne.symm hc) (ih List.mem_cons_self)
        · exact ih (List.mem_cons_of_mem g hf)

theorem not_mem_of_mem_fields {s part : String} (h : part ∈ fields sep s) : sep ∉ part.toList := by
  obtain ⟨f, hf, rfl⟩ := List.mem_map.1 h
  rw [String.toList_ofList]
  exact not_mem_of_mem_splitAll hf

theorem intercalate_fields (sep : Char) (s : String) : (String.singleton sep).intercalate (fields sep s) = s := by
  rw [← String.toList_inj, String.toList_intercalate, fields, List.map_map, String.toList_singleton]
  simpa [Function.comp_def] using intercalate_splitAll sep s.toList

theorem fields_append (s t : String) :
    fields '/' (s ++ "/" ++ t) = fields '/' s ++ fields '/' t := by
  have hchars : (s ++ "/" ++ t).toList = s.toList ++ '/' :: t.toList := by simp
  rw [fields, hchars, splitAll_eq_splitOn, List.splitOn_append_cons_self, List.map_append, fields, fields,
    splitAll_eq_splitOn, splitAll_eq_splitOn]

theorem length_slash (s t : String) : (s ++ "/" ++ t).length = s.length + 1 + t.length := by
  rw [String.length_append, String.length_append]
  rfl

theorem fields_intercalate {parts : List String} (hne : parts ≠ []) (h : ∀ part ∈ parts, sep ∉ part.toList) :
    fields sep ((String.singleton sep).intercalate parts) = parts := by
  have hchars : ((String.singleton sep).intercalate parts).toList = [sep].intercalate (parts.map String.toList) := by
    rw [String.toList_intercalate, String.toList_singleton]
  rw [fields, hchars, splitAll_eq_splitOn,
    List.splitOn_intercalate sep (List.forall_mem_map.2 h) (mt List.map_eq_nil_iff.1 hne)]
  simp

theorem not_mem_intercalate {c : Char} {s : String} {parts : List String} (hs : c ∉ s.toList)
    (h : ∀ part ∈ parts, c ∉ part.toList) : c ∉ (s.intercalate parts).toList := by
  induction parts with
  | nil => simp
  | cons part parts ih =>
    obtain ⟨hpart, hparts⟩ := List.forall_mem_cons.1 h
    by_cases hnil : parts = []
    · subst hnil
      rwa [String.intercalate_singleton]
    · rw [String.intercalate_cons_of_ne_nil hnil, String.toList_append, String.toList_append,
        List.mem_append, List.mem_append]
      exact not_or.2 ⟨not_or.2 ⟨hpart, hs⟩, ih hparts⟩

theorem splitFirst_append {cs : List Char} (h : sep ∉ cs) (rest : List Char) :
    splitFirst sep (cs ++ sep :: rest) = some (cs, rest) := by
  induction cs with
  | nil => rw [List.nil_append, splitFirst, if_pos rfl]
  | cons c cs ih =>
    obtain ⟨hc, hcs⟩ := List.ne_and_not_mem_of_not_mem_cons h
    rw [List.cons_append, splitFirst, if_neg hc.symm, ih hcs]
    rfl

theorem splitLast_append {cs : List Char} (h : sep ∉ cs) (start : List Char) :
    splitLast sep (start ++ sep :: cs) = some (start, cs) := by
  have hreverse : (start ++ sep :: cs).reverse = cs.reverse ++ sep :: start.reverse := by simp
  rw [splitLast, hreverse, splitFirst_append (by simpa using h)]
  simp

theorem splitFirst_eq_none {cs : List Char} (h : sep ∉ cs) : splitFirst sep cs = none := by
  induction cs with
  | nil => rfl
  | cons c cs ih =>
    obtain ⟨hc, hcs⟩ := List.ne_and_not_mem_of_not_mem_cons h
    rw [splitFirst, if_neg hc.symm, ih hcs]
    rfl

theorem cutLast_eq_none {s : String} (h : sep ∉ s.toList) : cutLast sep s = none := by
  rw [cutLast, splitLast, splitFirst_eq_none (by simpa using h)]
  rfl

theorem cutFirst_append {s : String} (h : sep ∉ s.toList) (rest : String) :
    cutFirst sep (s ++ String.singleton sep ++ rest) = some (s, rest) := by
  have hchars : (s ++ String.singleton sep ++ rest).toList = s.toList ++ sep :: rest.toList := by simp
  rw [cutFirst, hchars, splitFirst_append h]
  simp

theorem cutLast_append {s : String} (h : sep ∉ s.toList) (start : String) :
    cutLast sep (start ++ String.singleton sep ++ s) = some (start, s) := by
  have hchars : (start ++ String.singleton sep ++ s).toList = start.toList ++ sep :: s.toList := by simp
  rw [cutLast, hchars, splitLast_append h]
  simp

theorem after?_eq_some_iff {start s rest : String} :
    after? start s = some rest ↔ s = start ++ rest := by
  have hchars : s = start ++ rest ↔ s.toList = start.toList ++ rest.toList := by
    rw [← String.toList_inj, String.toList_append]
  rw [after?, hchars]
  constructor
  · intro h
    split at h
    · rename_i hprefix
      obtain ⟨cs, hcs⟩ := List.isPrefixOf_iff_prefix.1 hprefix
      rw [← hcs, ← String.length_toList, List.drop_left, Option.some.injEq] at h
      rw [← hcs, ← h, String.toList_ofList]
    · cases h
  · intro h
    rw [h, if_pos (List.isPrefixOf_iff_prefix.2 (List.prefix_append _ _)), ← String.length_toList,
      List.drop_left, String.ofList_toList]

end TreeDelta.Text
