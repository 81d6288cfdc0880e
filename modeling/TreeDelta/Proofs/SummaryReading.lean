import TreeDelta.Patch.Report
import TreeDelta.Proofs.Fields
import TreeDelta.Proofs.PatchReading
set_option autoImplicit false

namespace TreeDelta.Patch.Summary

structure Element where
  kind : String
  item : String
  props : String
  path : String
deriving DecidableEq, Repr

/-- Expands entities. No `&` may stand for itself. -/
def expand : List Char → Option (List Char)
  | [] => some []
  | '&' :: 'a' :: 'm' :: 'p' :: ';' :: cs => (expand cs).map ('&' :: ·)
  | '&' :: 'l' :: 't' :: ';' :: cs => (expand cs).map ('<' :: ·)
  | '&' :: 'g' :: 't' :: ';' :: cs => (expand cs).map ('>' :: ·)
  | '&' :: 'q' :: 'u' :: 'o' :: 't' :: ';' :: cs => (expand cs).map ('"' :: ·)
  | '&' :: 'a' :: 'p' :: 'o' :: 's' :: ';' :: cs => (expand cs).map ('\'' :: ·)
  | '&' :: _ => none
  | c :: cs => (expand cs).map (c :: ·)

def readElement (piece : String) : Option Element := do
  let (tag, text) ← Text.cutFirst '>' piece
  let path ← expand text.toList
  match Text.fields '"' tag with
  | ["path\n   kind=", kind, "\n   item=", item, "\n   props=", props, ""] =>
    return ⟨kind, item, props, String.ofList path⟩
  | _ => none

def readElements : List String → Option (List Element)
  | ["/paths>\n", "/diff>\n"] => some []
  | start :: "/path>\n" :: pieces => do return (← readElement start) :: (← readElements pieces)
  | _ => none

def readDocument (document : Bytes) : Option (List Element) := do
  match Text.fields '<' (← document.text?) with
  | "" :: "?xml version=\"1.0\" encoding=\"UTF-8\"?>\n" :: "diff>\n" :: "paths>\n" :: pieces =>
    readElements pieces
  | _ => none

theorem escape_toList (s : String) : (escape s).toList = s.toList.flatMap fun c => (escapeChar c).toList := by
  rw [escape, String.toList_join, List.flatMap_map]

theorem escapeChar_toList {c : Char} (h : c ∉ ['&', '<', '>', '"', '\'']) : (escapeChar c).toList = [c] := by
  unfold escapeChar
  split
  all_goals simp_all

theorem markup_not_mem_escape (s : String) {c : Char} (h : c ∈ ['<', '>', '"', '\'']) :
    c ∉ (escape s).toList := by
  have hentity : (['&', '<', '>', '"', '\''].all fun d =>
      ['<', '>', '"', '\''].all fun c => !(escapeChar d).toList.contains c) = true := by decide
  rw [escape_toList]
  intro hc
  obtain ⟨d, -, hd⟩ := List.mem_flatMap.1 hc
  by_cases hmarkup : d ∈ ['&', '<', '>', '"', '\'']
  · have hnone := List.all_eq_true.1 (List.all_eq_true.1 hentity d hmarkup) c h
    simp [hd] at hnone
  · rw [escapeChar_toList hmarkup] at hd
    obtain rfl := List.mem_singleton.1 hd
    exact hmarkup (List.mem_cons_of_mem _ h)

theorem expand_cons {c : Char} (h : c ≠ '&') (cs : List Char) :
    expand (c :: cs) = (expand cs).map (c :: ·) := by
  rw [expand.eq_8]
  all_goals simp [h]

theorem expand_escapeChar (c : Char) (cs : List Char) :
    expand ((escapeChar c).toList ++ cs) = (expand cs).map (c :: ·) := by
  by_cases h : c ∈ ['&', '<', '>', '"', '\'']
  · simp only [List.mem_cons, List.not_mem_nil, or_false] at h
    rcases h with rfl | rfl | rfl | rfl | rfl
    all_goals rfl
  · rw [escapeChar_toList h, List.singleton_append, expand_cons (List.ne_of_not_mem_cons h)]

theorem expand_escape (s : String) : expand (escape s).toList = some s.toList := by
  rw [escape_toList]
  induction s.toList with
  | nil => rfl
  | cons c cs ih => rw [List.flatMap_cons, expand_escapeChar, ih, Option.map_some]

def Element.tagParts (e : Element) : List String :=
  ["path\n   kind=", e.kind, "\n   item=", e.item, "\n   props=", e.props, ""]

def Element.pieces (e : Element) : List String :=
  ["\"".intercalate e.tagParts ++ ">" ++ escape e.path, "/path>\n"]

def Element.text (e : Element) : String :=
  "<path\n   kind=\"" ++ e.kind ++ "\"\n   item=\"" ++ e.item ++ "\"\n   props=\"" ++ e.props ++
    "\">" ++ escape e.path ++ "</path>\n"

structure Element.IsPlain (e : Element) : Prop where
  kind : e.kind.toList.all Char.isLower = true
  item : e.item.toList.all Char.isLower = true
  props : e.props.toList.all Char.isLower = true

variable {e : Element}

theorem Element.IsPlain.not_mem_tagParts (h : e.IsPlain) {c : Char} (hlower : c.isLower = false)
    (hframe : "path\n   kind=\n   item=\n   props=".toList.contains c = false) :
    ∀ part ∈ e.tagParts, c ∉ part.toList := by
  have hword : ∀ {s : String}, s.toList.all Char.isLower = true → c ∉ s.toList := fun hs hmem =>
    absurd (List.all_eq_true.1 hs c hmem) (Bool.eq_false_iff.1 hlower)
  have hsplit : "path\n   kind=\n   item=\n   props=" = "path\n   kind=" ++ "\n   item=" ++ "\n   props=" := by
    decide +kernel
  simp only [hsplit, String.toList_append, List.contains_eq_mem, List.mem_append, decide_eq_false_iff_not,
    not_or] at hframe
  simp only [tagParts, List.forall_mem_cons]
  exact ⟨hframe.1.1, hword h.kind, hframe.1.2, hword h.item, hframe.2, hword h.props, by simp⟩

theorem fields_tag (h : e.IsPlain) : Text.fields '"' ("\"".intercalate e.tagParts) = e.tagParts :=
  Text.fields_intercalate (List.cons_ne_nil _ _) (h.not_mem_tagParts (by decide) (by decide +kernel))

theorem not_mem_tag (h : e.IsPlain) {c : Char} (hc : c = '<' ∨ c = '>') :
    c ∉ ("\"".intercalate e.tagParts).toList := by
  rcases hc with rfl | rfl
  · exact Text.not_mem_intercalate (by decide) (h.not_mem_tagParts (by decide) (by decide +kernel))
  · exact Text.not_mem_intercalate (by decide) (h.not_mem_tagParts (by decide) (by decide +kernel))

theorem readElement_piece (h : e.IsPlain) :
    readElement ("\"".intercalate e.tagParts ++ ">" ++ escape e.path) = some e := by
  have hcut : Text.cutFirst '>' ("\"".intercalate e.tagParts ++ ">" ++ escape e.path) =
      some ("\"".intercalate e.tagParts, escape e.path) :=
    Text.cutFirst_append (not_mem_tag h (.inr rfl)) _
  simp only [readElement, hcut, expand_escape, fields_tag h, Option.bind_eq_bind, Option.bind_some,
    String.ofList_toList]
  rfl

theorem readElements_pieces {es : List Element} (h : ∀ e ∈ es, e.IsPlain) :
    readElements (es.flatMap Element.pieces ++ ["/paths>\n", "/diff>\n"]) = some es := by
  induction es with
  | nil => rfl
  | cons e es ih =>
    obtain ⟨he, hes⟩ := List.forall_mem_cons.1 h
    have hread : ∀ start pieces, readElements (start :: "/path>\n" :: pieces) =
        (readElement start).bind fun e => (readElements pieces).bind fun es => some (e :: es) := by
      intro start pieces
      rw [readElements]
      rfl
    rw [List.flatMap_cons, Element.pieces]
    simp only [List.cons_append, List.nil_append, hread, readElement_piece he, ih hes, Option.bind_some]

theorem Element.text_eq (e : Element) :
    e.text = "<" ++ ("\"".intercalate e.tagParts ++ ">" ++ escape e.path) ++ ("<" ++ "/path>\n") := by
  have hkind : "<path\n   kind=\"" = "<" ++ ("path\n   kind=" ++ "\"") := by decide +kernel
  have hitem : "\"\n   item=\"" = "\"" ++ ("\n   item=" ++ "\"") := by decide +kernel
  have hprops : "\"\n   props=\"" = "\"" ++ ("\n   props=" ++ "\"") := by decide +kernel
  have hclose : "\">" = "\"" ++ ("" ++ ">") := by decide +kernel
  have hend : "</path>\n" = "<" ++ "/path>\n" := by decide +kernel
  unfold text
  rw [hkind, hitem, hprops, hclose, hend]
  simp only [tagParts, String.intercalate_cons_cons, String.intercalate_singleton, String.append_assoc]

theorem intercalate_pieces (es : List Element) {rest : List String} (h : rest ≠ []) :
    "<" ++ "<".intercalate (es.flatMap Element.pieces ++ rest) =
      String.join (es.map Element.text) ++ ("<" ++ "<".intercalate rest) := by
  induction es with
  | nil => simp
  | cons e es ih =>
    have hne : es.flatMap Element.pieces ++ rest ≠ [] := List.append_ne_nil_of_right_ne_nil _ h
    calc
      "<" ++ "<".intercalate ((e :: es).flatMap Element.pieces ++ rest)
        = e.text ++ ("<" ++ "<".intercalate (es.flatMap Element.pieces ++ rest)) := by
          rw [List.flatMap_cons, List.append_assoc, Element.pieces, List.cons_append, List.cons_append,
            List.nil_append, String.intercalate_cons_cons, String.intercalate_cons_of_ne_nil hne]
          simp only [Element.text_eq, String.append_assoc]
      _ = String.join ((e :: es).map Element.text) ++ ("<" ++ "<".intercalate rest) := by
          rw [ih, List.map_cons, String.join_cons, String.append_assoc]

def documentText (es : List Element) : String :=
  opening ⟨true⟩ ++ String.join (es.map Element.text) ++ closing ⟨true⟩

theorem documentText_eq (es : List Element) :
    documentText es = "<".intercalate ("" :: "?xml version=\"1.0\" encoding=\"UTF-8\"?>\n" :: "diff>\n" ::
      "paths>\n" :: (es.flatMap Element.pieces ++ ["/paths>\n", "/diff>\n"])) := by
  have hne : es.flatMap Element.pieces ++ ["/paths>\n", "/diff>\n"] ≠ [] := by simp
  have hopening : opening ⟨true⟩ =
      "" ++ "<" ++ ("?xml version=\"1.0\" encoding=\"UTF-8\"?>\n" ++ "<" ++ ("diff>\n" ++ "<" ++ "paths>\n")) := by
    decide +kernel
  have hclosing : closing ⟨true⟩ = "<" ++ "<".intercalate ["/paths>\n", "/diff>\n"] := by decide +kernel
  rw [documentText, String.append_assoc, hclosing, ← intercalate_pieces es (List.cons_ne_nil _ _), hopening]
  simp only [String.intercalate_cons_cons, String.intercalate_cons_of_ne_nil hne, String.append_assoc]

theorem not_mem_pieces {es : List Element} (h : ∀ e ∈ es, e.IsPlain) :
    ∀ piece ∈ es.flatMap Element.pieces, '<' ∉ piece.toList := by
  intro piece hpiece
  obtain ⟨e, he, hpiece⟩ := List.mem_flatMap.1 hpiece
  rcases List.mem_pair.1 hpiece with rfl | rfl
  · have htag := not_mem_tag (h e he) (.inl rfl)
    have hescape := markup_not_mem_escape e.path (c := '<') (by decide)
    simp only [String.toList_append, List.mem_append, not_or]
    exact ⟨⟨htag, by decide⟩, hescape⟩
  · decide +kernel

theorem readDocument_text {es : List Element} (h : ∀ e ∈ es, e.IsPlain) :
    readDocument (Bytes.ofString (documentText es)) = some es := by
  have hfields : Text.fields '<' (documentText es) = "" :: "?xml version=\"1.0\" encoding=\"UTF-8\"?>\n" ::
      "diff>\n" :: "paths>\n" :: (es.flatMap Element.pieces ++ ["/paths>\n", "/diff>\n"]) := by
    rw [documentText_eq]
    refine Text.fields_intercalate (List.cons_ne_nil _ _) ?_
    simp only [List.forall_mem_cons, List.forall_mem_append]
    refine ⟨?_, ?_, ?_, ?_, not_mem_pieces h, ?_, ?_, by simp⟩
    all_goals decide +kernel
  rw [readDocument, Bytes.text?_ofString]
  simp only [Option.bind_eq_bind, Option.bind_some, hfields]
  exact readElements_pieces h

def IsListed (r : PairResult) : Prop :=
  r.change = .added ∨ r.change = .copied ∨ r.change = .deleted ∨
    r.change = .modified ∧ (r.textChanged = true ∨ r.propsChanged = true)

instance (r : PairResult) : Decidable (IsListed r) := inferInstanceAs (Decidable (_ ∨ _))

/-- What happened to the node itself, as a letter and as a word. -/
inductive TellsItem (r : PairResult) : Char → String → Prop
  | added (h : r.change = .added ∨ r.change = .copied) : TellsItem r 'A' "added"
  | deleted (h : r.change = .deleted) : TellsItem r 'D' "deleted"
  | modified (h : r.change = .modified) (htext : r.textChanged = true) : TellsItem r 'M' "modified"
  | none (h : r.change = .modified) (htext : r.textChanged = false) : TellsItem r ' ' "none"

/-- Whether a modification is one of the properties, as a letter and as a word. -/
inductive TellsProps (r : PairResult) : Char → String → Prop
  | modified (h : r.change = .modified) (hprops : r.propsChanged = true) : TellsProps r 'M' "modified"
  | none (h : r.change = .modified → r.propsChanged = false) : TellsProps r ' ' "none"

structure Tells (r : PairResult) (line : String) (e : Element) : Prop where
  kind : e.kind = if r.nodeKind = .directory then "dir" else "file"
  path : e.path = r.displayPath
  columns : ∃ item props : Char, TellsItem r item e.item ∧ TellsProps r props e.props ∧
    line = String.singleton item ++ String.singleton props ++ "      " ++ r.displayPath ++ "\n"

def elementOf (s : Status) (r : PairResult) : Element where
  kind := if r.isDirectory then "dir" else "file"
  item := s.item.text
  props := if s.props then "modified" else "none"
  path := r.displayPath

def told (rs : List PairResult) : List (String × Element) :=
  rs.filterMap fun r => (status? r).map fun s => (textEntry s r, elementOf s r)

variable {r : PairResult} {s : Status}

theorem isSome_status?_iff : (status? r).isSome = true ↔ IsListed r := by
  unfold status? IsListed
  cases r.change with
  | modified => cases r.textChanged <;> cases r.propsChanged <;> simp
  | added | copied | deleted | replaced | unchanged => simp

theorem status?_eq_some (h : status? r = some s) :
    (s = ⟨.added, false⟩ ∧ (r.change = .added ∨ r.change = .copied)) ∨
      (s = ⟨.deleted, false⟩ ∧ r.change = .deleted) ∨
        (s = ⟨if r.textChanged then .modified else .none, r.propsChanged⟩ ∧ r.change = .modified) := by
  unfold status? at h
  cases hchange : r.change with
  | modified =>
    simp only [hchange] at h
    split at h
    · exact .inr (.inr ⟨(Option.some.inj h).symm, rfl⟩)
    · cases h
  | added | copied | deleted => simp_all
  | replaced | unchanged => simp [hchange] at h

theorem tellsItem_of_status? (h : status? r = some s) :
    ∃ item, s.item.letter = String.singleton item ∧ TellsItem r item s.item.text := by
  rcases status?_eq_some h with ⟨rfl, hchange⟩ | ⟨rfl, hchange⟩ | ⟨rfl, hchange⟩
  · exact ⟨'A', rfl, .added hchange⟩
  · exact ⟨'D', rfl, .deleted hchange⟩
  · cases htext : r.textChanged with
    | false => exact ⟨' ', rfl, .none hchange htext⟩
    | true => exact ⟨'M', rfl, .modified hchange htext⟩

theorem tellsProps_of_status? (h : status? r = some s) :
    ∃ props, (if s.props then "M" else " ") = String.singleton props ∧
      TellsProps r props (if s.props then "modified" else "none") := by
  rcases status?_eq_some h with ⟨rfl, hchange⟩ | ⟨rfl, hchange⟩ | ⟨rfl, hchange⟩
  · exact ⟨' ', rfl, .none fun hmodified => by simp [hmodified] at hchange⟩
  · exact ⟨' ', rfl, .none fun hmodified => by simp [hmodified] at hchange⟩
  · cases hprops : r.propsChanged with
    | false => exact ⟨' ', rfl, .none fun _ => hprops⟩
    | true => exact ⟨'M', rfl, .modified hchange hprops⟩

theorem tells_of_status? (h : status? r = some s) : Tells r (textEntry s r) (elementOf s r) := by
  obtain ⟨item, hitem, htold⟩ := tellsItem_of_status? h
  obtain ⟨props, hprops, htold'⟩ := tellsProps_of_status? h
  refine ⟨by simp [elementOf, PairResult.isDirectory], rfl, item, props, htold, htold', ?_⟩
  rw [textEntry, hitem, hprops]

theorem elementOf_isPlain (s : Status) (r : PairResult) : (elementOf s r).IsPlain := by
  obtain ⟨item, props⟩ := s
  constructor
  · change (if r.isDirectory then "dir" else "file").toList.all Char.isLower = true
    cases r.isDirectory <;> decide +kernel
  · change item.text.toList.all Char.isLower = true
    cases item <;> decide +kernel
  · change (if props then "modified" else "none").toList.all Char.isLower = true
    cases props <;> decide +kernel

theorem forall₂_told (rs : List PairResult) :
    List.Forall₂ (fun r t => Tells r t.1 t.2) (rs.filter (IsListed ·)) (told rs) := by
  induction rs with
  | nil => exact .nil
  | cons r rs ih =>
    cases hstatus : status? r with
    | none =>
      have hlisted : ¬ IsListed r := by simp [← isSome_status?_iff, hstatus]
      simpa [told, hstatus, hlisted] using ih
    | some s =>
      have hlisted : IsListed r := by simp [← isSome_status?_iff, hstatus]
      have htold : told (r :: rs) = (textEntry s r, elementOf s r) :: told rs := by simp [told, hstatus]
      rw [htold, List.filter_cons_of_pos (by simpa using hlisted)]
      exact .cons (tells_of_status? hstatus) ih

theorem join_entries (rs : List PairResult) :
    String.join (rs.map (entry ⟨false⟩)) = String.join ((told rs).map Prod.fst) ∧
      String.join (rs.map (entry ⟨true⟩)) = String.join ((told rs).map fun t => t.2.text) := by
  induction rs with
  | nil => exact ⟨rfl, rfl⟩
  | cons r rs ih =>
    rw [List.map_cons, List.map_cons, String.join_cons, String.join_cons, ih.1, ih.2, entry, entry]
    cases hstatus : status? r with
    | none => simp [told, hstatus]
    | some s =>
      have htold : told (r :: rs) = (textEntry s r, elementOf s r) :: told rs := by simp [told, hstatus]
      rw [htold, List.map_cons, List.map_cons, String.join_cons, String.join_cons]
      exact ⟨rfl, rfl⟩

theorem document_summary (form : Summary) (rs : List PairResult) : (Form.summary form).document rs =
    Bytes.ofString (form.opening ++ String.join (rs.map form.entry) ++ form.closing) := by
  have hentries : (Form.summary form).entries rs = Bytes.ofString (String.join (rs.map form.entry)) := by
    rw [Form.entries]
    induction rs with
    | nil => rfl
    | cons r rs ih =>
      rw [List.flatMap_cons, ih, List.map_cons, String.join_cons, Bytes.ofString_append]
      rfl
  rw [Form.document, hentries, Bytes.ofString_append, Bytes.ofString_append]
  rfl

/-- The two forms of a summary tell the same of the listed results, in their order, one in lines and
one in elements that are read back from the document. -/
theorem summary_forms (rs : List PairResult) :
    ∃ told : List (String × Element),
      (Form.summary ⟨false⟩).document rs = Bytes.ofString (String.join (told.map Prod.fst)) ∧
      readDocument ((Form.summary ⟨true⟩).document rs) = some (told.map Prod.snd) ∧
      List.Forall₂ (fun r t => Tells r t.1 t.2) (rs.filter (IsListed ·)) told := by
  refine ⟨told rs, ?_, ?_, forall₂_told rs⟩
  · rw [document_summary, (join_entries rs).1]
    simp [opening, closing]
  · have hplain : ∀ e ∈ (told rs).map Prod.snd, e.IsPlain := by
      intro e he
      obtain ⟨t, ht, rfl⟩ := List.mem_map.1 he
      obtain ⟨r, -, ht⟩ := List.mem_filterMap.1 ht
      obtain ⟨s, -, rfl⟩ := Option.map_eq_some_iff.1 ht
      exact elementOf_isPlain s r
    have hread := readDocument_text hplain
    rw [documentText, List.map_map] at hread
    rw [document_summary, (join_entries rs).2]
    exact hread

end TreeDelta.Patch.Summary
