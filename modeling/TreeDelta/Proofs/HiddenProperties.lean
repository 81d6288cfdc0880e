import TreeDelta.Patch.Report
import TreeDelta.Proofs.DepthFilter
import TreeDelta.Proofs.Replay
set_option autoImplicit false

namespace TreeDelta

open Patch

/-- Only the properties that tell how a file is shown. -/
def Props.masked (p : Props) : Props :=
  p.filter fun name _ => name == mimeTypeName || name == eolStyleName

def Node.masked (n : Node) : Node := { n with props := n.props.masked }

def NodeTree.masked (t : NodeTree) : NodeTree :=
  { t with
    nodes := t.nodes.map fun _ n => n.masked
    copySources := t.copySources.map fun _ n => n.masked }

def NodePair.masked (p : NodePair) : NodePair :=
  { p with
    left := p.left.masked
    right := p.right.masked
    copiedFrom := p.copiedFrom.map fun c => (c.1, c.2.masked) }

def Frame.masked (f : Frame) : Frame := { f with old := f.old.masked, new := f.new.masked }

theorem Props.get?_masked {name : String} (h : name = mimeTypeName ∨ name = eolStyleName) (p : Props) :
    p.masked.get? name = p.get? name := by
  have hkept : (name == mimeTypeName || name == eolStyleName) = true := by simpa using h
  rw [masked, OrderedMap.get?_filter]
  cases p.get? name with
  | none => rfl
  | some value => exact if_pos hkept

namespace Node

@[simp] theorem masked_kind (n : Node) : n.masked.kind = n.kind := rfl

@[simp] theorem masked_content (n : Node) : n.masked.content = n.content := rfl

@[simp] theorem masked_copySource (n : Node) : n.masked.copySource = n.copySource := rfl

@[simp] theorem masked_isFile (n : Node) : n.masked.isFile = n.isFile := rfl

@[simp] theorem masked_mimeType (n : Node) : n.masked.mimeType = n.mimeType :=
  Props.get?_masked (.inl rfl) n.props

@[simp] theorem masked_eolStyle (n : Node) : n.masked.eolStyle = n.eolStyle :=
  congrArg (Option.bind · _) (Props.get?_masked (.inr rfl) n.props)

@[simp] theorem masked_isBinary (n : Node) : n.masked.isBinary = n.isBinary := by
  rw [isBinary, masked_mimeType, isBinary]

end Node

@[simp] theorem NodePair.masked_left (p : NodePair) : p.masked.left = p.left.masked := rfl

@[simp] theorem NodePair.masked_right (p : NodePair) : p.masked.right = p.right.masked := rfl

@[simp] theorem NodePair.masked_nodeKind (p : NodePair) : p.masked.nodeKind = p.nodeKind := rfl

theorem NodePair.expand_masked (p : NodePair) : p.masked.expand = p.expand.map masked := by
  by_cases hreplaced : p.change = .replaced
  · have hreplaced' : p.masked.change = .replaced := hreplaced
    rw [expand, expand, if_pos hreplaced, if_pos hreplaced', addition, addition, masked]
    cases p.copiedFrom <;> rfl
  · have hreplaced' : p.masked.change ≠ .replaced := hreplaced
    rw [expand, expand, if_neg hreplaced, if_neg hreplaced', List.map_singleton]

theorem NodeTree.get?_masked (t : NodeTree) (path : Path) :
    t.masked.nodes.get? path = (t.nodes.get? path).map Node.masked := by
  rw [masked, OrderedMap.get?_map]

@[simp] theorem NodeTree.masked_rootKind (t : NodeTree) : t.masked.rootKind = t.rootKind := by
  rw [rootKind, masked, OrderedMap.get?_map, Option.map_map]
  rfl

variable {o : Options} {old new : NodeTree} {p : NodePair} {f : Frame} {form : Form}

theorem decidingSource_masked (a : Option Node) (b : Node) :
    decidingSource o new.masked (a.map Node.masked) b.masked =
      (decidingSource o new a b).map fun c => (c.1, c.2.masked) := by
  cases hsource : b.copySource with
  | none => simp [decidingSource, hsource]
  | some source =>
    have hheld' : new.masked.copySources.get? source =
        (new.copySources.get? source).map Node.masked := by
      rw [NodeTree.masked, OrderedMap.get?_map]
    cases hheld : new.copySources.get? source with
    | none =>
      rw [hheld, Option.map_none] at hheld'
      simp [decidingSource, hsource, hheld, hheld']
    | some node =>
      rw [hheld, Option.map_some] at hheld'
      rw [decidingSource_eq hsource hheld, decidingSource_eq (b := b.masked) hsource hheld']
      have hdecides : sourceDecides o new.masked.origin (a.map Node.masked) b.masked source =
          sourceDecides o new.origin a b source := by
        cases a <;> rfl
      rw [hdecides]
      split <;> rfl

/-- Both sides show the same, whatever their other properties are. -/
structure NodePair.IsStill (p : NodePair) : Prop where
  change : p.change = .modified ∨ p.change = .unchanged
  kind : p.left.kind = p.right.kind
  content : p.left.content = p.right.content
  eolStyle : p.left.eolStyle = p.right.eolStyle

theorem Node.differs_masked {a b : Node} (h : a.differs b = false) : a.masked.differs b.masked = false := by
  simp only [differs, Bool.or_eq_false_iff, bne_eq_false_iff_eq] at h ⊢
  exact ⟨h.1, congrArg Props.masked h.2⟩

theorem Node.isStill_of_masked {a b : Node} {change : ChangeKind} {path : Path}
    (hchange : change = .modified ∨ change = .unchanged) (hkind : a.kind = b.kind)
    (h : a.masked.differs b.masked = false) : NodePair.IsStill ⟨path, change, a, b, none⟩ := by
  simp only [differs, Bool.or_eq_false_iff, bne_eq_false_iff_eq, masked_content] at h
  refine ⟨hchange, hkind, h.1, ?_⟩
  have hstyle : a.masked.eolStyle = b.masked.eolStyle :=
    congrArg (fun props => (OrderedMap.get? props Props.eolStyleName).bind _) h.2
  simpa using hstyle

theorem classify_compared {u : Bool} {path : Path} {a b : Node} (ha : old.nodes.get? path = some a)
    (hb : new.nodes.get? path = some b) (hs : decidingSource o new (some a) b = none)
    (hr : a.isReplacedBy o u b = false) : classify o old new u path =
      ⟨path, if a.differs b then .modified else .unchanged, a, b, none⟩ := by
  rw [classify, ha, hb]
  simp only [hs]
  refine (if_neg (Bool.eq_false_iff.1 hr)).trans ?_
  split <;> rfl

/-- Without their other properties two nodes get the same verdict, unless these are all that differs. -/
theorem classify_masked (o : Options) (old new : NodeTree) (u : Bool) (path : Path) :
    classify o old.masked new.masked u path = (classify o old new u path).masked ∨
      (classify o old.masked new.masked u path).IsStill ∧ (classify o old new u path).IsStill := by
  have hverdict := classify_verdict o old new u path
  generalize classify o old new u path = p at hverdict ⊢
  have hget : ∀ {t : NodeTree} {x}, t.nodes.get? path = x →
      t.masked.nodes.get? path = x.map Node.masked :=
    fun h => h ▸ NodeTree.get?_masked _ _
  have hsource : ∀ {a b c}, decidingSource o new a b = c →
      decidingSource o new.masked (a.map Node.masked) b.masked = c.map fun c => (c.1, c.2.masked) :=
    fun h => h ▸ decidingSource_masked _ _
  cases hverdict with
  | absent ha hb =>
    rw [classify, hget ha, hget hb]
    exact .inl rfl
  | deleted a ha hb =>
    rw [classify, hget ha, hget hb]
    exact .inl rfl
  | added b ha hb hs =>
    have hs : decidingSource o new.masked none b.masked = none := hsource hs
    rw [classify, hget ha, hget hb]
    exact .inl (by simp only [Option.map_none, Option.map_some, hs]; rfl)
  | copied b source node ha hb hs =>
    have hs : decidingSource o new.masked none b.masked = some (source, node.masked) := hsource hs
    rw [classify, hget ha, hget hb]
    exact .inl (by simp only [Option.map_none, Option.map_some, hs]; rfl)
  | replacedByCopy a b source node ha hb hs hr =>
    have hs : decidingSource o new.masked (some a.masked) b.masked = some (source, node.masked) := hsource hs
    rw [classify, hget ha, hget hb]
    simp only [Option.map_some, hs]
    exact .inl (if_pos hr)
  | copiedOnto a b source node ha hb hs hr =>
    have hs : decidingSource o new.masked (some a.masked) b.masked = some (source, node.masked) := hsource hs
    rw [classify, hget ha, hget hb]
    simp only [Option.map_some, hs]
    exact .inl (if_neg (Bool.eq_false_iff.1 hr))
  | replaced a b ha hb hs hr =>
    have hs : decidingSource o new.masked (some a.masked) b.masked = none := hsource hs
    rw [classify, hget ha, hget hb]
    simp only [Option.map_some, hs]
    exact .inl (if_pos hr)
  | modified a b ha hb hs hr hd =>
    rw [classify_compared (hget ha) (hget hb) (hsource hs) hr]
    cases hmasked : a.masked.differs b.masked with
    | true => exact .inl rfl
    | false =>
      have hkind := Node.kind_eq_of_isReplacedBy hr
      refine .inr ⟨Node.isStill_of_masked (.inr rfl) hkind ?_, Node.isStill_of_masked (.inl rfl) hkind hmasked⟩
      exact Node.differs_masked hmasked
  | unchanged a b ha hb hs hr hd =>
    rw [classify_compared (hget ha) (hget hb) (hsource hs) hr, Node.differs_masked hd]
    exact .inl rfl

def Frame.entriesOf (f : Frame) (form : Form) (l : List NodePair) : Except DiffError Bytes :=
  (l.mapM f.result).map form.entries

theorem Frame.entriesOf_cons (p : NodePair) (l : List NodePair) :
    f.entriesOf form (p :: l) = do
      let out ← (f.result p).map form.render
      let out' ← f.entriesOf form l
      return out ++ out' := by
  rw [entriesOf, entriesOf, List.mapM_cons]
  cases f.result p with
  | error e => rfl
  | ok x => cases l.mapM f.result <;> rfl

theorem Frame.entriesOf_append (l l' : List NodePair) :
    f.entriesOf form (l ++ l') = do
      let out ← f.entriesOf form l
      let out' ← f.entriesOf form l'
      return out ++ out' := by
  induction l with
  | nil =>
    rw [List.nil_append]
    cases f.entriesOf form l' <;> rfl
  | cons p l ih =>
    rw [List.cons_append, entriesOf_cons, entriesOf_cons, ih]
    simp only [bind_assoc, pure_bind, List.append_assoc]

def PairResult.withoutModes (x : PairResult) : PairResult :=
  { x with oldExecutable := false, newExecutable := false }

theorem Patch.Form.render_withoutModes (hform : ∀ g, form ≠ .git g) (x : PairResult) :
    form.render x.withoutModes = form.render x := by
  cases form with
  | git g => exact absurd rfl (hform g)
  | unified u => rfl
  | summary s => rfl

theorem shownBytes_masked (s : Store) (n : Node) : shownBytes s n.masked = shownBytes s n := by
  simp only [shownBytes, Node.masked_content, Node.masked_isFile, Node.masked_eolStyle]

theorem diffContent_masked (s : Store) (a b : Node) (o : Options) :
    diffContent s a.masked b.masked o = diffContent s a b o := by
  simp only [diffContent, shownBytes_masked, Node.masked_content, Node.masked_isFile,
    Node.masked_eolStyle, Node.masked_isBinary, Node.masked_mimeType]
  rfl

theorem Frame.contentOf_masked (p : NodePair) : f.masked.contentOf p.masked = f.contentOf p := by
  simp only [contentOf, NodePair.masked_nodeKind, NodePair.masked_left, NodePair.masked_right,
    diffContent_masked]
  rfl

theorem Frame.result_masked (hignore : f.options.ignoreProperties = true) (p : NodePair) :
    (f.masked.result p.masked).map PairResult.withoutModes =
      (f.result p).map PairResult.withoutModes := by
  have hprops : f.masked.propsOf p.masked = f.propsOf p := by
    rw [propsOf, propsOf, if_pos hignore]
    exact if_pos hignore
  have hcopied : p.masked.copiedFrom.map Prod.fst = p.copiedFrom.map Prod.fst := by
    rw [NodePair.masked, Option.map_map]
    rfl
  have htext : textDiffers p.masked.nodeKind p.masked.left p.masked.right =
      textDiffers p.nodeKind p.left p.right := by
    simp only [textDiffers, NodePair.masked_nodeKind, NodePair.masked_left, NodePair.masked_right,
      Node.masked_kind, Node.masked_content, Node.masked_eolStyle]
  rw [result, result, contentOf_masked]
  cases f.contentOf p with
  | error e => rfl
  | ok content =>
    simp only [bind, Except.bind, pure, Except.pure, Except.map, PairResult.withoutModes, hprops, hcopied,
      htext]
    rfl

theorem Frame.entry_masked (hignore : f.options.ignoreProperties = true) (hform : ∀ g, form ≠ .git g)
    (p : NodePair) : (f.masked.result p.masked).map form.render = (f.result p).map form.render := by
  have hrender : ∀ x : Except DiffError PairResult,
      (x.map PairResult.withoutModes).map form.render = x.map form.render := fun x => by
    cases x with
    | error e => rfl
    | ok x => exact congrArg Except.ok (Form.render_withoutModes hform x)
  rw [← hrender, result_masked hignore, hrender]

theorem Frame.entriesOf_masked (hignore : f.options.ignoreProperties = true)
    (hform : ∀ g, form ≠ .git g) (l : List NodePair) :
    f.masked.entriesOf form (l.map NodePair.masked) = f.entriesOf form l := by
  induction l with
  | nil => rfl
  | cons p l ih => rw [List.map_cons, entriesOf_cons, entriesOf_cons, entry_masked hignore hform, ih]

def NodePair.changes (p : NodePair) : List NodePair := if p.change = .unchanged then [] else p.expand

theorem NodePair.changes_masked (p : NodePair) : p.masked.changes = p.changes.map masked := by
  by_cases hunchanged : p.change = .unchanged
  · have hunchanged' : p.masked.change = .unchanged := hunchanged
    rw [changes, changes, if_pos hunchanged, if_pos hunchanged', List.map_nil]
  · have hunchanged' : p.masked.change ≠ .unchanged := hunchanged
    rw [changes, changes, if_neg hunchanged, if_neg hunchanged', expand_masked]

theorem changedPairs_eq_flatMap (o : Options) (old new : NodeTree) :
    changedPairs o old new = (matchTrees o old new).flatMap NodePair.changes := by
  rw [changedPairs]
  induction matchTrees o old new with
  | nil => rfl
  | cons p l ih =>
    rw [List.flatMap_cons, ← ih, NodePair.changes, List.filter_cons]
    by_cases hunchanged : p.change = .unchanged
    · simp [hunchanged]
    · simp [hunchanged]

theorem Frame.contentOf_eq_none (hkind : p.left.kind = p.right.kind)
    (hcontent : p.left.content = p.right.content) (hstyle : p.left.eolStyle = p.right.eolStyle) :
    f.contentOf p = .ok none := by
  have hfile : p.left.isFile = p.right.isFile := by rw [Node.isFile, Node.isFile, hkind]
  rw [contentOf]
  split
  · rfl
  · rw [diffContent, hfile, hcontent, hstyle]
    cases hright : p.right.isFile with
    | false => rfl
    | true =>
      simp only [Bool.not_true, Bool.and_self, beq_self_eq_true, if_true, Bool.false_eq_true,
        if_false]
      rfl

theorem Patch.Unified.render_eq_nil (u : Unified) {x : PairResult}
    (hchange : x.change = .modified ∨ x.change = .copied) (hcontent : x.content = none)
    (hprops : x.propsChanged = false) : u.render x = [] := by
  rcases hchange with hchange | hchange <;>
    simp [render, omission?, shows, hchange, hcontent, hprops]

theorem Patch.Form.render_eq_nil (hform : ∀ g, form ≠ .git g) {x : PairResult}
    (hchange : x.change = .modified) (hcontent : x.content = none) (htext : x.textChanged = false)
    (hprops : x.propsChanged = false) : form.render x = [] := by
  cases form with
  | git g => exact absurd rfl (hform g)
  | unified u => exact u.render_eq_nil (.inl hchange) hcontent hprops
  | summary s => simp [render, Summary.entry, Summary.status?, hchange, htext, hprops]

theorem Frame.entriesOf_isStill (hignore : f.options.ignoreProperties = true)
    (hform : ∀ g, form ≠ .git g) (h : p.IsStill) : f.entriesOf form p.changes = .ok [] := by
  rcases h.change with hchange | hchange
  · have hchanges : p.changes = [p] := by simp [NodePair.changes, NodePair.expand, hchange]
    have htext : textDiffers p.nodeKind p.left p.right = false := by
      simp [textDiffers, h.kind, h.content, h.eolStyle]
    have hprops : f.propsOf p = .empty := if_pos hignore
    have hentry : (f.result p).map form.render = .ok [] := by
      rw [result, contentOf_eq_none h.kind h.content h.eolStyle]
      refine congrArg Except.ok (Form.render_eq_nil hform hchange rfl htext ?_)
      rw [PairResult.propsChanged, hprops]
      rfl
    rw [hchanges, entriesOf_cons, hentry]
    rfl
  · rw [NodePair.changes, if_pos hchange]
    rfl

theorem NodePair.IsStill.change_ne_replaced (h : p.IsStill) : p.change ≠ .replaced := by
  rcases h.change with hchange | hchange <;> simp [hchange]

/-- The paths of both runs are passed with the same directories replaced so far. -/
theorem Frame.entriesOf_classifyAll (hignore : f.options.ignoreProperties = true)
    (hform : ∀ g, form ≠ .git g) (replaced paths : List Path) :
    f.masked.entriesOf form
        ((classifyAll f.options f.old.masked f.new.masked replaced paths).flatMap NodePair.changes) =
      f.entriesOf form ((classifyAll f.options f.old f.new replaced paths).flatMap NodePair.changes) := by
  induction paths generalizing replaced with
  | nil => rfl
  | cons path paths ih =>
    simp only [classifyAll, List.flatMap_cons, entriesOf_append]
    rcases classify_masked f.options f.old f.new (replaced.any path.isAtOrBelow) path with
      hmasked | ⟨hstill, hstill'⟩
    · rw [hmasked, NodePair.changes_masked, entriesOf_masked hignore hform, ← ih]
      rfl
    · rw [entriesOf_isStill hignore hform hstill', entriesOf_isStill (f := f.masked) hignore hform hstill]
      simp only [hstill.change_ne_replaced, hstill'.change_ne_replaced, decide_false, Bool.false_and,
        Bool.false_eq_true, if_false, ih]

def Frame.report (f : Frame) (form : Form) : Except DiffError Bytes :=
  ((changedPairs f.options f.old f.new).mapM f.result).map form.document

theorem Frame.report_masked (hignore : f.options.ignoreProperties = true) (hform : ∀ g, form ≠ .git g) :
    f.masked.report form = f.report form := by
  have hreport : ∀ g : Frame, g.report form =
      (g.entriesOf form ((matchTrees g.options g.old g.new).flatMap NodePair.changes)).map
        fun entries => form.opening ++ entries ++ form.closing := fun g => by
    rw [report, changedPairs_eq_flatMap, entriesOf]
    cases List.mapM g.result _ <;> rfl
  have hpaths : f.old.masked.nodes.unionKeys f.new.masked.nodes = f.old.nodes.unionKeys f.new.nodes :=
    OrderedMap.unionKeys_congr (OrderedMap.contains_map _ _) (OrderedMap.contains_map _ _)
  have hentries := entriesOf_classifyAll hignore hform [] (f.old.nodes.unionKeys f.new.nodes)
  rw [hreport, hreport]
  refine congrArg (Except.map _) (Eq.trans ?_ hentries)
  rw [matchTrees, ← hpaths]
  rfl

theorem Frame.report_store {s : Store} (hcontent : s.content? = f.store.content?) :
    Frame.report { f with store := s } form = f.report form := by
  have hresult : Frame.result { f with store := s } = f.result := funext fun p => by
    have hcontentOf : Frame.contentOf { f with store := s } p = f.contentOf p := by
      have hdiff : diffContent s p.left p.right f.options = diffContent f.store p.left p.right f.options :=
        diffContent_congr hcontent rfl rfl f.options f.options.depth
      rw [contentOf, contentOf, hdiff]
    rw [result, result, hcontentOf]
    rfl
  rw [report, report, hresult]

theorem ComparisonSpec.frame_masked (spec : ComparisonSpec) (s : Store) (old new : NodeTree) :
    (spec.frame s old new).masked = spec.frame s old.masked new.masked := by
  rw [frame, frame, NodeTree.masked_rootKind, NodeTree.masked_rootKind]
  rfl

/-- Where properties are ignored, two comparisons of trees that differ in other properties than mime
types and end-of-line styles only, over the same contents, have the same unified patch, and the same
summary as text and as a document. -/
theorem report_eq_of_masked_eq {s s' : Store} (hcontent : s'.content? = s.content?) {spec : ComparisonSpec}
    {old old' new new' : NodeTree} (hold : old'.masked = old.masked) (hnew : new'.masked = new.masked)
    (hignore : spec.options.ignoreProperties = true) (hform : ∀ g, form ≠ .git g) :
    (spec.frame s' old' new').report form = (spec.frame s old new).report form := by
  rw [← Frame.report_masked hignore hform, ← Frame.report_masked (f := spec.frame s old new) hignore hform,
    spec.frame_masked, spec.frame_masked, hold, hnew]
  exact Frame.report_store (f := spec.frame s old.masked new.masked) hcontent

namespace OtherProperties

def edits : List DraftEdit := [.directory "d", .file "f" [98, 10], .setProp "f" "svn:eol-style" "LF"]

def operations (other : List DraftEdit) : List Operation :=
  [.commit (Draft.empty.applyAll [.directory "d", .file "f" [97, 10]]),
   .commit (Draft.empty.applyAll (edits ++ other))]

def repository (other : List DraftEdit) : Repository := Repository.empty.runAll (operations other)

def other : List DraftEdit := [.setProp "d" "p" "1", .setProp "f" "svn:executable" "*"]

def spec : ComparisonSpec :=
  ⟨⟨.repository .root, .number 1⟩, ⟨.repository .root, .number 2⟩, none,
    { Options.default with ignoreProperties := true }⟩

def tree (other : List DraftEdit) (e : Endpoint) : NodeTree :=
  ((resolveTree (repository other).store e spec.options).toOption).getD (.absent ⟨.workingCopy, .root⟩)

def unified : Form := Form.ofOptions spec.options

def report (other : List DraftEdit) : Except DiffError Bytes :=
  (spec.frame (repository other).store (tree other spec.old) (tree other spec.new)).report unified

end OtherProperties

open OtherProperties in
theorem report_eq_of_masked_eq_otherProperties :
    (∀ l ∈ [[], other], ∀ e ∈ [spec.old, spec.new],
      resolveTree (repository l).store e spec.options = .ok (tree l e)) ∧
    (repository other).store.content? = (repository []).store.content? ∧
    (tree other spec.old).masked = (tree [] spec.old).masked ∧
    (tree other spec.new).masked = (tree [] spec.new).masked ∧
    ((changedPairs spec.options (tree [] spec.old) (tree [] spec.new)).map fun p => p.path.text) =
      ["f"] ∧
    ((changedPairs spec.options (tree other spec.old) (tree other spec.new)).map fun p => p.path.text) =
      ["d", "f"] ∧
    report other = report [] ∧ (report []).toOption.any (· != []) = true := by
  have hblobs : (repository other).blobs = (repository []).blobs := by decide +kernel
  have hcontent : (repository other).store.content? = (repository []).store.content? :=
    congrArg (fun blobs : Blobs => fun id => Except.ok (blobs.get? id)) hblobs
  have hold : (tree other spec.old).masked = (tree [] spec.old).masked := by decide +kernel
  have hnew : (tree other spec.new).masked = (tree [] spec.new).masked := by decide +kernel
  refine ⟨by decide +kernel, hcontent, hold, hnew, by decide +kernel, by decide +kernel, ?_,
    by decide +kernel⟩
  exact report_eq_of_masked_eq hcontent hold hnew rfl fun g hg => by cases hg

end TreeDelta
