import TreeDelta.Patch.Report
import TreeDelta.Proofs.Except
set_option autoImplicit false

namespace TreeDelta.Patch

/-- A run on its way: what it has written and the comparisons it has begun. -/
structure Progress where
  out : Bytes
  begun : List ComparisonSpec

abbrev Reporting := EStateM DiffError Progress

namespace Reporting

def put (bytes : Bytes) : Reporting Unit := modify fun p => { p with out := p.out ++ bytes }

def compare (s : Store) (spec : ComparisonSpec) : Reporting (List PairResult) := do
  modify fun p => { p with begun := p.begun ++ [spec] }
  MonadExcept.ofExcept (compareTrees s spec)

def tell (s : Store) (f : Form) (spec : ComparisonSpec) : Reporting Unit := do
  let results ← compare s spec
  put (f.entries results)

def report (s : Store) (specs : List ComparisonSpec) : Reporting Unit := do
  specs.forM fun spec => MonadExcept.ofExcept spec.options.validate
  match specs with
  | [] => pure ()
  | first :: _ => do
    let f := Form.ofOptions first.options
    put f.opening
    specs.forM (tell s f)
    put f.closing

def ended : EStateM.Result DiffError Progress Unit → Written × List ComparisonSpec
  | .ok _ p => (⟨p.out, .ok ()⟩, p.begun)
  | .error e p => (⟨p.out, .error e⟩, p.begun)

def carryOut (s : Store) (specs : List ComparisonSpec) : Written × List ComparisonSpec :=
  ended ((report s specs).run ⟨[], []⟩)

end Reporting

/-- How a run over comparisons ends: which of them it has begun, and what it has written. -/
inductive Reports (s : Store) : List ComparisonSpec → List ComparisonSpec → Written → Prop
  | empty : Reports s [] [] ⟨[], .ok ()⟩
  | refused {before after : List ComparisonSpec} {spec : ComparisonSpec} {e : DiffError}
      (hbefore : ∀ x ∈ before, x.options.validate = .ok ()) (h : spec.options.validate = .error e) :
    Reports s (before ++ spec :: after) [] ⟨[], .error e⟩
  | complete {first : ComparisonSpec} {rest : List ComparisonSpec} {results : List (List PairResult)}
      {f : Form} (hvalid : ∀ x ∈ first :: rest, x.options.validate = .ok ())
      (hform : f = Form.ofOptions first.options)
      (h : List.Forall₂ (fun x rs => compareTrees s x = .ok rs) (first :: rest) results) :
    Reports s (first :: rest) (first :: rest)
      ⟨f.opening ++ results.flatMap f.entries ++ f.closing, .ok ()⟩
  | stopped {first spec : ComparisonSpec} {rest before after : List ComparisonSpec}
      {results : List (List PairResult)} {f : Form} {e : DiffError}
      (hvalid : ∀ x ∈ first :: rest, x.options.validate = .ok ())
      (hform : f = Form.ofOptions first.options) (hspecs : first :: rest = before ++ spec :: after)
      (hbefore : List.Forall₂ (fun x rs => compareTrees s x = .ok rs) before results)
      (h : compareTrees s spec = .error e) :
    Reports s (first :: rest) (before ++ [spec]) ⟨f.opening ++ results.flatMap f.entries, .error e⟩

namespace Reporting

variable {s : Store} {f : Form} {specs before after : List ComparisonSpec} {spec : ComparisonSpec}
  {results : List (List PairResult)} {e : DiffError} {p : Progress}

theorem tell_run_of_ok {rs : List PairResult} (h : compareTrees s spec = .ok rs) :
    (tell s f spec).run p = .ok () ⟨p.out ++ f.entries rs, p.begun ++ [spec]⟩ := by
  simp only [tell, compare, h]
  rfl

theorem tell_run_of_error (h : compareTrees s spec = .error e) :
    (tell s f spec).run p = .error e ⟨p.out, p.begun ++ [spec]⟩ := by
  simp only [tell, compare, h]
  rfl

theorem check_run (specs : List ComparisonSpec) :
    (specs.forM fun spec => (MonadExcept.ofExcept spec.options.validate : Reporting Unit)).run p =
      match specs.forM fun spec => spec.options.validate with
      | .ok _ => .ok () p
      | .error e => .error e p := by
  induction specs with
  | nil => rfl
  | cons spec specs ih =>
    rw [List.forM_eq_forM, List.forM_eq_forM, List.forM_cons, List.forM_cons, EStateM.run_bind]
    cases spec.options.validate with
    | error e => rfl
    | ok _ => exact ih

theorem forM_tell_run_of_ok (h : List.Forall₂ (fun x rs => compareTrees s x = .ok rs) specs results) :
    (specs.forM (tell s f)).run p = .ok () ⟨p.out ++ results.flatMap f.entries, p.begun ++ specs⟩ := by
  induction h generalizing p with
  | nil => simp [pure, EStateM.run, EStateM.pure]
  | cons hfirst _ ih =>
    rw [List.forM_eq_forM, List.forM_cons, EStateM.run_bind, tell_run_of_ok hfirst]
    rw [List.forM_eq_forM] at ih
    simp only [ih, List.flatMap_cons, List.append_assoc, List.singleton_append]

theorem forM_tell_run_of_error
    (hbefore : List.Forall₂ (fun x rs => compareTrees s x = .ok rs) before results)
    (h : compareTrees s spec = .error e) :
    ((before ++ spec :: after).forM (tell s f)).run p =
      .error e ⟨p.out ++ results.flatMap f.entries, p.begun ++ (before ++ [spec])⟩ := by
  have hrun := forM_tell_run_of_ok (f := f) (p := p) hbefore
  rw [List.forM_eq_forM] at hrun ⊢
  rw [List.forM_append, EStateM.run_bind, hrun, List.forM_cons]
  simp only [EStateM.run_bind, tell_run_of_error h, List.append_assoc]

theorem report_run_of_refused (h : specs.forM (fun spec => spec.options.validate) = .error e) :
    (report s specs).run p = .error e p := by
  unfold report
  rw [EStateM.run_bind, check_run, h]

theorem report_run_of_valid {first : ComparisonSpec} {rest : List ComparisonSpec}
    (hvalid : ∀ x ∈ first :: rest, x.options.validate = .ok ()) (hform : f = Form.ofOptions first.options) :
    EStateM.run (report s (first :: rest)) ⟨[], []⟩ =
      EStateM.run ((first :: rest).forM (tell s f) >>= fun _ => put f.closing) ⟨f.opening, []⟩ := by
  rw [report, EStateM.run_bind, check_run, forM_eq_ok_iff.2 hvalid, hform]
  rfl

theorem ended_closing (s : Store) (f : Form) (specs : List ComparisonSpec) (p : Progress) :
    (ended (EStateM.run (specs.forM (tell s f) >>= fun _ => put f.closing) p)).1 =
      writeAll s f p.out specs := by
  rw [List.forM_eq_forM]
  induction specs generalizing p with
  | nil => rfl
  | cons spec specs ih =>
    rw [List.forM_cons, bind_assoc, EStateM.run_bind]
    cases h : compareTrees s spec with
    | error e =>
      rw [tell_run_of_error h, writeAll, h]
      rfl
    | ok rs =>
      rw [tell_run_of_ok h, writeAll, h]
      exact ih _

theorem carryOut_written (s : Store) (specs : List ComparisonSpec) : (carryOut s specs).1 = write s specs := by
  unfold carryOut write
  cases hcheck : specs.forM fun spec => spec.options.validate with
  | error e =>
    rw [report_run_of_refused hcheck]
    rfl
  | ok _ =>
    cases specs with
    | nil => rfl
    | cons first rest =>
      rw [report_run_of_valid (forM_eq_ok_iff.1 hcheck) rfl]
      exact ended_closing s _ _ _

theorem carryOut_of_reports {begun : List ComparisonSpec} {w : Written} (h : Reports s specs begun w) :
    carryOut s specs = (w, begun) := by
  cases h with
  | empty => rfl
  | refused hbefore h =>
    rw [carryOut, report_run_of_refused (forM_eq_error_iff.2 ⟨_, _, _, rfl, hbefore, h⟩)]
    rfl
  | complete hvalid hform h =>
    rw [carryOut, report_run_of_valid hvalid hform, EStateM.run_bind, forM_tell_run_of_ok h]
    rfl
  | stopped hvalid hform hspecs hbefore h =>
    rw [carryOut, report_run_of_valid hvalid hform, EStateM.run_bind, hspecs,
      forM_tell_run_of_error hbefore h]
    rfl

end Reporting

theorem exists_reports (s : Store) (specs : List ComparisonSpec) : ∃ begun w, Reports s specs begun w := by
  cases hcheck : specs.forM fun spec => spec.options.validate with
  | error e =>
    obtain ⟨before, spec, after, rfl, hbefore, h⟩ := forM_eq_error_iff.1 hcheck
    exact ⟨_, _, .refused hbefore h⟩
  | ok _ =>
    have hvalid := forM_eq_ok_iff.1 hcheck
    cases specs with
    | nil => exact ⟨_, _, .empty⟩
    | cons first rest =>
      cases hall : (first :: rest).mapM (compareTrees s) with
      | ok results => exact ⟨_, _, .complete hvalid rfl (mapM_eq_ok_iff.1 hall)⟩
      | error e =>
        obtain ⟨before, spec, after, results, hspecs, hbefore, h⟩ := exists_of_mapM_eq_error hall
        exact ⟨_, _, .stopped hvalid rfl hspecs hbefore h⟩

/-- A run writes and begins what `Reports` says, and nothing else. -/
theorem write_reports (s : Store) (specs : List ComparisonSpec) :
    (Reporting.carryOut s specs).1 = write s specs ∧
      ∀ (w : Written) (begun : List ComparisonSpec),
        Reporting.carryOut s specs = (w, begun) ↔ Reports s specs begun w := by
  refine ⟨Reporting.carryOut_written s specs, fun w begun => ⟨?_, Reporting.carryOut_of_reports⟩⟩
  intro h
  obtain ⟨begun', w', hreports⟩ := exists_reports s specs
  rw [Reporting.carryOut_of_reports hreports] at h
  cases h
  exact hreports

end TreeDelta.Patch
