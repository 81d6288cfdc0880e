import TreeDelta.Patch.Git
import TreeDelta.Patch.Summary
import TreeDelta.Patch.Unified
set_option autoImplicit false

namespace TreeDelta.Patch

inductive Form where
  | unified (u : Unified)
  | git (g : Git)
  | summary (s : Summary)
deriving DecidableEq, Repr

namespace Form

def ofOptions (o : Options) : Form :=
  if o.summarizeOnly then summary ⟨o.xml⟩
  else if o.gitStyle then git (.ofOptions o)
  else unified (.ofOptions o)

def opening : Form → Bytes
  | unified _ | git _ => []
  | summary s => Bytes.ofString s.opening

def render : Form → PairResult → Bytes
  | unified u, r => u.render r
  | git g, r => g.render r
  | summary s, r => Bytes.ofString (s.entry r)

def closing : Form → Bytes
  | unified _ | git _ => []
  | summary s => Bytes.ofString s.closing

def entries (f : Form) (rs : List PairResult) : Bytes := rs.flatMap f.render

def document (f : Form) (rs : List PairResult) : Bytes := f.opening ++ f.entries rs ++ f.closing

end Form

structure Written where
  out : Bytes
  outcome : Except DiffError Unit

def writeAll (s : Store) (f : Form) : Bytes → List ComparisonSpec → Written
  | out, [] => ⟨out ++ f.closing, .ok ()⟩
  | out, spec :: specs =>
    match compareTrees s spec with
    | .error e => ⟨out, .error e⟩
    | .ok rs => writeAll s f (out ++ f.entries rs) specs

def write (s : Store) (specs : List ComparisonSpec) : Written :=
  match specs.forM fun spec => spec.options.validate with
  | .error e => ⟨[], .error e⟩
  | .ok _ =>
    match specs with
    | [] => ⟨[], .ok ()⟩
    | first :: _ =>
      let f := Form.ofOptions first.options
      writeAll s f f.opening specs

end TreeDelta.Patch
