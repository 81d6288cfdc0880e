import TreeDelta.CommandLine.Arguments
import TreeDelta.Config
import TreeDelta.Data.Fixture
import TreeDelta.Patch.Report
set_option autoImplicit false

namespace TreeDelta.CommandLine

inductive CommandError where
  | badCwd (e : SyntaxError)
  | repositoryMissing (file : String)
  | repositoryUnreadable (file : String)
  | repositoryUnbuildable (e : StoreError)
  | configMissing (file : String)
  | configUnreadable
  | badRevision (e : SyntaxError)
  | comparison (e : DiffError)
deriving DecidableEq

def fileMissing : String := "No such file or directory (os error 2)"

namespace CommandError

def message : CommandError → String
  | badCwd e => "invalid --cwd: " ++ e.message
  | repositoryMissing file =>
    "cannot load repository " ++ file ++ ": I/O error: " ++ fileMissing ++ ": " ++ fileMissing
  | repositoryUnreadable file => "cannot load repository " ++ file ++ ": fixture error"
  | repositoryUnbuildable e => "cannot build repository: " ++ e.message
  | configMissing file => "cannot read config file " ++ file ++ ": " ++ fileMissing
  | configUnreadable => "invalid config file"
  | badRevision e => e.message
  | comparison (.store e) => (DiffError.store e).message ++ ": " ++ e.message
  | comparison e => e.message

end CommandError

abbrev Files := String → Option String

structure Printed where
  out : Bytes
  outcome : Except CommandError Unit

/-- A file is JSON if its name ends in `.json` and has something before that. -/
def notationOf (file : String) : Notation :=
  let name := (Text.fields '/' file).getLastD ""
  match Text.cutLast '.' name with
  | some (stem, "json") => if stem.isEmpty then .toml else .json
  | _ => .toml

def loadRepository (files : Files) (file : String) : Except CommandError Repository :=
  match files file with
  | none => .error (.repositoryMissing file)
  | some text =>
    match Fixture.parse? (notationOf file) text with
    | none => .error (.repositoryUnreadable file)
    | some fixture => fixture.build.mapError .repositoryUnbuildable

def loadConfig (files : Files) : Option String → Except CommandError Config
  | none => .ok .default
  | some file =>
    match files file with
    | none => .error (.configMissing file)
    | some text =>
      match Config.parse? text with
      | some c => .ok c
      | none => .error .configUnreadable

def withFlags (a : DiffArguments) (o : Options) : Options :=
  { o with
    summarizeOnly := o.summarizeOnly || a.summarize
    xml := o.xml || a.xml
    gitStyle := o.gitStyle || a.git
    noticeAncestry := o.noticeAncestry || a.noticeAncestry
    showCopiesAsAdds := o.showCopiesAsAdds || a.showCopiesAsAdds
    force := o.force || a.force
    ignoreContentType := o.ignoreContentType || a.ignoreContentType
    ignoreProperties := o.ignoreProperties || a.ignoreProperties
    propertiesOnly := o.propertiesOnly || a.propertiesOnly
    noDiffAdded := o.noDiffAdded || a.noDiffAdded
    noDiffDeleted := o.noDiffDeleted || a.noDiffDeleted }

def extendWith (o : Options) : Option String → Except DiffError Options
  | none => .ok o
  | some text =>
    match o.extend text with
    | (o, .ok _) => .ok o
    | (_, .error e) => .error e

def buildOptions (c : Config) (a : DiffArguments) : Except DiffError Options := do
  let o ← extendWith (withFlags a c.diff) c.extensions
  let o ← extendWith o a.extensions
  match a.depth with
  | none => return o
  | some depth => return { o with depth := ← Depth.parse depth }

def readRevision (text : String) : Except CommandError RevisionSpec :=
  (RevisionSpec.parse text).mapError .badRevision

def readTarget (text : String) (cwd : Path) : Except CommandError Target :=
  (Target.parse text cwd).mapError .comparison

def usage {α : Type} (fault : UsageFault) : Except CommandError α := .error (.comparison (.usage fault))

/-- Without a revision, a working-copy path means the working copy and a
repository path the youngest revision. -/
def defaultPeg : Target → RevisionSpec
  | .workingCopy _ => .working
  | .repository _ => .head

/-- Reads `PATH[@REV]`; the last `@` counts. -/
def parsePeg (text : String) (cwd : Path) : Except CommandError (String × Endpoint) :=
  match Text.cutLast '@' text with
  | some (path, revision) => do
    let revision ← readRevision revision
    return (path, ⟨← readTarget path cwd, revision⟩)
  | none => do
    let target ← readTarget text cwd
    return (text, ⟨target, defaultPeg target⟩)

def dropMarks (s : String) : String :=
  String.ofList (s.toList.dropWhile fun c => c == 'r' || c == 'R')

/-- The change made in revision `n`, or with a minus its reverse. -/
def changeRange (text : String) : Except CommandError (RevisionSpec × RevisionSpec) :=
  match Text.intWithin? Text.signedBound (dropMarks (Text.trim text)) with
  | none => usage (.changeNumber text)
  | some n =>
    if n = 0 then usage .changeZero
    else
      let before := RevisionSpec.number (UInt64.ofNat (n.natAbs - 1))
      let after := RevisionSpec.number (UInt64.ofNat n.natAbs)
      .ok (if 0 < n then (before, after) else (after, before))

def revisionRange (a : DiffArguments) :
    Except CommandError (Option RevisionSpec × Option RevisionSpec) :=
  match a.revision, a.change with
  | some _, some _ => usage .rangeAndChange
  | some range, none =>
    match Text.cutFirst ':' range with
    | some (old, new) => do
      let old ← readRevision old
      return (some old, some (← readRevision new))
    | none => do return (some (← readRevision range), none)
  | none, some change => do
    let (old, new) ← changeRange change
    return (some old, some new)
  | none, none => .ok (none, none)

def sidesSpec (a : DiffArguments) (cwd : Path) (o : Options) : Except CommandError ComparisonSpec := do
  if a.revision.isSome || a.change.isSome || !a.targets.isEmpty then usage .sidesAndTargets
  else match a.old with
    | none => usage .newWithoutOld
    | some oldText => do
      let (_, old) ← parsePeg oldText cwd
      let (newPath, new) ← parsePeg (a.new.getD oldText) cwd
      return ⟨old, new, if new.target.isWorkingCopy then some newPath else none, o⟩

def targetSpec (cwd : Path) (o : Options) (oldRev newRev : Option RevisionSpec) (text : String) :
    Except CommandError ComparisonSpec := do
  let target ← readTarget text cwd
  match target with
  | .workingCopy _ =>
    return ⟨⟨target, oldRev.getD .base⟩, ⟨target, newRev.getD .working⟩, some text, o⟩
  | .repository _ =>
    match oldRev with
    | none => usage (.revisionNeeded text)
    | some old => return ⟨⟨target, old⟩, ⟨target, newRev.getD .head⟩, none, o⟩

def buildSpecs (a : DiffArguments) (cwd : Path) (o : Options) :
    Except CommandError (List ComparisonSpec) := do
  if a.old.isSome || a.new.isSome then return [← sidesSpec a cwd o]
  else do
    let (old, new) ← revisionRange a
    let targets := if a.targets.isEmpty then ["."] else a.targets
    targets.mapM (targetSpec cwd o old new)

def failed (e : CommandError) : Printed := ⟨[], .error e⟩

def planDiff (files : Files) (cwd : Path) (a : DiffArguments) :
    Except CommandError (List ComparisonSpec) := do
  let c ← loadConfig files a.config
  let o ← (buildOptions c a).mapError .comparison
  buildSpecs a cwd o

def runDiff (files : Files) (s : Store) (cwd : Path) (a : DiffArguments) : Printed :=
  match planDiff files cwd a with
  | .error e => failed e
  | .ok specs =>
    let w := Patch.write s specs
    ⟨w.out, w.outcome.mapError .comparison⟩

def styleReset : String := "\x1b[0m"

/-- Sets a text in a terminal style. A reset inside it is followed by the style again. -/
def styled (color : Bool) (codes text : String) : String :=
  if color then
    let style := "\x1b[" ++ codes ++ "m"
    style ++ text.replace styleReset (styleReset ++ style) ++ styleReset
  else text

def padRight (width : Nat) (s : String) : String :=
  s ++ String.ofList (List.replicate (width - s.length) ' ')

def listLine (color : Bool) (path : Path) (node : Node) : Bytes :=
  let shown := if path.isRoot then "." else path.text
  let shown := if node.isDirectory then styled color "1;34" (shown ++ "/") else shown
  Patch.line ("  " ++ padRight 4 node.kind.text ++ " " ++ shown)

def listing (color : Bool) (title : String) (t : NodeTree) : Bytes :=
  Patch.line (styled color "1" title ++ " (" ++ styled color "2" t.origin.text ++ ")") ++
    t.nodes.entries.flatMap fun e => listLine color e.1 e.2

def listedTree (s : Store) (cwd : Path) (a : ListArguments) : Except CommandError NodeTree := do
  let target ← readTarget a.target cwd
  let revision ← readRevision a.revision
  (resolve s ⟨target, revision⟩ .default).mapError .comparison

def runList (s : Store) (color : Bool) (cwd : Path) (a : ListArguments) : Printed :=
  match listedTree s cwd a with
  | .error e => failed e
  | .ok t => ⟨listing color a.target t, .ok ()⟩

def prepare (files : Files) (c : Common) : Except CommandError (Path × Repository) := do
  let cwd ← (Path.parse c.cwd).mapError .badCwd
  return (cwd, ← loadRepository files c.repository)

def run (files : Files) (color : Bool) (a : Arguments) : Printed :=
  match prepare files a.common with
  | .error e => failed e
  | .ok (cwd, r) =>
    match a.command with
    | .diff d => runDiff files r.store cwd d
    | .list l => runList r.store color cwd l

end TreeDelta.CommandLine
