import TreeDelta.CommandLine.Words
set_option autoImplicit false

namespace TreeDelta.CommandLine

structure Common where
  verbose : Bool
  repository : String
  cwd : String
deriving DecidableEq, Repr

structure DiffArguments where
  targets : List String
  revision : Option String
  change : Option String
  old : Option String
  new : Option String
  config : Option String
  extensions : Option String
  depth : Option String
  summarize : Bool
  xml : Bool
  git : Bool
  noticeAncestry : Bool
  showCopiesAsAdds : Bool
  force : Bool
  ignoreContentType : Bool
  ignoreProperties : Bool
  propertiesOnly : Bool
  noDiffAdded : Bool
  noDiffDeleted : Bool
deriving DecidableEq, Repr

structure ListArguments where
  target : String
  revision : String
deriving DecidableEq, Repr

inductive Command where
  | diff (arguments : DiffArguments)
  | list (arguments : ListArguments)
deriving DecidableEq, Repr

structure Arguments where
  common : Common
  command : Command
deriving DecidableEq, Repr

def flagOption (name : String) : OptionSpec := ⟨name, none, .flag⟩

def valueOption (name : String) (short : Option Char) : OptionSpec := ⟨name, short, .value false false⟩

def wordOption (name : String) (short : Char) : OptionSpec := ⟨name, some short, .value true false⟩

def fileOption (name : String) : OptionSpec := ⟨name, none, .value false true⟩

def helpOption : OptionSpec := ⟨"help", some 'h', .help⟩

def commonOptions : List OptionSpec :=
  [⟨"verbose", some 'v', .flag⟩, fileOption "repo", valueOption "cwd" none, helpOption]

def topLevel : Level where
  options := commonOptions ++ [⟨"version", some 'V', .version⟩]
  plain := .subcommand ["diff", "ls", "help"]

def diffFlags : List String :=
  ["summarize", "xml", "git", "notice-ancestry", "show-copies-as-adds", "force",
   "ignore-content-type", "ignore-properties", "properties-only", "no-diff-added",
   "no-diff-deleted"]

def diffLevel : Level where
  options :=
    commonOptions ++ diffFlags.map flagOption ++
      [valueOption "revision" (some 'r'), wordOption "change" 'c', valueOption "old" none,
       valueOption "new" none, fileOption "config", wordOption "extensions" 'x',
       valueOption "depth" none]
  plain := .any

def listLevel : Level where
  options := commonOptions ++ [valueOption "revision" (some 'r')]
  plain := .atMost 1

def readHelp : List String → WordFault
  | [] => .helpAsked
  | [word] => if topLevel.isSubcommand word then .helpAsked else .unknownSubcommand
  | _ => .unknownSubcommand

def readLevel (l : Level) (words : List String) : Except WordFault Reading := do
  let (r, _) ← l.read .start words
  r.settle

def diffArguments (r : Reading) : DiffArguments where
  targets := r.words
  revision := r.value? "revision"
  change := r.value? "change"
  old := r.value? "old"
  new := r.value? "new"
  config := r.value? "config"
  extensions := r.value? "extensions"
  depth := r.value? "depth"
  summarize := r.has "summarize"
  xml := r.has "xml"
  git := r.has "git"
  noticeAncestry := r.has "notice-ancestry"
  showCopiesAsAdds := r.has "show-copies-as-adds"
  force := r.has "force"
  ignoreContentType := r.has "ignore-content-type"
  ignoreProperties := r.has "ignore-properties"
  propertiesOnly := r.has "properties-only"
  noDiffAdded := r.has "no-diff-added"
  noDiffDeleted := r.has "no-diff-deleted"

def listArguments (r : Reading) : ListArguments where
  target := r.words.headD "."
  revision := (r.value? "revision").getD "WORKING"

def defaultRepository : String := "revdiff.toml"

/-- Options of the subcommand win over those before it. -/
def commonOf (outer inner : Reading) : Common where
  verbose := outer.has "verbose" || inner.has "verbose"
  repository := ((inner.value? "repo").or (outer.value? "repo")).getD defaultRepository
  cwd := ((inner.value? "cwd").or (outer.value? "cwd")).getD ""

def Arguments.parse (words : List String) : Except WordFault Arguments := do
  let (outer, found) ← topLevel.read .start words
  match found with
  | some ("diff", rest) =>
    let inner ← readLevel diffLevel rest
    let outer ← outer.settle
    return ⟨commonOf outer inner, .diff (diffArguments inner)⟩
  | some ("ls", rest) =>
    let inner ← readLevel listLevel rest
    let outer ← outer.settle
    return ⟨commonOf outer inner, .list (listArguments inner)⟩
  | some (_, rest) => .error (readHelp rest)
  | none =>
    let outer ← outer.settle
    .error (if outer.values.isEmpty then .nothingGiven else .subcommandMissing)

end TreeDelta.CommandLine
