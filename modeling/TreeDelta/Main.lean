import TreeDelta.CommandLine.Run
set_option autoImplicit false

namespace TreeDelta.CommandLine

def Arguments.files (a : Arguments) : List String :=
  match a.command with
  | .diff d => a.common.repository :: d.config.toList
  | .list _ => [a.common.repository]

def usageText : String :=
  "usage: revdiff [-v] [--repo FILE] [--cwd DIR] diff [OPTION]... [TARGET]...\n" ++
    "       revdiff [-v] [--repo FILE] [--cwd DIR] ls [-r REV] [TARGET]"

def versionText : String := "revdiff 0.1.0"

def WordFault.message : WordFault → String
  | helpAsked | nothingGiven => usageText
  | versionAsked => versionText
  | subcommandMissing => "error: a subcommand is needed"
  | unknownSubcommand => "error: unknown subcommand"
  | unknownArgument => "error: unexpected argument"
  | conflict => "error: an option is given more than once"
  | invalidValue => "error: an option lacks its value"
  | tooManyValues => "error: a flag takes no value"

def WordFault.isAnswer : WordFault → Bool
  | helpAsked | versionAsked => true
  | _ => false

def readText (file : String) : IO (Option String) := do
  match ← (IO.FS.readFile file).toBaseIO with
  | .ok text => return some text
  | .error _ => return none

def readFiles (names : List String) : IO Files := do
  let texts ← names.mapM fun name => do return (name, ← readText name)
  return fun name => (texts.lookup name).join

def execute (a : Arguments) : IO UInt32 := do
  let stdout ← IO.getStdout
  let printed := run (← readFiles a.files) (← stdout.isTty) a
  stdout.write ⟨printed.out.toArray⟩
  match printed.outcome with
  | .ok _ => return 0
  | .error e =>
    IO.eprintln ("revdiff: " ++ e.message)
    return 1

end TreeDelta.CommandLine

open TreeDelta.CommandLine

def main (words : List String) : IO UInt32 := do
  match Arguments.parse words with
  | .ok a => execute a
  | .error fault =>
    if fault.isAnswer then
      IO.println fault.message
      return 0
    else
      IO.eprintln fault.message
      return 2
