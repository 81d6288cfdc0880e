set_option autoImplicit false

/-!
# Words of a command line

The value of an option may be attached or be the next word; a next word that
starts with a dash is only taken by options that say so. Two dashes end the
options. An option that waits for its value, or has just got it, is settled before
the next one is begun, and faults are found in this order.
-/
namespace TreeDelta.CommandLine

inductive WordFault where
  | helpAsked
  | versionAsked
  | nothingGiven
  | subcommandMissing
  | unknownSubcommand
  | unknownArgument
  | conflict
  | invalidValue
  | tooManyValues
deriving DecidableEq, Repr

inductive OptionKind where
  | flag
  | help
  | version
  /-- `anyWord`: takes the next word whatever it is. `nonempty`: refuses an empty value. -/
  | value (anyWord nonempty : Bool)
deriving DecidableEq, Repr

structure OptionSpec where
  name : String
  short : Option Char
  kind : OptionKind
deriving DecidableEq, Repr

def OptionSpec.takesValue (o : OptionSpec) : Bool :=
  match o.kind with
  | .value _ _ => true
  | _ => false

def OptionSpec.takesAnyWord (o : OptionSpec) : Bool :=
  match o.kind with
  | .value anyWord _ => anyWord
  | _ => false

def OptionSpec.accepts (o : OptionSpec) (value : String) : Bool :=
  match o.kind with
  | .value _ nonempty => !(nonempty && value.isEmpty)
  | _ => true

inductive PlainWords where
  | subcommand (names : List String)
  | atMost (n : Nat)
  | any
deriving DecidableEq, Repr

structure Level where
  options : List OptionSpec
  plain : PlainWords
deriving DecidableEq, Repr

/-- What has been read of a level. -/
structure Reading where
  /-- Options by name; a flag has the empty value. -/
  values : List (String × String)
  words : List String
  /-- An option begun and its value, if it has got it. -/
  pending : Option (OptionSpec × Option String)
  plainOnly : Bool
deriving DecidableEq, Repr

namespace Reading

def start : Reading := ⟨[], [], none, false⟩

def has (r : Reading) (name : String) : Bool := r.values.any fun v => v.1 == name

def value? (r : Reading) (name : String) : Option String := r.values.lookup name

def store (r : Reading) (o : OptionSpec) (value : String) : Except WordFault Reading :=
  if r.has o.name then .error .conflict
  else if !o.accepts value then .error .invalidValue
  else .ok { r with values := r.values ++ [(o.name, value)] }

def settle (r : Reading) : Except WordFault Reading :=
  match r.pending with
  | none => .ok r
  | some (_, none) => .error .invalidValue
  | some (o, some value) => store { r with pending := none } o value

def waiting? (r : Reading) : Option OptionSpec :=
  match r.pending with
  | some (o, none) => some o
  | _ => none

def flag (r : Reading) (o : OptionSpec) : Except WordFault Reading := do
  let r ← r.settle
  match o.kind with
  | .help => .error .helpAsked
  | .version => .error .versionAsked
  | _ => r.store o ""

def option (r : Reading) (o : OptionSpec) (attached : Option String) : Except WordFault Reading := do
  let r ← r.settle
  match attached with
  | some value => r.store o value
  | none => .ok { r with pending := some (o, none) }

end Reading

/-- The value attached to a short option; one `=` in front does not count. -/
def attachedValue : List Char → Option String
  | [] => none
  | '=' :: cs => some (String.ofList cs)
  | cs => some (String.ofList cs)

namespace Level

def readShort (l : Level) : Reading → List Char → Except WordFault Reading
  | r, [] => .ok r
  | r, c :: cs =>
    match l.options.find? fun o => o.short == some c with
    | none => .error .unknownArgument
    | some o => do
      if o.takesValue then r.option o (attachedValue cs)
      else l.readShort (← r.flag o) cs

def splitLong : List Char → List Char × Option String
  | [] => ([], none)
  | '=' :: cs => ([], some (String.ofList cs))
  | c :: cs => let (name, value) := splitLong cs; (c :: name, value)

def readLong (l : Level) (r : Reading) (cs : List Char) : Except WordFault Reading :=
  let (name, value) := splitLong cs
  match l.options.find? fun o => o.name == String.ofList name with
  | none => .error .unknownArgument
  | some o =>
    if o.takesValue then r.option o value
    else if value.isSome then .error .tooManyValues
    else r.flag o

def isSubcommand (l : Level) (word : String) : Bool :=
  match l.plain with
  | .subcommand names => names.contains word
  | _ => false

def readPlain (l : Level) (r : Reading) (word : String) : Except WordFault Reading :=
  match l.plain with
  | .subcommand names =>
    .error (if r.plainOnly && names.contains word then .unknownArgument else .unknownSubcommand)
  | .atMost n =>
    if r.words.length < n then do
      let r ← r.settle
      .ok { r with words := r.words ++ [word] }
    else .error .unknownArgument
  | .any => do
    let r ← r.settle
    .ok { r with words := r.words ++ [word] }

def readWord (l : Level) (r : Reading) (word : String) : Except WordFault Reading :=
  let asValue (o : OptionSpec) : Except WordFault Reading := .ok { r with pending := some (o, some word) }
  match word.toList with
  | '-' :: '-' :: [] => .ok { r with plainOnly := true }
  | '-' :: '-' :: cs => l.readLong r cs
  | '-' :: c :: cs => l.readShort r (c :: cs)
  | _ =>
    match r.waiting? with
    | some o => asValue o
    | none => l.readPlain r word

/-- What a level leaves: its reading, and a subcommand with the words after it. -/
abbrev Outcome := Reading × Option (String × List String)

def read (l : Level) : Reading → List String → Except WordFault Outcome
  | r, [] => .ok (r, none)
  | r, word :: rest => do
    if r.plainOnly then l.read (← l.readPlain r word) rest
    else match r.waiting? with
      | some o =>
        if o.takesAnyWord then l.read { r with pending := some (o, some word) } rest
        else l.read (← l.readWord r word) rest
      | none =>
        if l.isSubcommand word then .ok (r, some (word, rest))
        else l.read (← l.readWord r word) rest

end Level

end TreeDelta.CommandLine
