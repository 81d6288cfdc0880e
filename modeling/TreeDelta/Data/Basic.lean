import TreeDelta.OrderedMap
set_option autoImplicit false

namespace TreeDelta

inductive Data where
  | null
  | bool (b : Bool)
  | integer (n : Int)
  | real
  | text (s : String)
  | list (items : List Data)
  | record (fields : List (String × Data))
  /-- Well formed, but its value cannot be held; only good to be passed over. -/
  | unreadable

/-- The two notations differ in how the empty payload of a choice is written. -/
inductive Notation where
  | json
  | toml
deriving DecidableEq, Repr

namespace Data

mutual

def height : Data → Nat
  | list items => heightOfItems items + 1
  | record fields => heightOfFields fields + 1
  | _ => 0

def heightOfItems : List Data → Nat
  | [] => 0
  | d :: ds => max d.height (heightOfItems ds)

def heightOfFields : List (String × Data) → Nat
  | [] => 0
  | (_, d) :: ds => max d.height (heightOfFields ds)

end

mutual

def isReadable : Data → Bool
  | list items => itemsReadable items
  | record fields => fieldsReadable fields
  | unreadable => false
  | _ => true

def itemsReadable : List Data → Bool
  | [] => true
  | d :: ds => d.isReadable && itemsReadable ds

def fieldsReadable : List (String × Data) → Bool
  | [] => true
  | (_, d) :: ds => d.isReadable && fieldsReadable ds

end

def bool? : Data → Option Bool
  | bool b => some b
  | _ => none

def text? : Data → Option String
  | text s => some s
  | _ => none

def natBelow? (bound : Nat) : Data → Option Nat
  | integer (.ofNat n) => if n < bound then some n else none
  | _ => none

def number? (d : Data) : Option Nat := d.natBelow? UInt64.size

def optional? {α : Type} (read : Data → Option α) : Data → Option (Option α)
  | null => some none
  | d => (read d).map some

def listOf? {α : Type} (read : Data → Option α) : Data → Option (List α)
  | list items => items.mapM read
  | _ => none

/-- A map by name. Of two entries with one name the last counts; both must read. -/
def mapOf? {α : Type} (read : Data → Option α) : Data → Option (OrderedMap String α)
  | record fields => (fields.mapM fun f => (read f.2).map fun x => (f.1, x)).map OrderedMap.ofList
  | _ => none

def isEmptyPayload : Notation → Data → Bool
  | .json, null => true
  | .toml, list [] => true
  | .toml, record [] => true
  | _, _ => false

def choice? {α : Type} (n : Notation) (choices : List (String × α)) : Data → Option α
  | text s => choices.lookup s
  | record [(s, payload)] => if payload.isEmptyPayload n then choices.lookup s else none
  | _ => none

/-- The fields of a structure in the order of `names`; none of them given twice. In
TOML a list may go on after the last field. -/
def fields? (n : Notation) (names : List String) : Data → Option (List (Option Data))
  | record fields =>
    if names.all fun name => (fields.filter fun f => f.1 == name).length ≤ 1 then
      some (names.map fun name => List.lookup name fields)
    else none
  | list items =>
    if n = .json && names.length < items.length then none
    else some ((items.take names.length).map some ++ List.replicate (names.length - items.length) none)
  | _ => none

def orDefault? {α : Type} (standard : α) (read : Data → Option α) : Option Data → Option α
  | none => some standard
  | some d => read d

def required? {α : Type} (read : Data → Option α) (d : Option Data) : Option α := d.bind read

end Data

end TreeDelta
