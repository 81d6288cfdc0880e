import TreeDelta.Data.Toml.Scalar
import TreeDelta.Data.Toml.Table
set_option autoImplicit false

namespace TreeDelta.Toml

def maxNesting : Nat := 79

def skipTrivia : Nat → Rest → Rest
  | 0, cs => cs
  | fuel + 1, cs =>
    match skipBlanks cs with
    | '#' :: rest =>
      match newline? (rest.dropWhile isPlain) with
      | some rest => skipTrivia fuel rest
      | none => '#' :: rest
    | cs =>
      match newline? cs with
      | some rest => skipTrivia fuel rest
      | none => cs

mutual

/-- A value; `room` is how many more levels may be opened. -/
def value? : Nat → Nat → Rest → Option (Data × Rest)
  | 0, _, _ => none
  | fuel + 1, room, cs =>
    match cs with
    | '[' :: rest =>
      match room with
      | 0 => none
      | room + 1 =>
        match skipTrivia fuel rest with
        | ']' :: rest => some (.list [], rest)
        | rest => do
          let (ds, rest) ← items? fuel room rest
          return (.list ds, rest)
    | '\x7b' :: rest =>
      match room with
      | 0 => none
      | room + 1 =>
        match skipBlanks rest with
        | '\x7d' :: rest => some (.record [], rest)
        | rest => do
          let (t, rest) ← entries? fuel room .empty rest
          return (t.data, rest)
    | '"' :: _ | '\'' :: _ => (text? fuel cs).map fun (s, rest) => (.text (String.ofList s), rest)
    | _ => scalar? cs

def items? : Nat → Nat → Rest → Option (List Data × Rest)
  | 0, _, _ => none
  | fuel + 1, room, cs => do
    let (d, rest) ← value? fuel room cs
    match skipTrivia fuel rest with
    | ']' :: rest => return ([d], rest)
    | ',' :: rest =>
      match skipTrivia fuel rest with
      | ']' :: rest => return ([d], rest)
      | rest =>
        let (ds, rest) ← items? fuel room rest
        return (d :: ds, rest)
    | _ => none

def entries? : Nat → Nat → Table → Rest → Option (Table × Rest)
  | 0, _, _, _ => none
  | fuel + 1, room, t, cs => do
    let (key, rest) ← key? fuel cs
    match rest with
    | '=' :: rest =>
      let (d, rest) ← value? fuel room (skipBlanks rest)
      let t ← t.insertValue key d
      match skipBlanks rest with
      | '\x7d' :: rest => return (t, rest)
      | ',' :: rest => entries? fuel room t rest
      | _ => none
    | _ => none

end

structure Document where
  root : Table
  /-- The table that the latest header opened. -/
  header : List String

def header? (fuel : Nat) (doc : Document) (cs : Rest) : Option (Document × Rest) := do
  let (element, cs) :=
    match cs with
    | '[' :: cs => (true, cs)
    | cs => (false, cs)
  let (key, rest) ← key? fuel cs
  let rest ← literal? (if element then "]]" else "]") rest
  let rest ← lineEnd? rest
  let root ← doc.root.openAt element key
  return (⟨root, key⟩, rest)

def keyValue? (fuel : Nat) (doc : Document) (cs : Rest) : Option (Document × Rest) := do
  let (key, rest) ← key? fuel cs
  let rest ← literal? "=" rest
  let (d, rest) ← value? fuel maxNesting (skipBlanks rest)
  let rest ← lineEnd? rest
  let root ← doc.root.insertBelow doc.header key d
  return ({ doc with root := root }, rest)

def document? : Nat → Document → Rest → Option Document
  | 0, _, _ => none
  | fuel + 1, doc, cs =>
    match skipBlanks cs with
    | [] => some doc
    | '#' :: rest => do document? fuel doc (← lineEnd? ('#' :: rest))
    | '[' :: rest => do
      let (doc, rest) ← header? fuel doc rest
      document? fuel doc rest
    | cs =>
      match newline? cs with
      | some rest => document? fuel doc rest
      | none => do
        let (doc, rest) ← keyValue? fuel doc cs
        document? fuel doc rest

/-- Reads a whole text. A byte order mark in front does not count. -/
def parse? (s : String) : Option Data :=
  let cs :=
    match s.toList with
    | '\ufeff' :: cs => cs
    | cs => cs
  (document? (2 * cs.length + 2) ⟨.empty, []⟩ cs).map fun doc => doc.root.data

end TreeDelta.Toml
