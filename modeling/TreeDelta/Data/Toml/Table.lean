import TreeDelta.Data.Basic
set_option autoImplicit false

namespace TreeDelta.Toml

inductive Item where
  | value (d : Data)
  /-- `implicit`: named only on the way to something else. `dotted`: made by a dotted key. -/
  | table (implicit dotted : Bool) (entries : List (String × Item))
  /-- An array of tables, the latest element first. -/
  | tables (elements : List (List (String × Item)))

structure Table where
  implicit : Bool
  dotted : Bool
  entries : List (String × Item)

namespace Table

def empty : Table := ⟨false, false, []⟩

def item (t : Table) : Item := .table t.implicit t.dotted t.entries

def put (k : String) (x : Item) : List (String × Item) → List (String × Item)
  | [] => [(k, x)]
  | e :: rest => if e.1 = k then (k, x) :: rest else e :: put k x rest

def set (t : Table) (k : String) (x : Item) : Table := { t with entries := put k x t.entries }

def get? (t : Table) (k : String) : Option Item := t.entries.lookup k

/-- Changes the table at the end of a path. Missing tables are made on the way,
arrays of tables are entered at their latest element. -/
def update (dotted : Bool) (f : Table → Option Table) : List String → Table → Option Table
  | [], t => f t
  | k :: ks, t =>
    match t.get? k with
    | none => (update dotted f ks ⟨true, dotted, []⟩).map fun sub => t.set k sub.item
    | some (.value _) => none
    | some (.table implicit dotted' entries) =>
      if dotted && !implicit then none
      else (update dotted f ks ⟨implicit, dotted', entries⟩).map fun sub => t.set k sub.item
    | some (.tables []) => none
    | some (.tables (entries :: earlier)) =>
      (update dotted f ks ⟨false, false, entries⟩).map fun sub =>
        t.set k (.tables (sub.entries :: earlier))

def addValue (viaDots : Bool) (k : String) (d : Data) (t : Table) : Option Table :=
  if t.dotted != viaDots || (t.get? k).isSome then none else some (t.set k (.value d))

def insertValue (t : Table) (key : List String) (d : Data) : Option Table :=
  match key.getLast? with
  | none => none
  | some k => update true (addValue (key.length > 1) k d) key.dropLast t

def openTable (k : String) (t : Table) : Option Table :=
  match t.get? k with
  | none => some (t.set k (.table false false []))
  | some (.table true false entries) => some (t.set k (.table false false entries))
  | some _ => none

def openElement (k : String) (t : Table) : Option Table :=
  match t.get? k with
  | none => some (t.set k (.tables [[]]))
  | some (.tables elements) => some (t.set k (.tables ([] :: elements)))
  | some _ => none

def openAt (element : Bool) (t : Table) (key : List String) : Option Table :=
  match key.getLast? with
  | none => none
  | some k => update false (if element then openElement k else openTable k) key.dropLast t

def insertBelow (t : Table) (header key : List String) (d : Data) : Option Table :=
  update false (fun sub => sub.insertValue key d) header t

end Table

mutual

def Item.data : Item → Data
  | .value d => d
  | .table _ _ entries => .record (fieldsData entries)
  | .tables elements => .list (elementsData elements [])

def fieldsData : List (String × Item) → List (String × Data)
  | [] => []
  | (k, x) :: rest => (k, x.data) :: fieldsData rest

def elementsData : List (List (String × Item)) → List Data → List Data
  | [], done => done
  | entries :: earlier, done => elementsData earlier (.record (fieldsData entries) :: done)

end

def Table.data (t : Table) : Data := t.item.data

end TreeDelta.Toml
