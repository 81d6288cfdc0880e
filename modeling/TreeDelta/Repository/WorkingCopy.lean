import TreeDelta.Repository.Commit
set_option autoImplicit false

namespace TreeDelta

inductive LocalEdit where
  | write (path : String) (content : Bytes)
  | append (path : String) (content : Bytes)
  | setProp (path name value : String)
  | deleteProp (path name : String)
  | makeDirectory (path : String)
  | delete (path : String)
  | copy (source target : String)
  /-- A copy, then the deletion of its source. -/
  | move (source target : String)
  | switch (path url : String) (revision : Nat)
deriving DecidableEq

def readPath (text : String) : Except StoreError Path := (Path.parse text).mapError .badText

namespace Repository

/-- Where an addition at `p` belongs in the repository, and whether it takes the
place of a node of the parent's base revision. -/
def newLocation (r : Repository) (p : Path) : Except StoreError (Path × Bool) := do
  let w ← r.workingTree
  if w.contains p then .error (.invalidOperation p .alreadyExists)
  else match p.parent?, p.name? with
    | some dir, some name =>
      match (w.get? dir).filter fun d => d.kind == .directory with
      | none => .error (.invalidOperation p .parentNotDirectory)
      | some d =>
        let reposPath := d.reposPath.child name
        match d.base with
        | none => .ok (reposPath, false)
        | some n => do return (reposPath, (← r.snapshot n).contains reposPath)
    | _, _ => .error (.invalidOperation p .rootAdded)

def setFile (r : Repository) (p : Path) (id : ContentId) : Except StoreError Repository := do
  let w ← r.workingTree
  match w.get? p with
  | some node =>
    if node.kind == .file then
      .ok { r with working := some (w.insert p { node with content := some id }) }
    else .error (.invalidOperation p .notFile)
  | none => do
    let (reposPath, replaced) ← r.newLocation p
    .ok { r with working := some (w.insert p (.added .file (some id) reposPath replaced)) }

/-- The content is kept before the path is looked at. -/
def write (r : Repository) (path : String) (data : Bytes) : Outcome :=
  match readPath path with
  | .error e => (r, .error e)
  | .ok p =>
    let r' := r.putContent data
    r'.attempt (r'.setFile p (.ofBytes data))

def append (r : Repository) (path : String) (data : Bytes) : Except StoreError Repository := do
  let p ← readPath path
  let w ← r.workingTree
  match (w.get? p).filter fun node => node.kind == .file with
  | none => .error (.notFound p)
  | some node =>
    match node.content with
    | none => .error (.notFound p)
    | some old =>
      match r.blobs.get? old with
      | none => .error (.missingContent old)
      | some before =>
        let after := before ++ data
        .ok { r.putContent after with
          working := some (w.insert p { node with content := some (.ofBytes after) }) }

def changeProps (r : Repository) (path : String) (f : Props → Props) :
    Except StoreError Repository := do
  let p ← readPath path
  let w ← r.workingTree
  match w.get? p with
  | none => .error (.notFound p)
  | some node => .ok { r with working := some (w.insert p { node with props := f node.props }) }

def makeDirectory (r : Repository) (path : String) : Except StoreError Repository := do
  let p ← readPath path
  let (reposPath, replaced) ← r.newLocation p
  let w ← r.workingTree
  .ok { r with working := some (w.insert p (.added .directory none reposPath replaced)) }

def delete (r : Repository) (path : String) : Except StoreError Repository := do
  let p ← readPath path
  if p.isRoot then .error (.invalidOperation p .rootDeleted)
  else do
    let w ← r.workingTree
    if w.contains p then .ok { r with working := some (withoutSubtree w p) }
    else .error (.notFound p)

/-- A copied node names the committed node it comes from, if there is one. -/
def copyOf (w : WorkingNode) (reposPath : Path) (replaced : Bool) : WorkingNode where
  kind := w.kind
  content := w.content
  props := w.props
  reposPath := reposPath
  base := none
  changed := none
  copySource :=
    match w.base with
    | some n => some ⟨w.reposPath, n⟩
    | none => w.copySource
  replaced := replaced

def copy (r : Repository) (source target : String) : Except StoreError Repository := do
  let p ← readPath source
  let q ← readPath target
  if q.isAtOrBelow p then .error (.invalidOperation q .copiedIntoItself)
  else do
    let w ← r.workingTree
    if !w.contains p then .error (.notFound p)
    else do
      let (reposPath, replaced) ← r.newLocation q
      let copies := (subtree w p).map fun (rel, node) =>
        (q.join rel, copyOf node (reposPath.join rel) (replaced && rel.isRoot))
      .ok { r with working := some (w.insertMany copies) }

def move (r : Repository) (source target : String) : Outcome :=
  match r.copy source target with
  | .error e => (r, .error e)
  | .ok r' => r'.attempt (r'.delete source)

def repositoryPath (url : String) : String := String.ofList (url.toList.dropWhile (· == '^'))

def switch (r : Repository) (path url : String) (n : Nat) : Except StoreError Repository := do
  let p ← readPath path
  let q ← readPath (repositoryPath url)
  let s ← r.snapshot n
  let w ← r.workingTree
  match w.get? p, s.get? q with
  | none, _ => .error (.notFound p)
  | some _, none => .error (.notFound q)
  | some here, some there =>
    if here.kind != there.kind then .error (.invalidOperation p .kindDiffers)
    else
      let nodes := (subtree s q).map fun (rel, record) =>
        (p.join rel, WorkingNode.ofRecord record (q.join rel) n)
      .ok { r with working := some ((withoutSubtree w p).insertMany nodes) }

def edit (r : Repository) : LocalEdit → Outcome
  | .write path content => r.write path content
  | .append path content => r.attempt (r.append path content)
  | .setProp path name value => r.attempt (r.changeProps path (·.insert name value))
  | .deleteProp path name => r.attempt (r.changeProps path (·.erase name))
  | .makeDirectory path => r.attempt (r.makeDirectory path)
  | .delete path => r.attempt (r.delete path)
  | .copy source target => r.attempt (r.copy source target)
  | .move source target => r.move source target
  | .switch path url n => r.attempt (r.switch path url n)

end Repository

inductive Operation where
  | commit (draft : Draft)
  | commitWorkingCopy
  | checkout (revision : Nat)
  | edit (change : LocalEdit)
  | putContent (data : Bytes)
deriving DecidableEq

def Operation.run (r : Repository) : Operation → Outcome
  | .commit draft => r.commit draft
  | .commitWorkingCopy => r.attempt r.commitWorkingCopy
  | .checkout n => r.attempt (r.checkout n)
  | .edit change => r.edit change
  | .putContent data => (r.putContent data, .ok ())

end TreeDelta
