import TreeDelta.Node
set_option autoImplicit false

namespace TreeDelta

inductive OperationFault where
  | alreadyExists
  | rootAdded
  | parentNotDirectory
  | notFile
  | rootDeleted
  | copiedIntoItself
  | kindDiffers
  | switchedCommit
deriving DecidableEq, Repr

def OperationFault.message : OperationFault → String
  | alreadyExists => "already exists"
  | rootAdded => "the root cannot be added"
  | parentNotDirectory => "parent is not a versioned directory"
  | notFile => "not a file"
  | rootDeleted => "the root cannot be deleted"
  | copiedIntoItself => "cannot copy a node into itself"
  | kindDiffers => "cannot switch to a node of a different kind"
  | switchedCommit => "cannot commit a switched working copy"

inductive StoreError where
  | notFound (path : Path)
  | noSuchRevision (n : Nat)
  | noWorkingCopy
  | missingContent (id : ContentId)
  | invalidOperation (path : Path) (fault : OperationFault)
  | badText (e : SyntaxError)
deriving DecidableEq

def StoreError.message : StoreError → String
  | notFound path => s!"path not found: '{path}'"
  | noSuchRevision n => s!"no such revision {n}"
  | noWorkingCopy => "no working copy is available"
  | missingContent id => "content " ++ id.hex ++ " is missing"
  | invalidOperation path fault => s!"invalid operation on '{path}': " ++ fault.message
  | badText e => e.message

structure Bookkeeping where
  reposPath : Path
  /-- The revision of the unmodified node, `none` for a local addition. -/
  base : Option Nat
  changed : Option Nat
deriving DecidableEq

structure Store where
  /-- The node at a path, `none` if nothing is there. -/
  node? : Path → Origin → Except StoreError (Option Node)
  children : Path → Origin → Except StoreError (List Name)
  copySource? : Path → Origin → Except StoreError (Option CopySource)
  content? : ContentId → Except StoreError (Option Bytes)
  youngest : Except StoreError Nat
  /-- What the working copy has recorded, `none` for an unversioned path. -/
  bookkeeping? : Path → Except StoreError (Option Bookkeeping)
  /-- No node at the origin lies deeper. -/
  height : Origin → Nat

end TreeDelta
