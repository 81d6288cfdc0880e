import TreeDelta.Revision
import TreeDelta.Store
set_option autoImplicit false

namespace TreeDelta

inductive UsageFault where
  | xmlWithoutSummary
  | gitSummary
  | propertyModes
  | depth (text : String)
  | lineCountMissing
  | lineCount (text : String)
  | extension (text : String)
  | outsideWorkingCopy (target : String)
  | badPath (e : SyntaxError)
  | rangeAndChange
  | changeNumber (text : String)
  | changeZero
  | sidesAndTargets
  | newWithoutOld
  | revisionNeeded (target : String)
deriving DecidableEq, Repr

def UsageFault.message : UsageFault → String
  | xmlWithoutSummary => "'--xml' option only valid with '--summarize' option"
  | gitSummary => "'--git' option cannot be combined with '--summarize'"
  | propertyModes => "'--properties-only' and '--ignore-properties' are mutually exclusive"
  | depth text => s!"'{text}' is not a valid depth"
  | lineCountMissing => "'-U' needs a line count"
  | lineCount text => s!"'{text}' is not a valid line count"
  | extension text => s!"invalid diff extension option '{text}'"
  | outsideWorkingCopy target => s!"'{target}' is outside the working copy"
  | badPath e => e.message
  | rangeAndChange => "'-r' and '-c' cannot be combined"
  | changeNumber text => s!"'{text}' is not a revision number"
  | changeZero => "there is no change to revision 0"
  | sidesAndTargets => "'--old'/'--new' cannot be combined with revisions or targets"
  | newWithoutOld => "'--new' requires '--old'"
  | revisionNeeded target => s!"'{target}': repository targets need a revision"

inductive UnsupportedFault where
  /-- The keyword speaks of a working copy and the target is a repository path. -/
  | keywordNeedsWorkingCopy (keyword : RevisionSpec) (target : String)
  | nothingBefore (target : String) (revision : Nat)
deriving DecidableEq, Repr

def UnsupportedFault.message : UnsupportedFault → String
  | keywordNeedsWorkingCopy keyword target =>
    s!"revision '{keyword}' requires a working copy target, got '{target}'"
  | nothingBefore target revision => s!"'{target}' has no revision before r{revision}"

inductive DiffError where
  | notFound (target : String)
  | usage (fault : UsageFault)
  | unsupported (fault : UnsupportedFault)
  | store (e : StoreError)
  | missingContent (id : ContentId)
deriving DecidableEq

def DiffError.message : DiffError → String
  | notFound target => s!"'{target}' was not found"
  | usage fault => fault.message
  | unsupported fault => "unsupported comparison: " ++ fault.message
  | store e => "store error: " ++ e.message
  | missingContent id => "content " ++ id.hex ++ " is missing from the store"

def asking {α : Type} (x : Except StoreError α) : Except DiffError α := x.mapError .store

end TreeDelta
