set_option autoImplicit false

namespace TreeDelta

inductive PathFault where
  | leavesTree
  | propertyOfMissingNode
  | ancestryOfMissingNode
deriving DecidableEq, Repr

def PathFault.message : PathFault → String
  | .leavesTree => "'..' is not allowed in a tree-relative path"
  | .propertyOfMissingNode => "cannot set a property on a missing node"
  | .ancestryOfMissingNode => "cannot record ancestry of a missing node"

inductive SyntaxError where
  | revision (text : String)
  | eolStyle (text : String)
  | path (text : String) (fault : PathFault)
deriving DecidableEq, Repr

def SyntaxError.message : SyntaxError → String
  | .revision text => s!"syntax error in revision argument '{text}'"
  | .eolStyle text => s!"unrecognized eol style '{text}'"
  | .path text fault => s!"invalid path '{text}': " ++ fault.message

end TreeDelta
