-- SUMMARY: What can go wrong in actions and trees, and how it is worded.

/-! # Errors -/

namespace FormatFuzz

inductive ActionError where
  /-- An encoding rejected its input. -/
  | codec (action reason : String)
  | notReversible (action : String)
  | custom (message : String)
  deriving DecidableEq, Repr

def ActionError.message : ActionError → String
  | .codec action reason => s!"{action} failed: {reason}"
  | .notReversible action => s!"{action} has no inverse"
  | .custom message => message

/-- Errors of building, resolving or restructuring a tree. -/
inductive TreeError where
  /-- A bound reference leads nowhere, or to an element that does not exist. -/
  | bindingUnresolved (field target : String)
  /-- A value has a shape that the field cannot pack. -/
  | unknownValueKind (field found : String)
  /-- A codec was asked for something it does not provide. -/
  | notImplemented (kind method : String)
  /-- A path matched no node. -/
  | fieldNotFound (start path : String)
  /-- The node was discarded, or never existed. -/
  | unknownNode (index : Nat)
  /-- A count was asked of a node that is not a repeated group. -/
  | notRepeated (field : String)
  /-- Resolving the field led back to it. -/
  | cyclicDependency (field : String)
  | action (error : ActionError)
  /-- Groups or resolutions are nested deeper than any tree of this size calls for. -/
  | nestingLimit
  deriving DecidableEq, Repr

def TreeError.message : TreeError → String
  | .bindingUnresolved field target => s!"Binding of '{field}' to '{target}' cannot be resolved"
  | .unknownValueKind field found => s!"Field '{field}' cannot encode a {found} value"
  | .notImplemented kind method => s!"{kind} does not implement '{method}'"
  | .fieldNotFound start path => s!"No field at path '{path}' (looked up from '{start}')"
  | .unknownNode index => s!"Node id {index} is not part of the tree"
  | .notRepeated field => s!"Field '{field}' is not a repeated group"
  | .cyclicDependency field => s!"Cyclic dependency while resolving '{field}'"
  | .action error => s!"Action failed: {error.message}"
  | .nestingLimit => "Nesting limit exceeded"

end FormatFuzz
