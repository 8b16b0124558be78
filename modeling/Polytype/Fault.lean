/-!
# Faults

What keeps a computation from coming to a result. No program from a document and no environment from a
configuration leads to one; trees and stores that are put together by hand may.
-/

namespace Polytype

/-- Why there is no result. -/
inductive Fault where
  | unknownKind (kind : String)
  | missingFunction
  /-- An environment binds a name to no type. -/
  | missingScheme
  /-- A list, an array or a store has no such place. -/
  | outOfRange
  /-- A recursion goes on for ever. -/
  | endless
deriving DecidableEq

def Fault.message? : Fault → Option String
  | unknownKind kind => some ("unknown expression type: " ++ kind)
  | missingFunction | missingScheme | outOfRange | endless => none

def readAt {α : Type} (a : Array α) (i : Nat) : Except Fault α :=
  match a[i]? with
  | some x => .ok x
  | none => .error .outOfRange

def writeAt {α : Type} (a : Array α) (i : Nat) (x : α) : Except Fault (Array α) :=
  if i < a.size then .ok (a.setIfInBounds i x) else .error .outOfRange

end Polytype
