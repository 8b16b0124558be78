import Polytype.NameSupply
import Polytype.Store.Unify

/-!
# Searches

What inference does that is not bounded by the size of a program: it follows the bindings of a store, and
looks for a name that is not in use. Inference is written for any way to do this. The one that runs has
budgets, which are never used up where the bindings have no cycle.
-/

namespace Polytype

/-- The searches that inference makes; one that does not end is a fault. -/
class Traversals where
  unify : Store → Ty → Ty → Store.Unified
  resolve : Store → Ty → Except Fault Ty
  collect : Store → VarSet → Ty → Except Fault VarSet
  /-- The next name that is not set aside and is no constructor of a type. -/
  nextName : NameSupply → Ty → Except Fault (String × NameSupply)

/-- The searches within their budgets. -/
instance Traversals.bounded : Traversals where
  unify := Store.unify
  resolve s t := .ok (s.resolve t)
  collect s vs t := .ok (s.collect vs t)
  nextName names t := .ok (names.takeAvoiding t)

end Polytype
