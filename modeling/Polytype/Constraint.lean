import Polytype.Expr.Basic
import Polytype.Traversals

/-!
# Constraints

Equations between types that wait to be solved, each with the expression that asked for it. They are
solved in the order in which they came, and the first one without a solution is to blame.
-/

namespace Polytype

/-- Two types that have to agree, and the expression that needs it. -/
structure Constraint where
  expected : Ty
  actual : Ty
  expr : Expr

/-- The constraints that wait, the oldest first. -/
abbrev Queue := Array Constraint

namespace Queue

variable [Traversals]

def emit (q : Queue) (expected actual : Ty) (expr : Expr) : Queue := q.push ⟨expected, actual, expr⟩

/-- Unifies both sides of each constraint in turn, up to the first that fails; it is returned with
the error. -/
def solveList (s : Store) : List Constraint → Store × Option (UnifyError × Expr)
  | [] => (s, none)
  | c :: cs =>
    match Traversals.unify s c.expected c.actual with
    | (s, none) => solveList s cs
    | (s, some e) => (s, some (e, c.expr))

/-- Solves all constraints. The queue is empty afterwards, or as before when one of them failed. -/
def solve (q : Queue) (s : Store) : (Store × Option (UnifyError × Expr)) × Queue :=
  match solveList s q.toList with
  | (s, none) => ((s, none), #[])
  | failed => (failed, q)

end Queue

end Polytype
