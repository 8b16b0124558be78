import Polytype.Fault
import Polytype.Store.Basic

/-!
# Unification

`Store.unify a b` binds unbound variables until `a` and `b` resolve to the same type. It goes
through both types from left to right, binds the variable of the left side first, and stops at the first
place where they cannot agree; what was bound before that place stays bound.

The recursion descends through constructors that stand in both types and *jumps* when a binding had
to be followed to reach them. In a store without cycles a path jumps at most twice per slot.
-/

namespace Polytype

/-- Why two types have no common instance. -/
inductive UnifyError where
  | mismatch (expected actual : Ty)
  | infinite (id : Int) (t : Ty)
  /-- A variable that does not belong to the store. -/
  | foreign (id : Int)
  /-- There is no answer. -/
  | broken (fault : Fault)
deriving DecidableEq

def UnifyError.message : UnifyError → String
  | mismatch expected actual =>
    "Type mismatch: expected " ++ expected.text ++ ", found " ++ actual.text
  | infinite id t => "Infinite type: " ++ (Ty.var id).text ++ " occurs in " ++ t.text
  | foreign id => "Type-variable " ++ (Ty.var id).text ++ " is not known to this inference context"
  | broken fault => fault.message?.getD ""

namespace Store

/-- A store after unification, and the error if it failed. -/
abbrev Unified := Store × Option UnifyError

def mismatch (s : Store) (a b : Ty) : Unified := (s, some (.mismatch (s.resolve a) (s.resolve b)))

/-- Binds an unbound variable, unless it occurs in the type. -/
def bindVar (s : Store) (id : Int) (t : Ty) : Unified :=
  if s.occurs id t then (s, some (.infinite id (s.resolve t)))
  else
    match s.bind? id t with
    | some s => (s, none)
    | none => (s, some (.broken .outOfRange))

/-- Unifies two types at the ends of their chains of bindings; `jump` continues below two
constructors. -/
def meet (jump : Ty → Ty → Store → Unified) (s : Store) : Ty → Ty → Unified
  | .var i, .var j =>
    if !s.owns i then (s, some (.foreign i))
    else if !s.owns j then (s, some (.foreign j))
    else if i = j then (s, none)
    else s.bindVar i (.var j)
  | .var i, b => if !s.owns i then (s, some (.foreign i)) else s.bindVar i b
  | .con n as, .var j => if !s.owns j then (s, some (.foreign j)) else s.bindVar j (.con n as)
  | .con n as, .con m bs => jump (.con n as) (.con m bs) s
  | a, b => s.mismatch a b

mutual

/-- Unifies two types, following bindings with `jump`. -/
def unifyStep (jump : Ty → Ty → Store → Unified) : Ty → Ty → Store → Unified
  | .con n as, .con m bs, s =>
    -- no look at the store: constructors are told apart as they stand
    if Ty.sameShape n as m bs then unifyArgs jump as bs s else s.mismatch (.con n as) (.con m bs)
  | a, b, s => s.meet jump (s.find a) (s.find b)

def unifyArgs (jump : Ty → Ty → Store → Unified) : List Ty → List Ty → Store → Unified
  | a :: as, b :: bs, s =>
    match unifyStep jump a b s with
    | (s, none) => unifyArgs jump as bs s
    | failed => failed
  | [], _, s => (s, none)
  | _ :: _, [], s => (s, some (.broken .outOfRange))

end

/-- Unifies two types with at most `jumps` jumps along a path. -/
def unifyWithin : (jumps : Nat) → Ty → Ty → Store → Unified
  | 0 => fun _ _ s => (s, some (.broken .endless))
  | jumps + 1 => unifyStep (unifyWithin jumps)

-- each jump follows a binding on one side or on both, and no side follows one twice
def unify (s : Store) (a b : Ty) : Unified := unifyWithin (2 * s.size + 1) a b s

end Store

end Polytype
