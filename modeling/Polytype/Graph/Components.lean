import Polytype.Fault

/-!
# Strongly connected components

`Graph.components` splits the vertices of a finite graph into classes of mutual reachability and lists each
class after those that its edges lead to.

The search numbers the vertices in the order in which it meets them, and keeps those without a class on a
stack. The low link of a vertex is the least number on the stack that it is known to lead to. If this is its
own number when all its edges have been followed, then the vertex is the first of its class that was met, and
the others are those above it on the stack.
-/

namespace Polytype

/-- A graph on the vertices `0, 1, …`: the vertices that each one has an edge to. -/
abbrev Graph := Array (List Nat)

namespace Graph

structure Search where
  /-- How many vertices were met. -/
  count : Nat
  /-- The number of each vertex; zero if it was not met. -/
  index : Array Nat
  lowLink : Array Nat
  onStack : Array Bool
  /-- The vertices without a class, the latest first. -/
  stack : List Nat
  classes : Array (List Nat)

namespace Search

/-- Before a search of some number of vertices. -/
def start (size : Nat) : Search :=
  ⟨0, .replicate size 0, .replicate size 0, .replicate size false, [], #[]⟩

/-- A vertex is met. -/
def enter (s : Search) (v : Nat) : Except Fault Search := do
  let number := s.count + 1
  let index ← writeAt s.index v number
  let lowLink ← writeAt s.lowLink v number
  let onStack ← writeAt s.onStack v true
  return { s with count := number, index, lowLink, onStack, stack := v :: s.stack }

/-- A vertex leads to a number on the stack. -/
def lower (s : Search) (v number : Nat) : Except Fault Search := do
  if number < (← readAt s.lowLink v) then
    return { s with lowLink := ← writeAt s.lowLink v number }
  else return s

/-- Takes vertices off a stack, down to a given one: these, the stack that is left, and the marks. -/
def popTo (v : Nat) : List Nat → Array Bool → Except Fault (List Nat × List Nat × Array Bool)
  | [], _ => .error .outOfRange
  | w :: stack, onStack => do
    let onStack ← writeAt onStack w false
    if w = v then return ([w], stack, onStack)
    else
      let (popped, stack, onStack) ← popTo v stack onStack
      return (w :: popped, stack, onStack)

/-- All edges of a vertex have been followed. -/
def leave (s : Search) (v : Nat) : Except Fault Search := do
  -- a vertex that leads to no earlier one on the stack is the first of its class
  if (← readAt s.lowLink v) ≠ (← readAt s.index v) then return s
  else
    let (popped, stack, onStack) ← popTo v s.stack s.onStack
    return { s with
      stack, onStack, classes := s.classes.push (popped.mergeSort fun a b => decide (a ≤ b)) }

/-- Follows an edge; `visit` searches from a vertex that was not met before. -/
def follow (visit : Nat → Search → Except Fault Search) (v : Nat) (s : Search) (w : Nat) :
    Except Fault Search := do
  if (← readAt s.index w) = 0 then
    let s ← visit w s
    s.lower v (← readAt s.lowLink w)
  else if ← readAt s.onStack w then s.lower v (← readAt s.index w)
  else return s

end Search

/-- Searches from a vertex that was not met before, through at most `depth` nested calls. -/
def visit (g : Graph) : (depth : Nat) → Nat → Search → Except Fault Search
  | 0, _, _ => .error .endless
  | depth + 1, v, s => do
    let s ← s.enter v
    let s ← (← readAt g v).foldlM (Search.follow (visit g depth) v) s
    s.leave v

def visitNew (g : Graph) (depth : Nat) (s : Search) (v : Nat) : Except Fault Search := do
  if (← readAt s.index v) = 0 then g.visit depth v s else return s

def componentsWithin (g : Graph) (depth : Nat) : Except Fault (List (List Nat)) := do
  let s ← (List.range g.size).foldlM (g.visitNew depth) (.start g.size)
  return s.classes.toList

/-- The classes of mutual reachability, each in ascending order and after those it leads to. A path of
nested calls never meets a vertex twice. -/
def components (g : Graph) : Except Fault (List (List Nat)) := g.componentsWithin g.size

end Graph

end Polytype
