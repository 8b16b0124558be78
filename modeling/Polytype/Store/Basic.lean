import Polytype.Store.VarSet
import Polytype.Ty.Scheme

/-!
# The store of type variables

A store owns the variables `0, 1, 2, …` and keeps one slot for each: the variable itself while it is
unbound, and the type it is bound to afterwards. Chains of bindings are followed on reading.

The bindings of a store that was grown from the empty one by unification never form a cycle, so a
path through bindings meets each variable at most once. Every traversal carries the number of
bindings it may still follow, which starts at the number of slots; in a store without cycles that
number is never used up.
-/

namespace Polytype

/-- The slots of the variables that are in use. -/
structure Store where
  slots : Array Ty
deriving DecidableEq

namespace Store

def empty : Store := ⟨#[]⟩

instance : Inhabited Store := ⟨empty⟩

def size (s : Store) : Nat := s.slots.size

/-! ## Allocation -/

def fresh (s : Store) : Ty × Store :=
  let v := Ty.var s.size
  (v, ⟨s.slots.push v⟩)

def freshList : Nat → Store → List Ty × Store
  | 0, s => ([], s)
  | n + 1, s =>
    let (v, s) := s.fresh
    let (vs, s) := freshList n s
    (v :: vs, s)

/-- New unbound variables, for a count that has to be a natural number. -/
def freshList? (count : Int) (s : Store) : Option (List Ty × Store) :=
  if count < 0 then none else some (freshList count.toNat s)

/-! ## Slots -/

def owns (s : Store) (id : Int) : Bool := 0 ≤ id && id < s.size

def slot? (s : Store) (id : Int) : Option Ty :=
  if s.owns id then s.slots[id.toNat]? else none

/-- What a bound variable is bound to; nothing for an unbound or a foreign variable. -/
def binding? (s : Store) (id : Int) : Option Ty :=
  match s.slot? id with
  | some (.var j) => if j = id then none else some (.var j)
  | slot => slot

def isUnbound? (s : Store) (id : Int) : Option Bool :=
  (s.slot? id).map fun t => decide (t = .var id)

/-- Writes the slot of a variable; a foreign variable has none. -/
def bind (s : Store) (id : Int) (t : Ty) : Store :=
  if s.owns id then ⟨s.slots.setIfInBounds id.toNat t⟩ else s

/-- Writes the slot of a variable that has to belong to the store. -/
def bind? (s : Store) (id : Int) (t : Ty) : Option Store :=
  if s.owns id then some (s.bind id t) else none

/-! ## Traversals -/

/-- Follows at most `hops` bindings from a type. -/
def findWithin (s : Store) : (hops : Nat) → Ty → Ty
  | hops + 1, .var id =>
    match s.binding? id with
    | some t => findWithin s hops t
    | none => .var id
  | _, t => t

/-- The end of the chain of bindings that starts at a type: anything but a bound variable. -/
def find (s : Store) (t : Ty) : Ty := s.findWithin s.size t

/-- Replaces variables by their bindings, at most `hops` deep. -/
def resolveWithin (s : Store) : (hops : Nat) → Ty → Ty
  | 0, t => t
  | hops + 1, t => t.subst fun id =>
    match s.binding? id with
    | some u => resolveWithin s hops u
    | none => .var id

/-- The type with every bound variable replaced by what it stands for. -/
def resolve (s : Store) (t : Ty) : Ty := s.resolveWithin s.size t

def occursWithin (s : Store) (id : Int) : (hops : Nat) → Ty → Bool
  | 0, t => t.vars.contains id
  | hops + 1, t => t.vars.any fun j =>
    match s.binding? j with
    | some u => occursWithin s id hops u
    | none => j == id

def occurs (s : Store) (id : Int) (t : Ty) : Bool := s.occursWithin id s.size t

/-- The unbound variables of the store behind at most `hops` bindings, with repetitions. -/
def openWithin (s : Store) : (hops : Nat) → Ty → List Int
  | 0, t => t.vars.filter s.owns
  | hops + 1, t => t.vars.flatMap fun id =>
    match s.binding? id with
    | some u => openWithin s hops u
    | none => if s.owns id then [id] else []

/-- Adds the unbound variables of a resolved type to a set, from left to right. -/
def collect (s : Store) (vs : VarSet) (t : Ty) : VarSet := vs.addAll (s.openWithin s.size t)

/-- The unbound variables of a resolved type, in order of first occurrence. -/
def free (s : Store) (t : Ty) : VarSet := s.collect .empty t

end Store

/-! ## Instances of generic types -/

namespace Scheme

/-- The types that stand for parameters; of two parameters of one name the later counts. -/
def argument? (params : List String) (args : List Ty) (name : String) : Option Ty :=
  (params.zip args).reverse.lookup name

/-- The type of a scheme with a new variable for each parameter, and those variables. -/
def instantiate (g : Scheme) (s : Store) : (Ty × List Ty) × Store :=
  if g.params.isEmpty then ((g.body, []), s)
  else
    let (vars, s) := s.freshList g.params.length
    ((g.body.replace (argument? g.params vars), vars), s)

end Scheme

end Polytype
