/-!
# Sets of type variables

A set of variable numbers that remembers the order in which they came.
-/

namespace Polytype

/-- Variable numbers without repetition, in order of arrival. -/
structure VarSet where
  ids : List Int
  nodup : ids.Nodup

namespace VarSet

def empty : VarSet := ⟨[], List.nodup_nil⟩

instance : Inhabited VarSet := ⟨empty⟩

def has (vs : VarSet) (id : Int) : Bool := vs.ids.contains id

def size (vs : VarSet) : Nat := vs.ids.length

/-- Adds a variable at the end, unless it is there already. -/
def add (vs : VarSet) (id : Int) : VarSet :=
  if h : id ∈ vs.ids then vs
  else ⟨vs.ids ++ [id], by
    rw [List.nodup_append]
    refine ⟨vs.nodup, by simp, ?_⟩
    intro a ha b hb
    rw [List.mem_singleton] at hb
    rintro rfl
    exact h (hb ▸ ha)⟩

def addAll (vs : VarSet) (ids : List Int) : VarSet := ids.foldl add vs

/-- The variables of one set that another lacks, in order. -/
def without (vs other : VarSet) : List Int := vs.ids.filter fun id => !other.has id

end VarSet

end Polytype
