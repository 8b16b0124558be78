import Polytype.Ty.Basic

/-!
# Names for generic parameters

The names `A, B, …, Z, A1, …, Z1, A2, …` in order, of which a supply hands out the first that is
neither set aside nor in use by a constructor.
-/

namespace Polytype

/-- The name of an index: a letter, followed by the number of times the alphabet was used up before
it when that is not zero. Below zero the letters go on downwards from `A`, every 26 anew. -/
def genericName (i : Int) : String :=
  let letter := Char.ofNat (65 + i.tmod 26).toNat
  if i < 26 then String.singleton letter
  else String.ofList (letter :: Text.integerChars (i.tdiv 26))

/-- The next index to hand out, and the names that are set aside. -/
structure NameSupply where
  next : Nat
  taken : List String
deriving DecidableEq

namespace NameSupply

def new : NameSupply := ⟨0, []⟩

instance : Inhabited NameSupply := ⟨new⟩

/-- Starts again, with no name set aside. -/
def reset (g : NameSupply) : NameSupply := { g with next := 0, taken := [] }

def avoid (g : NameSupply) (name : String) : NameSupply := { g with taken := name :: g.taken }

/-- The next name, whatever is set aside. -/
def take (g : NameSupply) : String × NameSupply :=
  (genericName g.next, { g with next := g.next + 1 })

/-- The first index from `j` on whose name is not blocked, among the next `tries` and the one after
them. -/
def firstFree (blocked : List String) : (tries : Nat) → Nat → Nat
  | 0, j => j
  | tries + 1, j => if blocked.contains (genericName j) then firstFree blocked tries (j + 1) else j

/-- The next name that is not set aside and is no constructor of a type. Names of different indices
differ, so as many tries as there are blocked names are enough. -/
def takeAvoiding (g : NameSupply) (t : Ty) : String × NameSupply :=
  let blocked := g.taken ++ t.names
  let j := firstFree blocked blocked.length g.next
  (genericName j, { g with next := j + 1 })

end NameSupply

end Polytype
