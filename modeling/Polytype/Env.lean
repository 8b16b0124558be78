import Polytype.Store.Basic
import Std.Data.TreeMap.Basic

/-!
# Environments

An environment gives names their generic types. It never changes: an extended environment is a new
one. Bindings are listed in the order of their names.
-/

namespace Polytype

/-- The bindings of names. A name may be bound to no type at all, which is not the same as being
unbound. -/
structure Env where
  bindings : Std.TreeMap String (Option Scheme)

namespace Env

def empty : Env := ⟨∅⟩

instance : Inhabited Env := ⟨empty⟩

def size (env : Env) : Nat := env.bindings.size

/-- Binds a name, in place of what it was bound to before. -/
def extend (env : Env) (name : String) (g : Option Scheme) : Env := ⟨env.bindings.insert name g⟩

def declare (env : Env) (name : String) (t : Ty) : Env := env.extend name (some (.mono t))

def declareGeneric (env : Env) (name : String) (params : List String) (t : Ty) : Env :=
  env.extend name (some ⟨params, t⟩)

def remove (env : Env) (name : String) : Env := ⟨env.bindings.erase name⟩

/-- What a name is bound to, if it is bound. -/
def lookup? (env : Env) (name : String) : Option (Option Scheme) := env.bindings.get? name

/-- All bindings, in ascending order of the names. -/
def entries (env : Env) : List (String × Option Scheme) := env.bindings.toList

def names (env : Env) : List String := env.bindings.keys

/-- The first bindings, up to a limit; all of them when the limit is not positive. -/
def entriesUpTo (env : Env) (limit : Int) : List (String × Option Scheme) :=
  if limit ≤ 0 then env.entries else env.entries.take limit.toNat

def extendAll (env : Env) (bindings : List (String × Option Scheme)) : Env :=
  bindings.foldl (fun env (name, g) => env.extend name g) env

/-! ## The standard environment -/

/-- Arithmetic, comparison, truth values, strings and the conditional. -/
def prelude : Env :=
  let arithmetic := ["+", "-", "*", "/", "%"].map fun op =>
    (op, Scheme.mono (.function [.int, .int] .int))
  let comparison := ["==", "!=", "<", "<=", ">", ">="].map fun op =>
    (op, Scheme.mono (.function [.int, .int] .bool))
  let choice := Ty.con "T" []
  let thunk := Ty.function [] choice
  let rest := [
    ("not", Scheme.mono (.function [.bool] .bool)),
    ("concat", Scheme.mono (.function [.string, .string] .string)),
    ("true", Scheme.mono .bool),
    ("false", Scheme.mono .bool),
    ("if", ⟨["T"], .function [.bool, thunk, thunk] choice⟩)]
  empty.extendAll ((arithmetic ++ comparison ++ rest).map fun (name, g) => (name, some g))

end Env

end Polytype
