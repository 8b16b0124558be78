import Polytype.Ty.Basic

/-!
# Generic types

A scheme is a type under a list of parameters. Inside the type a parameter is a constructor of that
name without arguments.
-/

namespace Polytype

/-- A type with generic parameters. -/
structure Scheme where
  params : List String
  body : Ty
deriving DecidableEq, Inhabited

namespace Scheme

/-- A type without parameters. -/
def mono (t : Ty) : Scheme := ⟨[], t⟩

def isMono (g : Scheme) : Bool := g.params.isEmpty

def hasParam (g : Scheme) (name : String) : Bool := g.params.contains name

/-- The characters of a parameter list `<A, B> `; nothing when it is empty. -/
def paramChars : List String → List Char
  | [] => []
  | p :: ps => '<' :: (p.toList ++ ps.flatMap (fun q => ',' :: ' ' :: q.toList) ++ ['>', ' '])

/-- A scheme as text: `<A, B> Function1<A, B>`. -/
def text (g : Scheme) : String := String.ofList (paramChars g.params ++ g.body.chars)

/-- The text where a scheme may be missing. -/
def optionText : Option Scheme → String
  | none => "<nil>"
  | some g => g.text

end Scheme

end Polytype
