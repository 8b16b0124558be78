import Polytype.Text.Numeral

/-!
# Types

A type is a numbered variable or a named constructor applied to arguments. A place where no type is
given holds `Ty.absent`; it may stand inside a constructor's arguments too. Functions are ordinary
constructors whose name carries the number of parameters.
-/

namespace Polytype

inductive Ty where
  /-- The place of a type that is not given. -/
  | absent
  /-- A type variable, known by its number. -/
  | var (id : Int)
  | con (name : String) (args : List Ty)
deriving Inhabited

namespace Ty

/-! ## Equality -/

mutual

/-- Structural equality; `absent` equals only itself. -/
def eq : Ty → Ty → Bool
  | absent, absent => true
  | var i, var j => i == j
  | con n as, con m bs => n == m && eqArgs as bs
  | _, _ => false

def eqArgs : List Ty → List Ty → Bool
  | [], [] => true
  | a :: as, b :: bs => eq a b && eqArgs as bs
  | _, _ => false

end

mutual

theorem eq_of_eq_true : ∀ {a b : Ty}, eq a b = true → a = b
  | absent, absent, _ => rfl
  | var _, var _, h => by simp only [eq, beq_iff_eq] at h; rw [h]
  | con _ _, con _ _, h => by
    simp only [eq, Bool.and_eq_true, beq_iff_eq] at h
    rw [h.1, eqArgs_of_eq_true h.2]
  | absent, var _, h | absent, con _ _, h | var _, absent, h | var _, con _ _, h
  | con _ _, absent, h | con _ _, var _, h => by simp [eq] at h

theorem eqArgs_of_eq_true : ∀ {as bs : List Ty}, eqArgs as bs = true → as = bs
  | [], [], _ => rfl
  | _ :: _, _ :: _, h => by
    simp only [eqArgs, Bool.and_eq_true] at h
    rw [eq_of_eq_true h.1, eqArgs_of_eq_true h.2]
  | [], _ :: _, h | _ :: _, [], h => by simp [eqArgs] at h

end

mutual

theorem eq_self : ∀ a : Ty, eq a a = true
  | absent => rfl
  | var _ => by simp [eq]
  | con _ as => by simp [eq, eqArgs_self as]

theorem eqArgs_self : ∀ as : List Ty, eqArgs as as = true
  | [] => rfl
  | a :: as => by simp [eqArgs, eq_self a, eqArgs_self as]

end

theorem eq_iff {a b : Ty} : eq a b = true ↔ a = b :=
  ⟨eq_of_eq_true, fun h => h ▸ eq_self a⟩

instance : DecidableEq Ty := fun _ _ => decidable_of_iff _ eq_iff

/-! ## Constructors in use -/

def int : Ty := con "Int" []

def string : Ty := con "String" []

def bool : Ty := con "Bool" []

def array (item : Ty) : Ty := con "Array" [item]

/-- The constructor of functions with a number of parameters: `Function0`, `Function1`, … -/
def functionName (arity : Nat) : String := "Function" ++ Text.natural arity

/-- A function type: its parameters, then its result. -/
def function (params : List Ty) (result : Ty) : Ty :=
  con (functionName params.length) (params ++ [result])

/-- A name made of `Function` and a 64-bit decimal numeral. -/
def isFunctionName (name : String) : Bool :=
  match name.toList with
  | 'F' :: 'u' :: 'n' :: 'c' :: 't' :: 'i' :: 'o' :: 'n' :: numeral =>
    (Text.int64? numeral).isSome
  | _ => false

/-- The parameters and the result of a function type. The number in the name has to be that of the
parameters, in its shortest form. -/
def functionParts? : Ty → Option (List Ty × Ty)
  | con name args =>
    match args.getLast? with
    | some result =>
      if isFunctionName name && functionName (args.length - 1) == name then
        some (args.dropLast, result)
      else none
    | none => none
  | _ => none

/-! ## Shape -/

/-- Whether two constructor applications agree in name and number of arguments. -/
def sameShape (name : String) (args : List Ty) (name' : String) (args' : List Ty) : Bool :=
  name == name' && args.length == args'.length

mutual

/-- The names of all constructors of a type, from left to right, with repetitions. -/
def names : Ty → List String
  | absent => []
  | var _ => []
  | con name args => name :: namesArgs args

def namesArgs : List Ty → List String
  | [] => []
  | a :: as => names a ++ namesArgs as

end

def mentions (t : Ty) (name : String) : Bool := t.names.contains name

mutual

/-- The numbers of all variables of a type, from left to right, with repetitions. -/
def vars : Ty → List Int
  | absent => []
  | var id => [id]
  | con _ args => varsArgs args

def varsArgs : List Ty → List Int
  | [] => []
  | a :: as => vars a ++ varsArgs as

end

/-! ## Replacement -/

mutual

/-- Replaces every variable. -/
def subst (σ : Int → Ty) : Ty → Ty
  | absent => absent
  | var id => σ id
  | con name args => con name (substArgs σ args)

def substArgs (σ : Int → Ty) : List Ty → List Ty
  | [] => []
  | a :: as => subst σ a :: substArgs σ as

end

mutual

/-- Replaces constructors without arguments by name; names without a replacement stay. -/
def replace (lookup : String → Option Ty) : Ty → Ty
  | absent => absent
  | var id => var id
  | con name [] => (lookup name).getD (con name [])
  | con name (a :: as) => con name (replaceArgs lookup (a :: as))

def replaceArgs (lookup : String → Option Ty) : List Ty → List Ty
  | [] => []
  | a :: as => replace lookup a :: replaceArgs lookup as

end

/-! ## Text -/

mutual

/-- The characters of a type's text: `'_3` for a variable, `Map<String, Int>` for a constructor with
arguments and `<nil>` where there is no type. -/
def chars : Ty → List Char
  | absent => ['<', 'n', 'i', 'l', '>']
  | var id => '\'' :: '_' :: Text.integerChars id
  | con name args => name.toList ++ charsArgs args

/-- The characters of an argument list; nothing when it is empty. -/
def charsArgs : List Ty → List Char
  | [] => []
  | a :: as => '<' :: (chars a ++ charsMore as)

/-- The arguments after the first, and the closing bracket. -/
def charsMore : List Ty → List Char
  | [] => ['>']
  | a :: as => ',' :: ' ' :: (chars a ++ charsMore as)

end

def text (t : Ty) : String := String.ofList t.chars

end Ty

end Polytype
