import Polytype.Toml.Reader

/-!
# Tables

The tables that the statements of a text define. A table that was only implied, as the parent of
another or by a dotted key, may be defined once more; any other key is defined once, except that a
later value takes the place of an array. `Document.ofText?` also lists the keys in the order of the
text: each header, each assigned key at full length, and each member of an inline table.
-/

namespace Polytype.Toml

inductive Value where
  | text (s : String)
  | flag (b : Bool)
  /-- A number or a point in time. -/
  | scalar
  | array
  | table (entries : List (String × Value))
  /-- An array of tables, the latest first. -/
  | tables (items : List (List (String × Value)))

abbrev Table := List (String × Value)

namespace Table

def get? (t : Table) (key : String) : Option Value := List.lookup key t

/-- Gives a key a value, in the place of the one that it has. -/
def set (t : Table) (key : String) (v : Value) : Table :=
  if t.any (·.1 = key) then t.map fun e => if e.1 = key then (key, v) else e
  else t ++ [(key, v)]

/-- Changes the table at a path. An array of tables stands for its latest one. -/
def change (f : Table → Option Table) : Path → Table → Option Table
  | [], t => f t
  | key :: path, t =>
    match t.get? key with
    | some (.table u) => (change f path u).map fun u => t.set key (.table u)
    | some (.tables (u :: us)) => (change f path u).map fun u => t.set key (.tables (u :: us))
    | _ => none

def at? : Path → Table → Option Table
  | [], t => some t
  | key :: path, t =>
    match t.get? key with
    | some (.table u) => at? path u
    | some (.tables (u :: _)) => at? path u
    | _ => none

end Table

/-- What the statements so far have defined. -/
structure Draft where
  root : Table
  /-- The tables that are only implied. -/
  implied : List Path
  /-- The keys whose last value is an array. -/
  arrays : List Path
  /-- All keys in the order of the text, the latest first. -/
  keys : List Path

namespace Draft

def empty : Draft := ⟨[], [], [], []⟩

def imply (d : Draft) (path : Path) : Draft := { d with implied := path :: d.implied }

def settle (d : Draft) (path : Path) : Draft :=
  { d with implied := d.implied.filter (· ≠ path) }

def list (d : Draft) (path : Path) : Draft := { d with keys := path :: d.keys }

/-- Notes whether a key's value is an array. An empty key speaks for the table around it. -/
def noteArray (d : Draft) (context : Path) (key : String) (isArray : Bool) : Draft :=
  let path :=
    if key ≠ "" then context ++ [key] else if context.isEmpty then [""] else context
  let others := d.arrays.filter (· ≠ path)
  { d with arrays := if isArray then path :: others else others }

/-- Gives a key in the table at a path its value. -/
def define? (d : Draft) (context : Path) (key : String) (v : Value) : Option Draft := do
  let path := context ++ [key]
  let table ← d.root.at? context
  let replace := d.root.change (fun t => some (t.set key v)) context
  match table.get? key with
  | none => return { d with root := ← replace }
  | some _ =>
    if d.arrays.contains path then return { d.settle path with root := ← replace }
    else if d.implied.contains path then some (d.settle path)
    else none

/-- Makes sure that the tables above a key exist, and implies those that do not. -/
def openParents? (d : Draft) (done : Path) : Path → Option Draft
  | [] => some d
  | key :: rest => do
    let table ← d.root.at? done
    let path := done ++ [key]
    let d ← match table.get? key with
      | none =>
        let root ← d.root.change (fun t => some (t.set key (.table []))) done
        some { d.imply path with root }
      | some _ => some d
    match d.root.at? path with
    | some _ => openParents? d path rest
    | none => none

/-- Opens the table at a path, or one more in the array of tables there. -/
def open? (d : Draft) (path : Path) (inArray : Bool) : Option Draft := do
  let parents := path.dropLast
  let key ← path.getLast?
  let d ← d.openParents? [] parents
  if inArray then
    let add (t : Table) : Option Table :=
      match t.get? key with
      | none => some (t.set key (.tables [[]]))
      | some (.tables us) => some (t.set key (.tables ([] :: us)))
      | some _ => none
    return { d with root := ← d.root.change add parents }
  else d.define? parents key (.table [])

/-- Opens the tables that a dotted key implies, one after the other. -/
def openImplied? (d : Draft) (context : Path) : Path → Option (Draft × Path)
  | [] => some (d, context)
  | key :: rest => do
    let path := context ++ [key]
    let d ← (d.imply path).open? path false
    openImplied? d path rest

def isArray : Literal → Bool
  | .array _ => true
  | _ => false

mutual

/-- Works out the value of a key in the table at a path. The members of an inline table are defined
on the way. -/
def evaluate? (d : Draft) (context : Path) (key : String) (inArray : Bool) :
    Literal → Option (Draft × Value)
  | .text s => some (d, .text s)
  | .flag b => some (d, .flag b)
  | .scalar => some (d, .scalar)
  | .array items => do
    let d ← evaluateItems? (d.noteArray context key true) context key items
    return (d, .array)
  | .inline members => do
    let path := context ++ [key]
    let d ← (d.imply path).open? path inArray
    let d ← assignMembers? d path members
    return (d, .table [])

def evaluateItems? (d : Draft) (context : Path) (key : String) : List Literal → Option Draft
  | [] => some d
  | item :: rest => do
    let (d, _) ← evaluate? d context key true item
    evaluateItems? d context key rest

def assignMembers? (d : Draft) (context : Path) : List Member → Option Draft
  | [] => some d
  | .mk path value :: rest => do
    let key ← path.getLast?
    let (d, inner) ← d.openImplied? context path.dropLast
    let (d, v) ← evaluate? (d.list (inner ++ [key])) inner key false value
    let d ← d.define? inner key v
    assignMembers? (d.noteArray inner key (isArray value)) context rest

end

/-- Follows the statements of a text; `context` is the table that the last header opened. -/
def follow? (d : Draft) (context : Path) : List Statement → Option Draft
  | [] => some d
  | .header path inArray :: rest => do
    let d ← d.open? path inArray
    follow? ((d.noteArray path "" false).list path) path rest
  | .assign path value :: rest => do
    let d ← assignMembers? d context [.mk path value]
    follow? d context rest

end Draft

/-- A TOML text as it was read: its top table and its keys in the order of the text. -/
structure Document where
  root : Table
  keys : List Path

def Document.ofText? (text : String) : Option Document := do
  let d ← Draft.empty.follow? [] (← Statement.ofText? text)
  return ⟨d.root, d.keys.reverse⟩

end Polytype.Toml
