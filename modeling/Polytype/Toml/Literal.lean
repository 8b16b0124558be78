/-!
# Statements of a TOML text

A text is a list of statements: headers that open a table, and assignments of values to keys. Of a
number or a point in time only the fact that it is one is kept.
-/

namespace Polytype.Toml

/-- A key with its parts, which were written with dots between them. -/
abbrev Path := List String

mutual

/-- A value as it is written. -/
inductive Literal where
  | text (s : String)
  | flag (b : Bool)
  /-- A number or a point in time. -/
  | scalar
  | array (items : List Literal)
  | inline (members : List Member)

inductive Member where
  | mk (path : Path) (value : Literal)

end

inductive Statement where
  /-- A table's header, or that of one more table in an array of tables. -/
  | header (path : Path) (inArray : Bool)
  | assign (path : Path) (value : Literal)

/-! ## Keys as text -/

/-- A character of a key that needs no quotes. -/
def isBare (c : Char) : Bool := c.isAlphanum || c == '_' || c == '-'

/-- The four hexadecimal digits of a control character. -/
def controlDigits (c : Char) : List Char :=
  let digits := Nat.toDigits 16 c.toNat
  List.replicate (4 - digits.length) '0' ++ digits

def quotedChar (c : Char) : List Char :=
  match c with
  | '"' => ['\\', '"']
  | '\\' => ['\\', '\\']
  | '\x08' => ['\\', 'b']
  | '\t' => ['\\', 't']
  | '\n' => ['\\', 'n']
  | '\x0c' => ['\\', 'f']
  | '\r' => ['\\', 'r']
  | c => if c.toNat < 0x20 || c.toNat = 0x7F then '\\' :: 'u' :: controlDigits c else [c]

/-- A part of a key, in quotes unless it is made of bare characters. -/
def partText (part : String) : String :=
  if part ≠ "" && part.toList.all isBare then part
  else "\"" ++ String.ofList (part.toList.flatMap quotedChar) ++ "\""

def Path.text (path : Path) : String := String.intercalate "." (path.map partText)

end Polytype.Toml
