/-!
# Source text

Text as a reader meets it: a sequence of characters in which a byte that is no part of a valid UTF-8
encoding stands as a fault of its own.
-/

namespace Polytype.Text

/-- Characters in order; `none` stands for one byte that encodes nothing. -/
abbrev Source := List (Option Char)

/-- Text that is already decoded has no faults. -/
def Source.ofString (s : String) : Source := s.toList.map some

/-- A continuation byte, which carries six bits. -/
def continuationBits? (b : UInt8) : Option Nat :=
  if 0x80 ≤ b.toNat && b.toNat < 0xC0 then some (b.toNat - 0x80) else none

/-- The number that a lead byte and the bits of its one to three continuation bytes encode. Overlong
forms encode nothing. -/
def codePoint? (lead : Nat) : List Nat → Option Nat
  | [a] => if 0xC2 ≤ lead && lead < 0xE0 then some ((lead - 0xC0) * 64 + a) else none
  | [a, b] =>
    let n := (lead - 0xE0) * 4096 + a * 64 + b
    if 0xE0 ≤ lead && lead < 0xF0 && 0x800 ≤ n then some n else none
  | [a, b, c] =>
    let n := (lead - 0xF0) * 262144 + a * 4096 + b * 64 + c
    if 0xF0 ≤ lead && lead < 0xF8 && 0x10000 ≤ n then some n else none
  | _ => none

/-- The character that a lead byte and its continuation bytes encode. Surrogates and numbers above
U+10FFFF are no characters. -/
def encodedChar? (lead : UInt8) (more : List UInt8) : Option Char := do
  let n ← codePoint? lead.toNat (← more.mapM continuationBits?)
  if h : n.isValidChar then some (Char.ofNatAux n h) else none

def followCount (lead : UInt8) : Nat :=
  if lead.toNat < 0xE0 then 1 else if lead.toNat < 0xF0 then 2 else 3

/-- Decodes bytes. A byte that starts no valid encoding is a fault, and decoding goes on with the
byte after it. `skip` counts the bytes at the front that belong to the character before. -/
def Source.decode : (skip : Nat) → List UInt8 → Source
  | _, [] => []
  | skip + 1, _ :: rest => Source.decode skip rest
  | 0, b :: rest =>
    if b.toNat < 0x80 then some (Char.ofNat b.toNat) :: Source.decode 0 rest
    else match encodedChar? b (rest.take (followCount b)) with
      | some c => some c :: Source.decode (followCount b) rest
      | none => none :: Source.decode 0 rest

def Source.ofBytes (bytes : List UInt8) : Source := Source.decode 0 bytes

end Polytype.Text
