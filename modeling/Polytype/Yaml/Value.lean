/-!
# Plain scalars

What a scalar without quotes and without a tag denotes, and what integer a scalar converts to, is for the
library that reads documents to say. `Scalars` is what the decoder takes from it.
-/

namespace Polytype.Yaml

/-- What a text denotes. -/
inductive Value where
  | null
  | bool
  | int (n : Int)
  /-- A number in floating point, with its integer part unless it is not finite. -/
  | float (whole : Option Int)
  | timestamp
  | merge
  | text
deriving DecidableEq, Repr

def Value.tag : Value → String
  | null => "!!null"
  | bool => "!!bool"
  | int _ => "!!int"
  | float _ => "!!float"
  | timestamp => "!!timestamp"
  | merge => "!!merge"
  | text => "!!str"

/-- A reader of scalars. -/
class Scalars where
  /-- What a plain scalar without a tag of its own denotes; its tag is that of this value. -/
  denote : String → Value
  /-- The 64-bit integer that a text with a tag converts to. -/
  int64? : (tag text : String) → Option Int64

end Polytype.Yaml
