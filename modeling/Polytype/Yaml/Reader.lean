import Polytype.Yaml.Lexer
import Polytype.Yaml.Node

/-!
# Reading a document

`Node.ofText?` reads the first document of a text. A reader takes tokens from a feed and fails where
no rule allows the next one, or where the feed ends.
-/

namespace Polytype.Yaml

structure Feed where
  tokens : List Token
  /-- The nodes that have a name, the latest first. -/
  anchors : List (String × Node)
  /-- The meaning of each tag handle. -/
  handles : List (String × String)

abbrev Take := StateT Feed Option

namespace Take

/-- The next token, which stays in the feed. -/
def peek : Take Token := fun feed => feed.tokens.head?.map (·, feed)

def skip : Take Unit := modify fun feed => { feed with tokens := feed.tokens.tail }

/-- The node that an alias stands for: the latest one of that name. -/
def anchored (name : String) : Take Node := do
  match (← get).anchors.lookup name with
  | some n => return n
  | none => failure

/-- Reads a node that a name is given to. A node inside it that takes the same name started later,
and keeps it. -/
def named (name : Option String) (read : Take Node) : Take Node := do
  match name with
  | none => read
  | some name =>
    modify fun feed => { feed with anchors := feed.anchors.filter (·.1 ≠ name) }
    let n ← read
    modify fun feed =>
      if (feed.anchors.lookup name).isSome then feed
      else { feed with anchors := (name, n) :: feed.anchors }
    return n

/-! ## Properties of a node -/

def fullTag (handle suffix : String) : Take String := do
  if handle.isEmpty then return suffix
  else match (← get).handles.lookup handle with
    | some meaning => return meaning ++ suffix
    | none => failure

def anchor : Take (Option String) := do
  match (← peek).kind with
  | .anchor name => skip; return some name
  | _ => return none

def tag : Take (Option (String × String)) := do
  match (← peek).kind with
  | .tag handle suffix => skip; return some (handle, suffix)
  | _ => return none

/-- An anchor and a tag in either order, both optional. -/
def properties : Take (Option String × Option String) := do
  let first ← anchor
  let written ← tag
  let name ← match first, written with
    | none, some _ => anchor
    | _, _ => pure first
  match written with
  | none => return (name, none)
  | some (handle, suffix) => return (name, some (← fullTag handle suffix))

/-! ## Collections

Each reader gets the reader of the nodes inside, which is told whether a block collection may start
there, and whether a sequence may start at the column of the mapping around it. -/

/-- A reader of nodes: `node block indentless`. -/
abbrev NodeReader := Bool → Bool → Take Node

variable [Scalars]

/-- Reads a node unless one of the given tokens is next; then the node is missing. -/
def nodeUnless (stops : List TokenKind) (mark : Mark) (node : Take Node) : Take Node := do
  if stops.contains (← peek).kind then return .missing mark else node

def blockItems (node : NodeReader) : (budget : Nat) → Take (List Node)
  | 0 => failure
  | budget + 1 => do
    let t ← peek
    match t.kind with
    | .item =>
      skip
      let item ← nodeUnless [.item, .blockEnd] t.stop (node true false)
      return item :: (← blockItems node budget)
    | .blockEnd => skip; return []
    | _ => failure

/-- The items of a sequence at the column of the mapping around it. -/
def indentlessItems (node : NodeReader) : (budget : Nat) → Take (List Node)
  | 0 => failure
  | budget + 1 => do
    let t ← peek
    match t.kind with
    | .item =>
      skip
      let item ← nodeUnless [.item, .key, .value, .blockEnd] t.stop (node true false)
      return item :: (← indentlessItems node budget)
    | _ => return []

def blockEntries (node : NodeReader) : (budget : Nat) → Take (List Entry)
  | 0 => failure
  | budget + 1 => do
    let t ← peek
    match t.kind with
    | .key =>
      skip
      let key ← nodeUnless [.key, .value, .blockEnd] t.stop (node true true)
      let t ← peek
      let value ← match t.kind with
        | .value => do
          skip
          nodeUnless [.key, .value, .blockEnd] t.stop (node true true)
        | _ => pure (.missing t.start)
      return .mk key value :: (← blockEntries node budget)
    | .blockEnd => skip; return []
    | _ => failure

/-- A key and a value in a flow sequence, after the mark of the key. A key that is left out takes
the token after it along. -/
def flowPair (node : NodeReader) : Take Entry := do
  let t ← peek
  let key ←
    if [TokenKind.value, .comma, .flowSequenceEnd].contains t.kind then do
      skip
      pure (.missing t.stop)
    else node false false
  let t ← peek
  let value ← match t.kind with
    | .value => do
      skip
      nodeUnless [.comma, .flowSequenceEnd] t.start (node false false)
    | _ => pure (.missing t.start)
  return .mk key value

/-- Passes over the comma before any item but the first, and says whether the collection ends. -/
def flowEnds (first : Bool) (close : TokenKind) : Take Bool := do
  if (← peek).kind = close then skip; return true
  else if first then return false
  else if (← peek).kind = .comma then
    skip
    if (← peek).kind = close then skip; return true
    else return false
  else failure

def flowItems (node : NodeReader) (first : Bool) : (budget : Nat) → Take (List Node)
  | 0 => failure
  | budget + 1 => do
    if ← flowEnds first .flowSequenceEnd then return []
    else
      let t ← peek
      let item ← match t.kind with
        | .key => do
          skip
          pure (.mapping t.start [← flowPair node])
        | _ => node false false
      return item :: (← flowItems node false budget)

/-- An entry of a flow mapping. A key without a mark of its own has no value. -/
def flowEntry (node : NodeReader) : Take Entry := do
  match (← peek).kind with
  | .key =>
    skip
    let key ← nodeUnless [.value, .comma, .flowMappingEnd] (← peek).start (node false false)
    match (← peek).kind with
    | .value =>
      skip
      let value ← nodeUnless [.comma, .flowMappingEnd] (← peek).start (node false false)
      return .mk key value
    | _ => return .mk key (.missing (← peek).start)
  | _ =>
    let key ← node false false
    return .mk key (.missing (← peek).start)

def flowEntries (node : NodeReader) (first : Bool) : (budget : Nat) → Take (List Entry)
  | 0 => failure
  | budget + 1 => do
    if ← flowEnds first .flowMappingEnd then return []
    else
      let entry ← flowEntry node
      return entry :: (← flowEntries node false budget)

/-! ## Nodes and documents -/

/-- Reads a node. `budget` bounds its depth and the length of its collections. -/
def node : (budget : Nat) → NodeReader
  | 0, _, _ => failure
  | budget + 1, block, indentless => do
    let t ← peek
    match t.kind with
    | .reference name => skip; return .reference t.start (← anchored name)
    | _ =>
      let (name, tag) ← properties
      named name do
        match (← peek).kind, block, indentless with
        | .item, _, true => return .sequence t.start (← indentlessItems (node budget) budget)
        | .scalar style text, _, _ => skip; return .ofScalar t.start style tag text
        | .flowSequence, _, _ =>
          skip
          return .sequence t.start (← flowItems (node budget) true budget)
        | .flowMapping, _, _ =>
          skip
          return .mapping t.start (← flowEntries (node budget) true budget)
        | .blockSequence, true, _ =>
          skip
          return .sequence t.start (← blockItems (node budget) budget)
        | .blockMapping, true, _ =>
          skip
          return .mapping t.start (← blockEntries (node budget) budget)
        | _, _, _ =>
          if name.isSome || tag.isSome then return .ofScalar t.start .plain tag "" else failure

/-- The directives before a document. The version may be given once and each handle be defined
once. -/
def directives (versions : Nat) (defined : List (String × String)) :
    (budget : Nat) → Take (List (String × String))
  | 0 => failure
  | budget + 1 => do
    match (← peek).kind with
    | .version major minor =>
      if versions = 0 && major = 1 && minor = 1 then
        skip
        directives 1 defined budget
      else failure
    | .tagHandle handle meaning =>
      if (defined.lookup handle).isSome then failure
      else
        skip
        directives versions ((handle, meaning) :: defined) budget
    | _ => return defined

def standardHandles : List (String × String) := [("!", "!"), ("!!", "tag:yaml.org,2002:")]

/-- The first document, if there is one. Whatever follows it is left unread, but for the token that
ends it. -/
def document (budget : Nat) : Take (Option Node) := do
  match (← peek).kind with
  | .finish => return none
  | .version .. | .tagHandle .. | .documentStart =>
    let defined ← directives 0 [] budget
    modify fun feed => { feed with handles := defined ++ standardHandles }
    if (← peek).kind = .documentStart then
      skip
      let t ← peek
      let root ← match t.kind with
        | .version .. | .tagHandle .. | .documentStart | .documentEnd | .finish =>
          pure (Node.missing t.start)
        | _ => node budget true false
      let _ ← peek
      return some root
    else failure
  | _ =>
    let root ← node budget true false
    let _ ← peek
    return some root

end Take

/-- The first document of a text. The outer `none` is for a text that is no YAML, the inner one for
a text without a document. -/
def Node.ofText? [Scalars] (text : String) : Option (Option Node) :=
  let tokens := Token.ofText text
  ((Take.document (tokens.length + 1)).run ⟨tokens, [], Take.standardHandles⟩).map (·.1)

end Polytype.Yaml
