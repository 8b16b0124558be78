import Polytype.Yaml.Value
import Polytype.Yaml.Token

/-!
# Nodes of a document

A document is a tree of scalars, sequences and mappings. An alias holds the node that it stands for.
-/

namespace Polytype.Yaml

mutual

/-- A node, with the place where it starts. -/
inductive Node where
  /-- A text with its tag, as it is written in the document. -/
  | scalar (mark : Mark) (style : Style) (tag value : String)
  | sequence (mark : Mark) (items : List Node)
  | mapping (mark : Mark) (entries : List Entry)
  /-- A reference to another node. -/
  | reference (mark : Mark) (target : Node)

inductive Entry where
  | mk (key value : Node)

end

def Entry.key : Entry → Node
  | mk key _ => key

def Entry.value : Entry → Node
  | mk _ value => value

namespace Node

def mark : Node → Mark
  | scalar mark .. => mark
  | sequence mark _ => mark
  | mapping mark _ => mark
  | reference mark _ => mark

mutual

/-- The number of nodes on the longest path from a node to a leaf, through aliases too. -/
def depth : Node → Nat
  | scalar .. => 1
  | sequence _ items => depthList items + 1
  | mapping _ entries => depthEntries entries + 1
  | reference _ target => depth target + 1

def depthList : List Node → Nat
  | [] => 0
  | n :: rest => max (depth n) (depthList rest)

def depthEntries : List Entry → Nat
  | [] => 0
  | .mk key value :: rest => max (max (depth key) (depth value)) (depthEntries rest)

end

/-- A tag in its short form. -/
def shortTag (tag : String) : String :=
  let long := "tag:yaml.org,2002:".toList
  if long.isPrefixOf tag.toList then "!!" ++ String.ofList (tag.toList.drop long.length) else tag

variable [Scalars]

/-- A scalar as it was read. Its own tag counts unless it is the mere mark; without one, quotes and
blocks hold text, and a plain scalar has the tag of what it denotes. -/
def ofScalar (mark : Mark) (style : Style) (tag : Option String) (value : String) : Node :=
  let own := tag.filter (· ≠ "!")
  let tag := match own, style with
    | some tag, _ => shortTag tag
    | none, .plain => (Scalars.denote value).tag
    | none, _ => "!!str"
  scalar mark style tag value

/-- The place of a node that is left out. -/
def missing (mark : Mark) : Node := ofScalar mark .plain none ""

end Node

end Polytype.Yaml
