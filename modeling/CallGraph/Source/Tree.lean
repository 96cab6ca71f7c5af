import CallGraph.Location
import CallGraph.Source.Token

/-!
# Syntax trees

A `Tree` is an identifier, another leaf, or a construct with its parts.  Each part carries the `Label` that
tells what it is in its construct.  Only those constructs and labels have names that matter for the outline
of a file; every other construct, one that holds an error among them, is a `group`.  Comments and line
continuations are leaves that may stand between any two parts, and a construct has an extent of its own.

A `Parser` gives every source text a tree, one with errors in it too.  What the trees of a `SoundParser` have
in common is that their identifiers are in the order of the text, and that what has a name is named by one.
-/

namespace CallGraph.Source

/-- A mark as a location. -/
def Mark.location (m : Mark) : Location :=
  .known (UInt32.ofNat m.line) (UInt32.ofNat m.column)

/-- A stretch of a source text. -/
structure Extent where
  start : Mark
  stop : Mark
  deriving DecidableEq, Repr

/-- The constructs of the language that an outline knows. -/
inductive Construct where
  | functionDefinition
  | classDefinition
  | decorator
  | call
  | attribute
  | assignment
  | importStatement
  | importFrom
  | aliasedImport
  | dottedName
  | group
  deriving DecidableEq, Repr

/-- What a part is in its construct.  All labels but `plain`, and `name` in an import, are labels of one part
of a construct. -/
inductive Label where
  | name
  | body
  | callee
  | attribute
  | object
  | target
  | module
  | asName
  | plain
  deriving DecidableEq, Repr

mutual

/-- A syntax tree. -/
inductive Tree where
  | identifier (text : String) (extent : Extent)
  /-- Any other leaf.  Literals, comments and line continuations are named for what they are, signs and
  keywords are not. -/
  | token (named : Bool) (text : String) (extent : Extent)
  | node (construct : Construct) (extent : Extent) (parts : Parts)

/-- The parts of a construct with their labels, in the order of the source text. -/
inductive Parts where
  | nil
  | cons (label : Label) (tree : Tree) (rest : Parts)

end

namespace Tree

/-- Whether a tree has a name for what it is; signs and keywords have none. -/
def isNamed : Tree → Bool
  | .identifier _ _ => true
  | .token named _ _ => named
  | .node _ _ _ => true

/-- Where a tree stands. -/
def extent : Tree → Extent
  | .identifier _ extent => extent
  | .token _ _ extent => extent
  | .node _ extent _ => extent

/-- The construct of a tree that is not a leaf. -/
def construct? : Tree → Option Construct
  | .node construct _ _ => some construct
  | _ => none

/-- The text of a tree in its source. -/
def textIn (source : List Char) : Tree → String
  | .identifier text _ => text
  | .token _ text _ => text
  | .node _ extent _ =>
    String.ofList ((source.drop extent.start.offset).take (extent.stop.offset - extent.start.offset))

end Tree

namespace Parts

/-- Parts from a list. -/
def ofList : List (Label × Tree) → Parts
  | [] => .nil
  | (label, tree) :: rest => .cons label tree (ofList rest)

/-- Parts as a list. -/
def toList : Parts → List (Label × Tree)
  | .nil => []
  | .cons label tree rest => (label, tree) :: rest.toList

/-- The first part with a label. -/
def find? (label : Label) : Parts → Option Tree
  | .nil => none
  | .cons l tree rest => if l = label then some tree else rest.find? label

/-- The first part that has a name for what it is. -/
def firstNamed? : Parts → Option Tree
  | .nil => none
  | .cons _ tree rest => if tree.isNamed then some tree else rest.firstNamed?

end Parts

instance : Inhabited Tree :=
  ⟨.node .group ⟨.start, .start⟩ .nil⟩

mutual

/-- A tree's last leaf; a construct without parts is one itself. -/
def Tree.lastLeaf : Tree → Tree
  | .identifier text extent => .identifier text extent
  | .token named text extent => .token named text extent
  | .node construct extent parts => parts.lastLeafOr (.node construct extent parts)

/-- The last leaf of the last of some parts, or another tree if there is none. -/
def Parts.lastLeafOr (other : Tree) : Parts → Tree
  | .nil => other
  | .cons _ tree rest => rest.lastLeafOr tree.lastLeaf

end

/-! ### Identifiers and constructs -/

/-- A piece of a source text and where it stands. -/
abbrev Piece := String × Extent

mutual

/-- The identifiers of a tree, from left to right. -/
def Tree.identifiers : Tree → List Piece
  | .identifier text extent => [(text, extent)]
  | .token _ _ _ => []
  | .node _ _ parts => parts.identifiers

/-- The identifiers of some parts. -/
def Parts.identifiers : Parts → List Piece
  | .nil => []
  | .cons _ tree rest => tree.identifiers ++ rest.identifiers

end

mutual

/-- The constructs in a tree with their extents and parts, each before those inside it. -/
def Tree.constructs : Tree → List (Construct × Extent × Parts)
  | .identifier _ _ => []
  | .token _ _ _ => []
  | .node construct extent parts => (construct, extent, parts) :: parts.constructs

/-- The constructs in some parts. -/
def Parts.constructs : Parts → List (Construct × Extent × Parts)
  | .nil => []
  | .cons _ tree rest => tree.constructs ++ rest.constructs

end

/-- Whether a tree is an identifier. -/
def Tree.isIdentifier : Tree → Bool
  | .identifier _ _ => true
  | _ => false

/-- Whether just one part has a label, and is an identifier. -/
def Parts.hasName (label : Label) (parts : Parts) : Bool :=
  (parts.toList.filter (·.1 = label)).map (·.2.isIdentifier) == [true]

/-- The label of the part that names a construct. -/
def Construct.nameLabel? : Construct → Option Label
  | .functionDefinition => some .name
  | .classDefinition => some .name
  | .attribute => some .attribute
  | _ => none

/-! ### Parsers -/

/-- A tree whose identifiers are in the order of the source text, and in which each definition and each attribute
is named by an identifier. -/
structure Tree.IsSound (t : Tree) : Prop where
  inOrder : t.identifiers.Pairwise fun p q => p.2.start.location.before q.2.start.location = true
  named : ∀ c ∈ t.constructs, ∀ label ∈ c.1.nameLabel?, c.2.2.hasName label = true

instance (t : Tree) : Decidable t.IsSound :=
  decidable_of_iff (_ ∧ _) ⟨fun h => ⟨h.1, h.2⟩, fun h => ⟨h.inOrder, h.named⟩⟩

theorem Tree.IsSound.default :
  (default : Tree).IsSound
  := by
  decide

/-- A parser of source texts.  It gives every text a tree; what it cannot make sense of is in the tree too. -/
class Parser where
  tree : List Char → Tree

/-- A parser whose trees are sound, those with errors too. -/
class SoundParser [Parser] : Prop where
  sound (source : List Char) : (Parser.tree source).IsSound

end CallGraph.Source
