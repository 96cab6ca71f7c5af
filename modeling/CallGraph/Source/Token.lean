import CallGraph.Text.Utf8

/-!
# Tokens of source code

A `Token` is a piece of source text with its place.  The first token of a logical line carries the line's
indentation; line breaks between brackets and after a backslash begin no logical line.  Comments are kept
with the token that follows them, because a block that ends before that token may still hold them.  Behind
the mark of a decorator comments and line continuations are tokens of their own.
-/

namespace CallGraph.Source

/-- A place in a source text: line from one, column in octets and offset in characters from zero. -/
structure Mark where
  line : Nat
  column : Nat
  offset : Nat
  deriving DecidableEq, Repr

namespace Mark

/-- The place before the first character. -/
def start : Mark := ⟨1, 0, 0⟩

/-- The place after one more character. -/
def after (m : Mark) (c : Char) : Mark :=
  if c == '\n' then ⟨m.line + 1, 0, m.offset + 1⟩
  else ⟨m.line, m.column + Utf8.size c, m.offset + 1⟩

end Mark

/-- A comment: the indentation of its line if nothing else stands before it there, and where it ends. -/
structure Comment where
  indent : Option Nat
  stop : Mark
  deriving DecidableEq, Repr

/-- What a token is.  Keywords are names; only the grammar tells them apart. -/
inductive TokenKind where
  | name
  | number
  | symbol
  | stringStart
  | stringEnd
  /-- The opening brace of an expression inside a string. -/
  | fieldStart
  /-- The closing brace of an expression inside a string. -/
  | fieldEnd
  /-- The colon before the format of an expression inside a string. -/
  | formatStart
  /-- The conversion of an expression inside a string. -/
  | conversion
  /-- A comment or a line continuation behind the mark of a decorator. -/
  | extra
  | endOfFile
  deriving DecidableEq, Repr

/-- A piece of source text. -/
structure Token where
  kind : TokenKind
  text : String
  start : Mark
  stop : Mark
  /-- The indentation, if the token is the first of a logical line. -/
  indent : Option Nat
  /-- The comments since the token before. -/
  comments : List Comment
  deriving Repr

namespace Token

/-- Whether the token is a given symbol. -/
def isSymbol (t : Token) (text : String) : Bool :=
  t.kind == .symbol && t.text == text

/-- Whether the token is a given word. -/
def isWord (t : Token) (text : String) : Bool :=
  t.kind == .name && t.text == text

/-- Whether the token has a name for what it is, as literals have; signs and keywords are their text. -/
def isNamed (t : Token) : Bool :=
  if t.kind == .symbol then t.text == "..."
  else if t.kind == .name then t.text == "None" || t.text == "True" || t.text == "False"
  else t.kind == .number || t.kind == .stringStart || t.kind == .stringEnd || t.kind == .conversion
    || t.kind == .extra

/-- Whether a logical line begins with the token, or the text ends there. -/
def beginsLine (t : Token) : Bool :=
  t.indent.isSome || t.kind == .endOfFile

end Token

end CallGraph.Source
