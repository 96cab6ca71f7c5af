import CallGraph.Source.Token

/-!
# Cutting Python source into tokens

`tokens` cuts a source text into tokens, the last of which marks its end.  It is meant for texts that are
valid Python: outside strings and comments, a character beyond ASCII that is no blank belongs to a name,
so no table of letters is needed.  What surrounds the place reached is a stack of frames: open brackets,
open strings, the expressions inside formatted strings and their formats.  A line break counts only where
the stack is empty.
-/

namespace CallGraph.Source

/-- How a string ends and what may stand in it. -/
structure Delimiter where
  quote : Char
  triple : Bool
  raw : Bool
  format : Bool
  deriving DecidableEq, Repr

/-- What is open around a place. -/
inductive Frame where
  | bracket
  | string (delimiter : Delimiter)
  /-- An expression inside a string, with the number of `lambda` words whose colon is to come. -/
  | field (lambdas : Nat)
  /-- The format of an expression inside a string. -/
  | format
  deriving DecidableEq, Repr

/-- The state of the lexer. -/
structure Lexing where
  rest : List Char
  mark : Mark
  frames : List Frame := []
  /-- The indentation of the line, while nothing of it was read. -/
  indent : Option Nat := some 0
  /-- The comments since the last token, the last one first. -/
  comments : List Comment := []
  /-- The tokens so far, the last one first. -/
  read : List Token := []

namespace Lexing

/-- Passes over a number of characters. -/
def skip : Nat → Lexing → Lexing
  | 0, s => s
  | n + 1, s =>
    match s.rest with
    | [] => s
    | c :: rest => skip n { s with rest, mark := s.mark.after c }

/-- Makes a token of a number of characters. -/
def emit (s : Lexing) (kind : TokenKind) (length : Nat) : Lexing :=
  let text := String.ofList (s.rest.take length)
  let after := s.skip length
  let token : Token :=
    { kind, text, start := s.mark, stop := after.mark
      indent := if s.frames.isEmpty then s.indent else none
      comments := s.comments.reverse }
  { after with indent := none, comments := [], read := token :: s.read }

/-- Opens a frame. -/
def push (s : Lexing) (frame : Frame) : Lexing :=
  { s with frames := frame :: s.frames }

/-- Closes the innermost frame. -/
def pop (s : Lexing) : Lexing :=
  { s with frames := s.frames.tail }

end Lexing

/-! ### Character classes -/

/-- The blanks beyond ASCII that separate tokens. -/
def isWideBlank (c : Char) : Bool :=
  c == '\uFEFF' || c == '\u2060' || c == '\u200B'

/-- Whether a character separates tokens. -/
def isBlank (c : Char) : Bool :=
  c == ' ' || (9 ≤ c.toNat && c.toNat ≤ 13) || isWideBlank c

/-- Whether a name may begin with a character. -/
def isNameStart (c : Char) : Bool :=
  c.isAlpha || c == '_' || (128 ≤ c.toNat && !isWideBlank c)

/-- Whether a name may go on with a character. -/
def isNamePart (c : Char) : Bool :=
  isNameStart c || c.isDigit

/-- The letters that may stand before a string's quote. -/
def isStringFlag (c : Char) : Bool :=
  c == 'f' || c == 'F' || c == 'r' || c == 'R' || c == 'b' || c == 'B' || c == 'u' || c == 'U'

/-- Whether a character opens a string. -/
def isQuote (c : Char) : Bool :=
  c == '"' || c == '\x27' || c == '\x60'

/-! ### Numbers -/

/-- The length of a run of digits of a class, one underscore after each digit allowed; `afterDigit` says
whether a digit stands before the rest. -/
def digitRun (isDigit : Char → Bool) (afterDigit : Bool) : List Char → Nat
  | [] => 0
  | c :: rest =>
    if isDigit c then 1 + digitRun isDigit true rest
    else if c == '_' && afterDigit then 1 + digitRun isDigit false rest
    else 0

/-- The length of an exponent, if one stands there. -/
def exponentLength (cs : List Char) : Nat :=
  match cs with
  | c :: rest =>
    if c == 'e' || c == 'E' then
      let sign := match rest with
        | '+' :: _ => 1
        | '-' :: _ => 1
        | _ => 0
      let digits := digitRun Char.isDigit false (rest.drop sign)
      if digits == 0 then 0 else 1 + sign + digits
    else 0
  | [] => 0

/-- The length of a letter that ends a number. -/
def suffixLength (suffixes : List Char) (cs : List Char) : Nat :=
  match cs with
  | c :: _ => if suffixes.contains c then 1 else 0
  | [] => 0

/-- Whether a character is a hexadecimal digit. -/
def isHexDigit (c : Char) : Bool :=
  c.isDigit || ('a' ≤ c && c ≤ 'f') || ('A' ≤ c && c ≤ 'F')

/-- The length of a number with a base mark: digits, each run with an underscore before it allowed. -/
def basedLength (isDigit : Char → Bool) (cs : List Char) : Nat :=
  let digits := (cs.takeWhile fun c => isDigit c || c == '_').length
  if digits == 0 then 0 else 2 + digits + suffixLength ['l', 'L'] (cs.drop digits)

/-- The length of the number that stands before the rest. -/
def numberLength (cs : List Char) : Nat :=
  let based := match cs with
    | '0' :: b :: rest =>
      if b == 'x' || b == 'X' then basedLength isHexDigit rest
      else if b == 'o' || b == 'O' then basedLength (fun c => '0' ≤ c && c ≤ '7') rest
      else if b == 'b' || b == 'B' then basedLength (fun c => c == '0' || c == '1') rest
      else 0
    | _ => 0
  if based != 0 then based
  else
    let whole := digitRun Char.isDigit false cs
    match cs.drop whole with
    | '.' :: rest =>
      let part := digitRun Char.isDigit false rest
      let length := whole + 1 + part
      let length := length + exponentLength (cs.drop length)
      length + suffixLength ['j', 'J'] (cs.drop length)
    | rest =>
      let exponent := exponentLength rest
      let length := whole + exponent
      if exponent == 0 then length + suffixLength ['l', 'L', 'j', 'J'] (cs.drop length)
      else length + suffixLength ['j', 'J'] (cs.drop length)

/-! ### Symbols -/

/-- The symbols of three characters. -/
def symbols3 : List String := ["**=", "//=", ">>=", "<<=", "..."]

/-- The symbols of two characters. -/
def symbols2 : List String := [
  "**", "//", ">>", "<<", "<=", ">=", "==", "!=", "<>", "->", ":=", "+=", "-=", "*=", "/=", "%=", "@=",
  "&=", "|=", "^="]

/-- The length of the symbol that stands before the rest: the longest that fits. -/
def symbolLength (cs : List Char) : Nat :=
  if symbols3.contains (String.ofList (cs.take 3)) then 3
  else if symbols2.contains (String.ofList (cs.take 2)) then 2
  else 1

/-! ### Strings -/

/-- The flags before a string's quote, the quote included, if a string begins here. -/
def stringStart? (cs : List Char) : Option (Nat × Delimiter) :=
  let flags := cs.takeWhile isStringFlag
  match cs.drop flags.length with
  | q :: rest =>
    if isQuote q then
      let triple := q != '\x60' && (match rest with
        | a :: b :: _ => a == q && b == q
        | _ => false)
      some (flags.length + (if triple then 3 else 1),
        { quote := q, triple
          raw := flags.any fun c => c == 'r' || c == 'R'
          format := flags.any fun c => c == 'f' || c == 'F' })
    else none
  | [] => none

/-- How many characters a backslash in a string takes with it, itself included. -/
def escapeLength (raw : Bool) (quote : Char) : List Char → Nat
  | [] => 1
  | c :: rest =>
    if raw then
      if c == quote || c == '\\' || c == '\n' then 2 else 1
    else if c == 'N' && rest.head? == some '\x7b' then
      let name := rest.tail.takeWhile (· != '\x7d')
      if rest.length ≤ name.length + 1 || name.isEmpty then 1 else 4 + name.length
    else if c == '\r' then (if rest.head? == some '\n' then 3 else 1)
    else if c == '\x7b' || c == '\x7d' then 1
    else 2

/-- A step inside a string. -/
def stepString (s : Lexing) (d : Delimiter) : Lexing :=
  match s.rest with
  | [] => s
  | c :: rest =>
    if d.format && c == '\x7b' then
      if rest.head? == some '\x7b' then s.skip 2 else (s.emit .fieldStart 1).push (.field 0)
    else if d.format && c == '\x7d' then
      if rest.head? == some '\x7d' then s.skip 2 else s.skip 1
    else if c == '\\' then s.skip (escapeLength d.raw d.quote rest)
    else if c == d.quote then
      if d.triple then
        if rest.take 2 == [c, c] then (s.emit .stringEnd 3).pop else s.skip 1
      else (s.emit .stringEnd 1).pop
    else s.skip 1

/-- A step inside the format of an expression. -/
def stepFormat (s : Lexing) : Lexing :=
  match s.rest with
  | '\x7b' :: _ => (s.emit .fieldStart 1).push (.field 0)
  | '\x7d' :: _ => (s.emit .fieldEnd 1).pop.pop
  | _ => s.skip 1

/-! ### Code -/

/-- Passes over one blank and measures the indentation. -/
def stepBlank (s : Lexing) (c : Char) : Lexing :=
  let indent :=
    if c == '\n' then some 0
    else if c == ' ' then s.indent.map (· + 1)
    else if c == '\t' then s.indent.map (· + 8)
    else if c == '\r' || c.toNat == 12 then s.indent.map fun _ => 0
    else s.indent
  { s.skip 1 with indent }

/-- Whether nothing but comments and line continuations stands between the place reached and the mark of a
decorator. -/
def isBehindMark : List Token → Bool
  | [] => false
  | t :: before => if t.kind == .extra then isBehindMark before else t.isSymbol "@" && t.indent.isSome

/-- Passes over a comment; behind the mark of a decorator it is a token. -/
def stepComment (s : Lexing) : Lexing :=
  let length := (s.rest.takeWhile (· != '\n')).length
  if isBehindMark s.read then s.emit .extra length
  else
    let after := s.skip length
    { after with comments := ⟨if s.frames.isEmpty then s.indent else none, after.mark⟩ :: s.comments }

/-- Passes over a backslash and what it takes with it; behind the mark of a decorator a line continuation is a
token. -/
def stepBackslash (s : Lexing) (rest : List Char) : Lexing :=
  let length := if rest.head? == some '\r' && rest.tail.head? == some '\n' then 3 else 2
  if isBehindMark s.read && (length == 3 || rest.head? == some '\n') then s.emit .extra length
  else s.skip length

/-- What closes and opens with a symbol of one character. -/
def stepSymbol (s : Lexing) (c : Char) : Lexing :=
  if c == '(' || c == '[' || c == '\x7b' then (s.emit .symbol 1).push .bracket
  else if c == ')' || c == ']' || c == '\x7d' then (s.emit .symbol 1).pop
  else s.emit .symbol (symbolLength s.rest)

/-- The innermost frame, if it is an expression inside a string, with its count of `lambda` words. -/
def fieldLambdas? (s : Lexing) : Option Nat :=
  match s.frames with
  | .field lambdas :: _ => some lambdas
  | _ => none

/-- A step directly inside an expression in a string, where braces, colons and exclamation marks have a
meaning of their own; `none` if the place is like any other code. -/
def stepField? (s : Lexing) (lambdas : Nat) : Option Lexing :=
  match s.rest with
  | '\x7d' :: _ => some (s.emit .fieldEnd 1).pop
  | ':' :: rest =>
    if rest.head? == some '=' then none
    else if 0 < lambdas then some { s.emit .symbol 1 with frames := .field (lambdas - 1) :: s.frames.tail }
    else some ((s.emit .formatStart 1).push .format)
  | '!' :: c :: _ => if c.isLower then some (s.emit .conversion 2) else none
  | _ => none

/-- A step in code. -/
def stepCode (s : Lexing) : Lexing :=
  match s.rest with
  | [] => s
  | c :: rest =>
    if isBlank c then stepBlank s c
    else if c == '#' then stepComment s
    else if c == '\\' then stepBackslash s rest
    else
      match (fieldLambdas? s).bind (stepField? s) with
      | some s => s
      | none =>
        match stringStart? s.rest with
        | some (length, d) => (s.emit .stringStart length).push (.string d)
        | none =>
          if isNameStart c then
            let word := s.rest.takeWhile isNamePart
            let frames := match s.frames with
              | .field n :: more =>
                if word == ['l', 'a', 'm', 'b', 'd', 'a'] then .field (n + 1) :: more else s.frames
              | frames => frames
            { s.emit .name word.length with frames }
          else if c.isDigit || (c == '.' && (rest.head?.map Char.isDigit).getD false) then
            s.emit .number (numberLength s.rest)
          else stepSymbol s c

/-- A step of the lexer. -/
def stepLexer (s : Lexing) : Lexing :=
  match s.frames with
  | .string d :: _ => stepString s d
  | .format :: _ => stepFormat s
  | _ => stepCode s

/-- Runs the lexer over at most `fuel` steps. -/
def runLexer : Nat → Lexing → Lexing
  | 0, s => s
  | fuel + 1, s => if s.rest.isEmpty then s else runLexer fuel (stepLexer s)

/-- The tokens of a source text. -/
def tokens (source : List Char) : List Token :=
  let s := runLexer (source.length + 1) { rest := source, mark := .start }
  let s := { s with frames := [], indent := some 0 }
  (s.emit .endOfFile 0).read.reverse

end CallGraph.Source
