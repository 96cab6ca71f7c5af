import CallGraph.Source.Lexer
import CallGraph.Source.Tree

/-!
# The grammar of Python

`parse` builds the syntax tree of a source text that is valid Python; older forms of the print, exec,
raise and except statements are read as well.  The order of operators has no bearing on an outline, so an
expression is a flat group of operands and operators.  A word is a keyword only where the grammar has one
in that place.  A line ends where the next token begins one; a block lasts as long as its lines are
indented at least as far as its first one, and the comments indented as far as that still belong to it.
-/

namespace CallGraph.Source

namespace Tree

/-- A construct that reaches from the first of its parts to the last one. -/
def ofParts (construct : Construct) (parts : List (Label × Tree)) : Tree :=
  let first := (parts.head?.map (·.2.extent.start)).getD .start
  let last := (parts.getLast?.map (·.2.extent.stop)).getD .start
  .node construct ⟨first, last⟩ (.ofList parts)

/-- A construct without a name of its own. -/
def group (trees : List Tree) : Tree :=
  ofParts .group (trees.map fun t => (.plain, t))

end Tree

/-- What is left to read, and where the last token or comment that was read stops. -/
structure Reading where
  tokens : List Token
  stop : Mark

/-- A reader of syntax. -/
abbrev Reader := StateT Reading Option

namespace Reader

/-! ### Single tokens -/

/-- The token that stands where a text has ended. -/
def endToken (stop : Mark) : Token :=
  { kind := .endOfFile, text := "", start := stop, stop, indent := some 0, comments := [] }

/-- The next token. -/
def peek : Reader Token := do
  let s ← get
  return s.tokens.headD (endToken s.stop)

/-- The token after the next one. -/
def peekSecond : Reader Token := do
  let s ← get
  return s.tokens.tail.headD (endToken s.stop)

/-- Reads the next token. -/
def next : Reader Token := do
  let s ← get
  match s.tokens with
  | [] => failure
  | t :: rest =>
    if t.kind == .endOfFile then failure
    set ({ tokens := rest, stop := t.stop } : Reading)
    return t

/-- The tree of a token. -/
def leaf (t : Token) : Tree :=
  .token t.isNamed t.text ⟨t.start, t.stop⟩

/-- Reads any token. -/
def anyToken : Reader Tree := do
  return leaf (← next)

/-- Reads a given symbol. -/
def symbol (text : String) : Reader Tree := do
  if (← peek).isSymbol text then anyToken else failure

/-- Reads a given word as a keyword. -/
def word (text : String) : Reader Tree := do
  if (← peek).isWord text then anyToken else failure

/-- Reads a token of a kind. -/
def ofKind (kind : TokenKind) : Reader Tree := do
  if (← peek).kind == kind then anyToken else failure

/-- Reads a name as an identifier. -/
def identifier : Reader Tree := do
  let t ← peek
  if t.kind == .name then
    let t ← next
    return .identifier t.text ⟨t.start, t.stop⟩
  else failure

/-- Reads what is there if it is a given symbol of the same line. -/
def optionalSymbol (text : String) : Reader (List Tree) := do
  let t ← peek
  if t.isSymbol text && !t.beginsLine then return [← anyToken] else return []

/-- A tree without text at the place reached. -/
def empty : Reader Tree := do
  let s ← get
  return .token false "" ⟨s.stop, s.stop⟩

/-! ### Lines and blocks -/

/-- Reads the comments before the next token that satisfy a test, as far as they stand together. -/
def readComments (test : Comment → Bool) : Reader Unit :=
  modify fun s =>
    match s.tokens with
    | [] => s
    | t :: rest =>
      let read := t.comments.takeWhile test
      { tokens := { t with comments := t.comments.dropWhile test } :: rest
        stop := (read.getLast?.map (·.stop)).getD s.stop }

/-- Reads the end of a line, with a comment that stands on it. -/
def endLine : Reader Tree := do
  if (← peek).beginsLine then
    readComments (·.indent.isNone)
    empty
  else failure

/-- Whether a statement may end here. -/
def atEnd : Reader Bool := do
  let t ← peek
  return t.beginsLine || t.isSymbol ";"

/-- Reads the end of a block, with the comments indented as far as the block. -/
def endBlock (depth : Nat) : Reader Tree := do
  readComments fun c => depth ≤ c.indent.getD depth
  empty

/-- Whether a line that begins here belongs to a block. -/
def inBlock (depth : Nat) : Reader Bool := do
  let t ← peek
  return t.kind != .endOfFile && depth ≤ t.indent.getD depth

/-! ### Words and operators -/

/-- The words that go on with an expression. -/
def operatorWords : List String := ["and", "or", "in", "is"]

/-- The words that cannot begin an operand after `await`. -/
def notAwaited : List String :=
  ["in", "is", "and", "or", "if", "else", "for", "not", "as", "lambda", "from"]

/-- The symbols that join two operands. -/
def operatorSymbols : List String := [
  "+", "-", "*", "/", "//", "%", "@", "**", "<<", ">>", "&", "|", "^", "<", ">", "<=", ">=", "==", "!=",
  "<>", ":="]

/-- The symbols that may stand before an operand. -/
def prefixSymbols : List String := ["+", "-", "~", "*", "**"]

/-- The symbols that assign after an operation. -/
def augmentedSymbols : List String := [
  "+=", "-=", "*=", "/=", "@=", "//=", "%=", "**=", ">>=", "<<=", "&=", "^=", "|="]

/-- Whether an operand may begin with a token. -/
def beginsOperand (t : Token) : Bool :=
  t.kind == .name || t.kind == .number || t.kind == .stringStart
    || (t.kind == .symbol
      && (["(", "[", "\x7b", "..."].contains t.text || prefixSymbols.contains t.text))

/-- Whether a token ends an expression inside brackets or a statement. -/
def endsList (t : Token) : Bool :=
  !beginsOperand t

/-! ### Expressions -/

/-- Reads one operator between operands; `withIf` tells whether a condition may follow.  Gives the
operator's tokens, and `true` if it is the `if` of a condition. -/
def operator (withIf : Bool) : Reader (Option (List Tree × Bool)) := do
  let t ← peek
  if t.beginsLine then return none
  else if t.kind == .symbol && operatorSymbols.contains t.text then return some ([← anyToken], false)
  else if t.kind == .name then
    if t.text == "not" then
      if (← peekSecond).isWord "in" then return some ([← anyToken, ← anyToken], false)
      else return none
    else if t.text == "is" then
      let first ← anyToken
      let second ← peek
      if second.isWord "not" then return some ([first, ← anyToken], false)
      else return some ([first], false)
    else if operatorWords.contains t.text || t.text == "as" then return some ([← anyToken], false)
    else if t.text == "if" && withIf then return some ([← anyToken], true)
    else return none
  else return none

/-- Whether `await` begins an operand before the given token. -/
def awaits (t : Token) : Bool :=
  !t.beginsLine && beginsOperand t && !(t.kind == .name && notAwaited.contains t.text)

mutual

/-- Reads an expression; `withIf` tells whether it may hold a condition outside brackets. -/
def expression : Nat → Bool → Reader Tree
  | 0, _ => failure
  | fuel + 1, withIf => do
    let first ← operand fuel withIf
    let rest ← operations fuel withIf
    match rest with
    | [] => return first
    | _ => return .group (first :: rest)

/-- Reads operators and operands as long as they go on. -/
def operations : Nat → Bool → Reader (List Tree)
  | 0, _ => failure
  | fuel + 1, withIf => do
    match ← operator withIf with
    | none => return []
    | some (read, true) => do
      let test ← expression fuel true
      let other ← word "else"
      let value ← expression fuel withIf
      return read ++ [test, other, value] ++ (← operations fuel withIf)
    | some (read, false) => do
      let value ← operand fuel withIf
      return read ++ value :: (← operations fuel withIf)

/-- Reads an operand with the operators before it and the calls, indices and attributes after it. -/
def operand : Nat → Bool → Reader Tree
  | 0, _ => failure
  | fuel + 1, withIf => do
    let t ← peek
    if t.kind == .symbol && prefixSymbols.contains t.text then
      return .group [← anyToken, ← operand fuel withIf]
    else if t.isWord "not" then
      return .group [← anyToken, ← operand fuel withIf]
    else if t.isWord "await" && awaits (← peekSecond) then
      return .group [← anyToken, ← operand fuel withIf]
    else if t.isWord "lambda" then do
      let head ← anyToken
      let parameters ← parameters fuel false ":"
      let colon ← symbol ":"
      let body ← expression fuel withIf
      return .group (head :: parameters ++ [colon, body])
    else do
      let first ← atom fuel
      trailers fuel first

/-- Reads the attributes, calls and indices after an operand. -/
def trailers : Nat → Tree → Reader Tree
  | 0, _ => failure
  | fuel + 1, object => do
    let t ← peek
    if t.beginsLine then return object
    else if t.isSymbol "." then do
      let dot ← anyToken
      let name ← identifier
      let parts := [(.object, object), (.plain, dot), (.attribute, name)]
      trailers fuel (.ofParts .attribute parts)
    else if t.isSymbol "(" then do
      let arguments ← bracketed fuel
      trailers fuel (.ofParts .call [(.callee, object), (.plain, arguments)])
    else if t.isSymbol "[" then do
      let index ← bracketed fuel
      trailers fuel (.group [object, index])
    else return object

/-- Reads a name, a number, a string or something in brackets. -/
def atom : Nat → Reader Tree
  | 0 => failure
  | fuel + 1 => do
    let t ← peek
    match t.kind with
    | .name =>
      if t.text == "None" || t.text == "True" || t.text == "False" then anyToken else identifier
    | .number => anyToken
    | .stringStart => do
      let first ← string fuel
      strings fuel first
    | .symbol =>
      if t.text == "..." then anyToken
      else if t.text == "(" || t.text == "[" || t.text == "\x7b" then bracketed fuel
      else failure
    | _ => failure

/-- Reads a string and the expressions in it. -/
def string : Nat → Reader Tree
  | 0 => failure
  | fuel + 1 => do
    let first ← ofKind .stringStart
    let fields ← stringFields fuel
    let last ← ofKind .stringEnd
    return .group (first :: fields ++ [last])

/-- Reads the strings that follow a string directly. -/
def strings : Nat → Tree → Reader Tree
  | 0, _ => failure
  | fuel + 1, first => do
    let t ← peek
    if t.kind == .stringStart && !t.beginsLine then do
      let second ← string fuel
      strings fuel (.group [first, second])
    else return first

/-- Reads the expressions inside a string or a format. -/
def stringFields : Nat → Reader (List Tree)
  | 0 => failure
  | fuel + 1 => do
    if (← peek).kind == .fieldStart then do
      let first ← anyToken
      let value ← anyExpression fuel
      let debug ← optionalSymbol "="
      let conversion ← if (← peek).kind == .conversion then pure [← anyToken] else pure []
      let format ← if (← peek).kind == .formatStart then do
          let colon ← anyToken
          let fields ← stringFields fuel
          pure (colon :: fields)
        else pure []
      let last ← ofKind .fieldEnd
      let field := Tree.group (first :: value :: debug ++ conversion ++ format ++ [last])
      return field :: (← stringFields fuel)
    else return []

/-- Reads expressions with commas between them, or a single one. -/
def expressions : Nat → Reader Tree
  | 0 => failure
  | fuel + 1 => do
    let first ← expression fuel true
    let t ← peek
    if t.isSymbol "," && !t.beginsLine then do
      return .group (first :: (← moreExpressions fuel))
    else return first

/-- Reads a comma and the expressions after it. -/
def moreExpressions : Nat → Reader (List Tree)
  | 0 => failure
  | fuel + 1 => do
    let t ← peek
    if t.isSymbol "," && !t.beginsLine then do
      let comma ← anyToken
      let t ← peek
      if t.beginsLine || endsList t then return [comma]
      else do
        let value ← expression fuel true
        return comma :: value :: (← moreExpressions fuel)
    else return []

/-- Reads expressions or a yield. -/
def anyExpression : Nat → Reader Tree
  | 0 => failure
  | fuel + 1 => do
    if (← peek).isWord "yield" then do
      let head ← anyToken
      let t ← peek
      if t.beginsLine then return .group [head]
      else if t.isWord "from" then return .group [head, ← anyToken, ← expression fuel true]
      else if endsList t then return .group [head]
      else return .group [head, ← expressions fuel]
    else expressions fuel

/-- Reads brackets of any kind with what stands between them. -/
def bracketed : Nat → Reader Tree
  | 0 => failure
  | fuel + 1 => do
    let t ← peek
    let close := if t.text == "(" then ")" else if t.text == "[" then "]" else "\x7d"
    let first ← anyToken
    let content ← between fuel close true
    let last ← symbol close
    return .group (first :: content ++ [last])

/-- Reads what stands between brackets: expressions, named arguments, slices, pairs and the clauses of
comprehensions.  `withIf` is false behind the first clause. -/
def between : Nat → String → Bool → Reader (List Tree)
  | 0, _, _ => failure
  | fuel + 1, close, withIf => do
    let t ← peek
    if t.isSymbol close then return []
    else if t.isSymbol "," || t.isSymbol ":" then do
      let separator ← anyToken
      return separator :: (← between fuel close withIf)
    else if t.isWord "for" || (t.isWord "async" && (← peekSecond).isWord "for") then do
      let heads ← if t.isWord "async" then do pure [← anyToken, ← anyToken]
        else do pure [← anyToken]
      let targets ← forTargets fuel
      let inWord ← word "in"
      let source ← expression fuel false
      return heads ++ targets ++ inWord :: source :: (← between fuel close false)
    else if t.isWord "if" && !withIf then do
      let head ← anyToken
      let test ← expression fuel false
      return head :: test :: (← between fuel close false)
    else if t.kind == .name && (← peekSecond).isSymbol "=" then do
      let name ← identifier
      let equals ← anyToken
      let value ← expression fuel true
      return .group [name, equals, value] :: (← between fuel close withIf)
    else if t.isWord "yield" then do
      let value ← anyExpression fuel
      return value :: (← between fuel close withIf)
    else do
      let value ← expression fuel withIf
      return value :: (← between fuel close withIf)

/-- Reads what a loop assigns to. -/
def forTargets : Nat → Reader (List Tree)
  | 0 => failure
  | fuel + 1 => do
    let target ← operand fuel false
    if (← peek).isSymbol "," then do
      let comma ← anyToken
      if (← peek).isWord "in" then return [target, comma]
      else return target :: comma :: (← forTargets fuel)
    else return [target]

/-- Reads the parameters before a closing symbol; `typed` tells whether they may have types. -/
def parameters : Nat → Bool → String → Reader (List Tree)
  | 0, _, _ => failure
  | fuel + 1, typed, close => do
    let t ← peek
    if t.isSymbol close then return []
    else if t.isSymbol "," || t.isSymbol "*" || t.isSymbol "**" || t.isSymbol "/" then do
      let mark ← anyToken
      return mark :: (← parameters fuel typed close)
    else do
      let name ← if t.isSymbol "(" then do
          let first ← anyToken
          let inner ← parameters fuel false ")"
          let last ← symbol ")"
          pure (Tree.group (first :: inner ++ [last]))
        else identifier
      let type ← if typed && (← peek).isSymbol ":" then do
          let colon ← anyToken
          let type ← typeExpression fuel
          pure [colon, type]
        else pure []
      let value ← if (← peek).isSymbol "=" then do
          let equals ← anyToken
          let value ← expression fuel true
          pure [equals, value]
        else pure []
      return .group (name :: type ++ value) :: (← parameters fuel typed close)

/-- Reads a type.  Behind a name with parameters, a dot leads to a member and not to an attribute. -/
def typeExpression : Nat → Reader Tree
  | 0 => failure
  | fuel + 1 => do
    let t ← peek
    let t' ← peekSecond
    if t.kind == .name && t'.isSymbol "[" && !t'.beginsLine then do
      let name ← identifier
      let index ← bracketed fuel
      let generic ← typeMembers fuel (.group [name, index])
      let rest ← operations fuel true
      return .group (generic :: rest)
    else return .group [← expression fuel true]

/-- Reads the members after a type with parameters. -/
def typeMembers : Nat → Tree → Reader Tree
  | 0, _ => failure
  | fuel + 1, object => do
    let t ← peek
    if t.isSymbol "." && !t.beginsLine then do
      let dot ← anyToken
      let name ← identifier
      typeMembers fuel (.group [object, dot, name])
    else return object

end

/-! ### Imports -/

/-- Reads names joined by dots. -/
def dottedName : Nat → Reader (List Tree)
  | 0 => failure
  | fuel + 1 => do
    let name ← identifier
    let t ← peek
    if t.isSymbol "." && !t.beginsLine then do
      let dot ← anyToken
      return name :: dot :: (← dottedName fuel)
    else return [name]

/-- Reads a dotted name as one construct. -/
def dotted (fuel : Nat) : Reader Tree := do
  return .ofParts .dottedName ((← dottedName fuel).map fun t => (.plain, t))

/-- Reads an imported name, which may have another one behind `as`. -/
def importedName (fuel : Nat) : Reader Tree := do
  let name ← dotted fuel
  let t ← peek
  if t.isWord "as" && !t.beginsLine then do
    let asWord ← anyToken
    let asName ← identifier
    return .ofParts .aliasedImport [(.name, name), (.plain, asWord), (.asName, asName)]
  else return name

/-- Reads imported names with commas between them; a closing parenthesis may end them. -/
def importList : Nat → Reader (List (Label × Tree))
  | 0 => failure
  | fuel + 1 => do
    let name ← importedName fuel
    let t ← peek
    if t.isSymbol "," && !t.beginsLine then do
      let comma ← anyToken
      let t ← peek
      if t.beginsLine || t.isSymbol ")" || t.isSymbol ";" then return [(.name, name), (.plain, comma)]
      else return (.name, name) :: (.plain, comma) :: (← importList fuel)
    else return [(.name, name)]

/-- Reads imported names, in parentheses or not, or a star. -/
def importedNames (fuel : Nat) : Reader (List (Label × Tree)) := do
  let t ← peek
  if t.isSymbol "*" then return [(.plain, ← anyToken)]
  else if t.isSymbol "(" then do
    let first ← anyToken
    let names ← importList fuel
    let last ← symbol ")"
    return (.plain, first) :: names ++ [(.plain, last)]
  else importList fuel

/-- Reads the dots before a relative module name. -/
def importDots : Nat → Reader (List Tree)
  | 0 => failure
  | fuel + 1 => do
    let t ← peek
    if t.isSymbol "." || t.isSymbol "..." then do
      let dot ← anyToken
      return dot :: (← importDots fuel)
    else return []

/-- Reads the module of a from-import. -/
def importedModule (fuel : Nat) : Reader Tree := do
  let dots ← importDots fuel
  if dots.isEmpty then dotted fuel
  else if (← peek).isWord "import" then return .group dots
  else return .group (dots ++ [← dotted fuel])

/-- Reads an import statement. -/
def importStatement (fuel : Nat) : Reader Tree := do
  let head ← word "import"
  let names ← importList fuel
  return .ofParts .importStatement ((.plain, head) :: names)

/-- Reads a from-import.  One from `__future__` is no import of a module. -/
def importFrom (fuel : Nat) : Reader Tree := do
  let head ← word "from"
  if (← peek).isWord "__future__" then do
    let module ← anyToken
    let importWord ← word "import"
    let names ← importedNames fuel
    return .ofParts .group ((.plain, head) :: (.plain, module) :: (.plain, importWord) :: names)
  else do
    let module ← importedModule fuel
    let importWord ← word "import"
    let names ← importedNames fuel
    return .ofParts .importFrom ((.plain, head) :: (.module, module) :: (.plain, importWord) :: names)

/-! ### Simple statements -/

/-- Reads the right side of an assignment, which may assign again. -/
def assigned : Nat → Reader Tree
  | 0 => failure
  | fuel + 1 => do
    let value ← anyExpression fuel
    let t ← peek
    if t.isSymbol "=" && !t.beginsLine then do
      let equals ← anyToken
      let right ← assigned fuel
      return .ofParts .assignment [(.target, value), (.plain, equals), (.plain, right)]
    else return value

/-- Reads an expression, an assignment or an annotation. -/
def expressionStatement (fuel : Nat) : Reader Tree := do
  let first ← anyExpression fuel
  let t ← peek
  if t.beginsLine then return first
  else if t.isSymbol "=" then do
    let equals ← anyToken
    let right ← assigned fuel
    return .ofParts .assignment [(.target, first), (.plain, equals), (.plain, right)]
  else if t.kind == .symbol && augmentedSymbols.contains t.text then do
    let operator ← anyToken
    let right ← assigned fuel
    return .ofParts .assignment [(.target, first), (.plain, operator), (.plain, right)]
  else if t.isSymbol ":" then do
    let colon ← anyToken
    let type ← typeExpression fuel
    let t ← peek
    if t.isSymbol "=" && !t.beginsLine then do
      let equals ← anyToken
      let right ← assigned fuel
      return .ofParts .assignment
        [(.target, first), (.plain, colon), (.plain, type), (.plain, equals), (.plain, right)]
    else return .ofParts .assignment [(.target, first), (.plain, colon), (.plain, type)]
  else return first

/-- Reads names with commas between them. -/
def nameList : Nat → Reader (List Tree)
  | 0 => failure
  | fuel + 1 => do
    let name ← identifier
    let t ← peek
    if t.isSymbol "," && !t.beginsLine then do
      let comma ← anyToken
      return name :: comma :: (← nameList fuel)
    else return [name]

/-- Runs a reader and demands that the statement ends there. -/
def toEnd (reader : Reader Tree) : Reader Tree := do
  let tree ← reader
  if ← atEnd then return tree else failure

/-- Reads the statement form of printing. -/
def printStatement (fuel : Nat) : Reader Tree := do
  let head ← word "print"
  let t ← peek
  if t.isSymbol ">>" then do
    let arrow ← anyToken
    let file ← expression fuel true
    return .group (head :: arrow :: file :: (← moreExpressions fuel))
  else return .group [head, ← expressions fuel]

/-- Reads the statement form of executing a text or a name. -/
def execStatement (fuel : Nat) : Reader Tree := do
  let head ← word "exec"
  let t ← peek
  let code ← if t.kind == .stringStart then string fuel else identifier
  let t ← peek
  if t.isWord "in" && !t.beginsLine then return .group [head, code, ← anyToken, ← expressions fuel]
  else return .group [head, code]

/-- Reads a type alias. -/
def typeAlias (fuel : Nat) : Reader Tree := do
  let head ← word "type"
  if (← peek).beginsLine then failure
  let name ← typeExpression fuel
  let equals ← symbol "="
  let type ← typeExpression fuel
  return .group [head, name, equals, type]

/-- Reads a keyword and the expressions that may follow it. -/
def keywordStatement (fuel : Nat) : Reader Tree := do
  let head ← anyToken
  let t ← peek
  if t.beginsLine || endsList t then return .group [head] else return .group [head, ← expressions fuel]

/-- Reads a raise statement. -/
def raiseStatement (fuel : Nat) : Reader Tree := do
  let head ← anyToken
  let t ← peek
  let value ← if t.beginsLine || endsList t || t.isWord "from" then pure []
    else do pure [← expressions fuel]
  let t ← peek
  if t.isWord "from" && !t.beginsLine then
    return .group (head :: value ++ [← anyToken, ← expression fuel true])
  else return .group (head :: value)

/-- Whether the exec statement begins with the given second token. -/
def beginsExec (t : Token) : Bool :=
  !t.beginsLine && (t.kind == .stringStart || (t.kind == .name && !notAwaited.contains t.text))

/-- Reads a statement that fits on one line.  A word that is a keyword only in some statements is read as
one if the statement then ends where it should. -/
def simpleStatement (fuel : Nat) : Reader Tree := do
  let t ← peek
  let second ← peekSecond
  if t.kind != .name then expressionStatement fuel
  else if t.text == "import" then importStatement fuel
  else if t.text == "from" then importFrom fuel
  else if t.text == "pass" || t.text == "break" || t.text == "continue" then anyToken
  else if t.text == "return" || t.text == "del" || t.text == "assert" then keywordStatement fuel
  else if t.text == "raise" then raiseStatement fuel
  else if t.text == "global" || t.text == "nonlocal" then
    return .group ((← anyToken) :: (← nameList fuel))
  else if t.text == "print" then
    if second.isSymbol ">>" && !second.beginsLine then printStatement fuel
    else toEnd (expressionStatement fuel) <|> printStatement fuel
  else if t.text == "exec" && beginsExec second then
    toEnd (execStatement fuel) <|> expressionStatement fuel
  else if t.text == "type" && !second.beginsLine then
    toEnd (typeAlias fuel) <|> expressionStatement fuel
  else expressionStatement fuel

/-- Reads the statements of a line, with semicolons between them, and its end. -/
def simpleLine : Nat → Reader (List Tree)
  | 0 => failure
  | fuel + 1 => do
    let first ← simpleStatement fuel
    let t ← peek
    if t.isSymbol ";" && !t.beginsLine then do
      let semicolon ← anyToken
      if (← peek).beginsLine then return [first, semicolon, ← endLine]
      else return first :: semicolon :: (← simpleLine fuel)
    else return [first, ← endLine]

/-! ### Patterns -/

/-- Reads the names after a name of a pattern. -/
def patternMembers : Nat → Reader (List Tree)
  | 0 => failure
  | fuel + 1 => do
    if (← peek).isSymbol "." then do
      let dot ← anyToken
      let name ← identifier
      return dot :: name :: (← patternMembers fuel)
    else return []

/-- Reads the patterns of a case, or between brackets up to a closing symbol.  A lone underscore is no
identifier. -/
def patterns : Nat → Option String → Reader (List Tree)
  | 0, _ => failure
  | fuel + 1, close => do
    let t ← peek
    match close with
    | some close =>
      if t.isSymbol close then return []
      else patternsFrom fuel (some close)
    | none =>
      if t.isSymbol ":" || t.isWord "if" then return []
      else patternsFrom fuel none
where
  /-- Reads one piece of a pattern and the pieces after it. -/
  patternsFrom (fuel : Nat) (close : Option String) : Reader (List Tree) := do
    let t ← peek
    if t.kind == .name then
      if t.text == "_" || t.text == "None" || t.text == "True" || t.text == "False" then
        return (← anyToken) :: (← patterns fuel close)
      else if t.text == "as" then
        let asWord ← anyToken
        let name ← identifier
        return asWord :: name :: (← patterns fuel close)
      else
        let name ← identifier
        let members ← patternMembers fuel
        return name :: members ++ (← patterns fuel close)
    else if t.kind == .stringStart then
      let first ← string fuel
      return first :: (← patterns fuel close)
    else if t.isSymbol "(" || t.isSymbol "[" || t.isSymbol "\x7b" then
      let inner := if t.text == "(" then ")" else if t.text == "[" then "]" else "\x7d"
      let first ← anyToken
      let content ← patterns fuel (some inner)
      let last ← symbol inner
      return .group (first :: content ++ [last]) :: (← patterns fuel close)
    else return (← anyToken) :: (← patterns fuel close)

/-! ### Compound statements -/

/-- Reads the parameters of a generic definition, if it has any. -/
def typeParameters : Nat → Reader (List Tree)
  | 0 => failure
  | fuel + 1 => do
    let t ← peek
    if t.isSymbol "]" then return [← anyToken]
    else if t.isSymbol "," || t.isSymbol ":" then return (← anyToken) :: (← typeParameters fuel)
    else return (← typeExpression fuel) :: (← typeParameters fuel)

/-- Reads the bracketed parameters of a generic definition, if it has any. -/
def genericHead (fuel : Nat) : Reader (List Tree) := do
  if (← peek).isSymbol "[" then return (← anyToken) :: (← typeParameters fuel) else return []

/-- Reads the head of a function after its name. -/
def functionHead (fuel : Nat) : Reader (List Tree) := do
  let generic ← genericHead fuel
  let first ← symbol "("
  let inner ← parameters fuel true ")"
  let last ← symbol ")"
  let result ← if (← peek).isSymbol "->" then do
      let arrow ← anyToken
      let type ← typeExpression fuel
      pure [arrow, type]
    else pure []
  let colon ← symbol ":"
  return generic ++ first :: inner ++ last :: result ++ [colon]

/-- Reads the head of a class after its name. -/
def classHead (fuel : Nat) : Reader (List Tree) := do
  let generic ← genericHead fuel
  let bases ← if (← peek).isSymbol "(" then do pure [← bracketed fuel] else pure []
  let colon ← symbol ":"
  return generic ++ bases ++ [colon]

/-- A definition from its parts. -/
def definitionTree (construct : Construct) (before : List Tree) (name : Tree) (head : List Tree)
    (body : Tree) : Tree :=
  .ofParts construct (before.map (fun t => (.plain, t)) ++ (.name, name) ::
    head.map (fun t => (.plain, t)) ++ [(.body, body)])

/-- Reads comments and line continuations that are tokens. -/
def extras : Nat → Reader (List Tree)
  | 0 => failure
  | fuel + 1 => do
    if (← peek).kind == .extra then return (← anyToken) :: (← extras fuel) else return []

/-- Reads decorators, each on a line of its own. -/
def decorators : Nat → Reader (List Tree)
  | 0 => failure
  | fuel + 1 => do
    if (← peek).isSymbol "@" then do
      let mark ← anyToken
      let extras ← extras fuel
      let value ← expression fuel true
      let stop ← endLine
      let tree := Tree.ofParts .decorator ((mark :: extras ++ [value, stop]).map fun t => (.plain, t))
      return tree :: (← decorators fuel)
    else return []

mutual

/-- Reads the statements of a block. -/
def statements : Nat → Nat → Reader (List Tree)
  | 0, _ => failure
  | fuel + 1, depth => do
    if ← inBlock depth then do
      let first ← statement fuel depth
      return first ++ (← statements fuel depth)
    else return []

/-- Reads what follows a colon: statements on the same line, an indented block, or nothing. -/
def suite : Nat → Nat → Reader Tree
  | 0, _ => failure
  | fuel + 1, depth => do
    let t ← peek
    if t.beginsLine then do
      readComments (·.indent.isNone)
      let inner := t.indent.getD 0
      if t.kind != .endOfFile && depth < inner then do
        let first ← empty
        let body ← statements fuel inner
        return .group (first :: body ++ [← endBlock inner])
      else empty
    else return .group (← simpleLine fuel)

/-- Reads a statement, or the statements of a line. -/
def statement : Nat → Nat → Reader (List Tree)
  | 0, _ => failure
  | fuel + 1, depth => do
    let t ← peek
    let second ← peekSecond
    if t.isSymbol "@" then do
      let marks ← decorators fuel
      let definition ← definition fuel depth
      return [.group (marks ++ [definition])]
    else if t.kind != .name then simpleLine fuel
    else if t.text == "def" || t.text == "class" || (t.text == "async" && second.isWord "def") then
      return [← definition fuel depth]
    else if t.text == "if" then do
      let head ← anyToken
      let test ← expression fuel true
      let colon ← symbol ":"
      let body ← suite fuel depth
      let more ← clauses fuel depth ["elif", "else"]
      return [.group (head :: test :: colon :: body :: more)]
    else if t.text == "while" then do
      let head ← anyToken
      let test ← expression fuel true
      let colon ← symbol ":"
      let body ← suite fuel depth
      let more ← clauses fuel depth ["else"]
      return [.group (head :: test :: colon :: body :: more)]
    else if t.text == "for" || (t.text == "async" && second.isWord "for") then do
      let before ← if t.text == "async" then do pure [← anyToken] else pure []
      let head ← anyToken
      let targets ← forTargets fuel
      let inWord ← word "in"
      let source ← expressions fuel
      let colon ← symbol ":"
      let body ← suite fuel depth
      let more ← clauses fuel depth ["else"]
      return [.group (before ++ head :: targets ++ inWord :: source :: colon :: body :: more)]
    else if t.text == "with" || (t.text == "async" && second.isWord "with") then do
      let before ← if t.text == "async" then do pure [← anyToken] else pure []
      let head ← anyToken
      let values ← expressions fuel
      let colon ← symbol ":"
      let body ← suite fuel depth
      return [.group (before ++ [head, values, colon, body])]
    else if t.text == "try" then do
      let head ← anyToken
      let colon ← symbol ":"
      let body ← suite fuel depth
      let more ← clauses fuel depth ["except", "else", "finally"]
      return [.group (head :: colon :: body :: more)]
    else if t.text == "match" && !second.beginsLine then
      matchStatement fuel depth <|> simpleLine fuel
    else simpleLine fuel

/-- Reads the clauses that go on with a statement. -/
def clauses : Nat → Nat → List String → Reader (List Tree)
  | 0, _, _ => failure
  | fuel + 1, depth, heads => do
    let t ← peek
    if t.kind == .name && heads.contains t.text && (← inBlock depth) then do
      let head ← anyToken
      let values ← if (← peek).isSymbol ":" then pure [] else do pure [← expressions fuel]
      let colon ← symbol ":"
      let body ← suite fuel depth
      return .group (head :: values ++ [colon, body]) :: (← clauses fuel depth heads)
    else return []

/-- Reads a function or class. -/
def definition : Nat → Nat → Reader Tree
  | 0, _ => failure
  | fuel + 1, depth => do
    if (← peek).isWord "class" then do
      let head ← anyToken
      let name ← identifier
      let rest ← classHead fuel
      let body ← suite fuel depth
      return definitionTree .classDefinition [head] name rest body
    else do
      let before ← if (← peek).isWord "async" then do pure [← anyToken] else pure []
      let head ← word "def"
      let name ← identifier
      let rest ← functionHead fuel
      let body ← suite fuel depth
      return definitionTree .functionDefinition (before ++ [head]) name rest body

/-- Reads a match statement. -/
def matchStatement : Nat → Nat → Reader (List Tree)
  | 0, _ => failure
  | fuel + 1, depth => do
    let head ← word "match"
    let subject ← expressions fuel
    let colon ← symbol ":"
    let t ← peek
    if t.beginsLine then do
      readComments (·.indent.isNone)
      let inner := t.indent.getD 0
      if t.kind != .endOfFile && depth < inner then do
        let cases ← cases fuel inner
        return [.group ([head, subject, colon] ++ cases ++ [← endBlock inner])]
      else return [.group [head, subject, colon, ← empty]]
    else failure

/-- Reads the cases of a match statement. -/
def cases : Nat → Nat → Reader (List Tree)
  | 0, _ => failure
  | fuel + 1, depth => do
    if ← inBlock depth then do
      let head ← word "case"
      let pattern ← patterns fuel none
      let guard ← if (← peek).isWord "if" then do
          let ifWord ← anyToken
          let test ← expression fuel true
          pure [ifWord, test]
        else pure []
      let colon ← symbol ":"
      let body ← suite fuel depth
      return .group (head :: pattern ++ guard ++ [colon, body]) :: (← cases fuel depth)
    else return []

end

end Reader

/-- The syntax tree of a source text, if it could be read to its end. -/
def parse (source : List Char) : Option Tree :=
  let read := tokens source
  let fuel := 16 * (read.length + 4)
  match Reader.statements fuel 0 ⟨read, .start⟩ with
  | some (trees, rest) => if rest.tokens.all (·.kind == .endOfFile) then some (.group trees) else none
  | none => none

namespace Grammar

/-- The parser that follows the grammar.  A text that does not follow it has a tree without parts. -/
scoped instance parser : Parser where
  tree source := ((parse source).filter fun tree => tree.IsSound).getD default

scoped instance soundParser : SoundParser where
  sound source := by
    change (((parse source).filter fun tree => tree.IsSound).getD default).IsSound
    cases h : (parse source).filter fun tree => tree.IsSound with
    | none => exact .default
    | some tree => exact of_decide_eq_true (Option.mem_filter_iff.mp h).2

end Grammar

end CallGraph.Source
