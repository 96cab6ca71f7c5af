/-!
# Flat TOML documents

`Toml.read` reads a document of `key = value` lines.  Keys are bare or quoted; values are truth values,
integers in four bases and texts in four kinds of quotes.  All else that TOML knows (tables, dotted keys,
arrays, floats and dates), a key that occurs twice and anything that is no TOML gives nothing.
-/

namespace CallGraph.Toml

/-- A value of a flat document. -/
inductive Value where
  | bool (value : Bool)
  | integer (value : Int)
  | text (value : String)
  deriving DecidableEq, Repr

/-- Whether a character may stand in a comment or a quoted text: no control but the tab. -/
def isPlain (c : Char) : Bool :=
  c == '\t' || (0x20 ≤ c.toNat && c.toNat != 0x7F)

/-- Whether a character may stand in a bare key. -/
def isBare (c : Char) : Bool :=
  c.isAlphanum || c == '-' || c == '_'

/-- What follows the blanks of a line. -/
def skipBlanks (cs : List Char) : List Char :=
  cs.dropWhile fun c => c == ' ' || c == '\t'

/-- What follows a line break, if there is one. -/
def lineBreak? : List Char → Option (List Char)
  | '\n' :: rest => some rest
  | '\r' :: '\n' :: rest => some rest
  | _ => none

/-- What follows the end of a line: blanks, a comment and a line break or the end of the document. -/
def endOfLine? (cs : List Char) : Option (List Char) :=
  let cs := skipBlanks cs
  let cs := match cs with
    | '#' :: rest => rest.dropWhile isPlain
    | _ => cs
  if cs.isEmpty then some [] else lineBreak? cs

/-- The value of a digit in a base of at most sixteen. -/
def digit? (base : Nat) (c : Char) : Option Nat :=
  let value? :=
    if c.isDigit then some (c.toNat - 48)
    else if 'a' ≤ c && c ≤ 'f' then some (c.toNat - 87)
    else if 'A' ≤ c && c ≤ 'F' then some (c.toNat - 55)
    else none
  value?.filter (· < base)

/-- The value of digits with single underscores between them. -/
def number? (base : Nat) (value : Nat) (afterDigit : Bool) : List Char → Option Nat
  | [] => if afterDigit then some value else none
  | c :: rest =>
    if c == '_' then if afterDigit then number? base value false rest else none
    else (digit? base c).bind fun d => number? base (value * base + d) true rest

/-- The integer that a word spells, if it fits in 64 bits. -/
def integer? (word : List Char) : Option Int :=
  let value? : Option Int := match word with
    | '0' :: 'x' :: digits => (number? 16 0 false digits).map Int.ofNat
    | '0' :: 'o' :: digits => (number? 8 0 false digits).map Int.ofNat
    | '0' :: 'b' :: digits => (number? 2 0 false digits).map Int.ofNat
    | _ =>
      let (negative, digits) := match word with
        | '+' :: digits => (false, digits)
        | '-' :: digits => (true, digits)
        | digits => (false, digits)
      match digits with
      | '0' :: _ :: _ => none
      | _ => (number? 10 0 false digits).map fun n => if negative then -(n : Int) else n
  value?.filter fun n => -9223372036854775808 ≤ n && n ≤ 9223372036854775807

/-- The character of hexadecimal digits, if it is one. -/
def character? (digits : List Char) : Option Char :=
  (digits.foldl (fun n? c => n?.bind fun n => (digit? 16 c).map fun d => n * 16 + d) (some 0)).bind fun n =>
    if n < 0xD800 || (0xDFFF < n && n < 0x110000) then some (Char.ofNat n) else none

/-- The character an escape stands for, and what follows it. -/
def escape? : List Char → Option (Char × List Char)
  | 'b' :: rest => some (Char.ofNat 8, rest)
  | 't' :: rest => some ('\t', rest)
  | 'n' :: rest => some ('\n', rest)
  | 'f' :: rest => some (Char.ofNat 12, rest)
  | 'r' :: rest => some ('\r', rest)
  | '"' :: rest => some ('"', rest)
  | '\\' :: rest => some ('\\', rest)
  | 'u' :: rest =>
    if rest.length < 4 then none else (character? (rest.take 4)).map fun c => (c, rest.drop 4)
  | 'U' :: rest =>
    if rest.length < 8 then none else (character? (rest.take 8)).map fun c => (c, rest.drop 8)
  | _ => none

/-- Reads a text on one line up to its quote; only between double quotes are there escapes. -/
def readLine (quote : Char) : Nat → List Char → List Char → Option (String × List Char)
  | 0, _, _ => none
  | fuel + 1, read, cs =>
    match cs with
    | [] => none
    | c :: rest =>
      if c == quote then some (String.ofList read.reverse, rest)
      else if c == '\\' && quote == '"' then
        (escape? rest).bind fun (c, rest) => readLine quote fuel (c :: read) rest
      else if isPlain c then readLine quote fuel (c :: read) rest
      else none

/-- What follows blanks and line breaks. -/
def skipSpace : Nat → List Char → List Char
  | 0, cs => cs
  | fuel + 1, cs =>
    match lineBreak? cs with
    | some rest => skipSpace fuel rest
    | none =>
      match cs with
      | ' ' :: rest => skipSpace fuel rest
      | '\t' :: rest => skipSpace fuel rest
      | _ => cs

/-- Reads a text over several lines up to three quotes, before which up to two more belong to the text. -/
def readLines (quote : Char) : Nat → List Char → List Char → Option (String × List Char)
  | 0, _, _ => none
  | fuel + 1, read, cs =>
    match cs with
    | [] => none
    | c :: rest =>
      if c == quote then
        let run := (cs.takeWhile (· == quote)).length
        if run < 3 then readLines quote fuel (c :: read) rest
        else
          let kept := min (run - 3) 2
          some (String.ofList (List.replicate kept quote ++ read).reverse, cs.drop (kept + 3))
      else if c == '\\' && quote == '"' then
        match escape? rest with
        | some (c, rest) => readLines quote fuel (c :: read) rest
        | none =>
          match lineBreak? (skipBlanks rest) with
          | some rest => readLines quote fuel read (skipSpace (rest.length + 1) rest)
          | none => none
      else
        match lineBreak? cs with
        | some rest => readLines quote fuel ('\n' :: read) rest
        | none => if isPlain c then readLines quote fuel (c :: read) rest else none

/-- Reads a quoted text from its first quote on. -/
def readQuoted (quote : Char) (cs : List Char) : Option (String × List Char) :=
  match cs with
  | a :: b :: c :: rest =>
    if a == quote && b == quote && c == quote then
      readLines quote (rest.length + 1) [] ((lineBreak? rest).getD rest)
    else if a == quote then readLine quote (rest.length + 4) [] (b :: c :: rest)
    else none
  | a :: rest => if a == quote then readLine quote (rest.length + 1) [] rest else none
  | [] => none

/-- Reads a value. -/
def readValue (cs : List Char) : Option (Value × List Char) :=
  match cs with
  | '"' :: _ => (readQuoted '"' cs).map fun (s, rest) => (.text s, rest)
  | '\x27' :: _ => (readQuoted '\x27' cs).map fun (s, rest) => (.text s, rest)
  | _ =>
    let isWord (c : Char) : Bool := c.isAlphanum || c == '_' || c == '+' || c == '-' || c == '.' || c == ':'
    let word := cs.takeWhile isWord
    let rest := cs.dropWhile isWord
    if word == ['t', 'r', 'u', 'e'] then some (.bool true, rest)
    else if word == ['f', 'a', 'l', 's', 'e'] then some (.bool false, rest)
    else (integer? word).map fun n => (.integer n, rest)

/-- Reads a key that has one part. -/
def readKey (cs : List Char) : Option (String × List Char) :=
  match cs with
  | '"' :: rest => readLine '"' (rest.length + 1) [] rest
  | '\x27' :: rest => readLine '\x27' (rest.length + 1) [] rest
  | _ =>
    let key := cs.takeWhile isBare
    if key.isEmpty then none else some (String.ofList key, cs.dropWhile isBare)

/-- Reads the lines of a document; `read` holds the entries so far, the last one first. -/
def readEntries : Nat → List (String × Value) → List Char → Option (List (String × Value))
  | 0, read, _ => some read.reverse
  | fuel + 1, read, cs =>
    let cs := skipBlanks cs
    if cs.isEmpty then some read.reverse
    else
      match endOfLine? cs with
      | some rest => readEntries fuel read rest
      | none => do
        let (key, rest) ← readKey cs
        match skipBlanks rest with
        | '=' :: rest => do
          let (value, rest) ← readValue (skipBlanks rest)
          let rest ← endOfLine? rest
          if read.any (·.1 == key) then none else readEntries fuel ((key, value) :: read) rest
        | _ => none

/-- The entries of a document, if it is flat. -/
def read (source : String) : Option (List (String × Value)) :=
  let cs := match source.toList with
    | '\uFEFF' :: rest => rest
    | cs => cs
  readEntries (cs.length + 1) [] cs

end CallGraph.Toml
