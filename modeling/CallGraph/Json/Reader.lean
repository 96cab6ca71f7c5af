import CallGraph.Json.Value
import CallGraph.Text.Utf8

/-!
# Reading JSON

`Json.read` reads one value from a text that holds nothing else but blanks.  A refusal is a cause and a
place: the line, and the number of octets of that line that were read.  Arrays and objects nest at most
127 levels deep.  An integer that does not fit in 64 bits, and a number with a point or an exponent, is a
double: its first digits as a 64-bit integer, scaled once by a power of ten.
-/

namespace CallGraph.Json

/-- Why a text is not a JSON value. -/
inductive Cause where
  | endInValue
  | endInList
  | endInObject
  | endInText
  | expectedValue
  | expectedIdent
  | expectedColon
  | expectedCommaOrBracket
  | expectedCommaOrBrace
  | keyNotText
  | trailingComma
  | trailingCharacters
  | invalidNumber
  | numberOutOfRange
  | invalidEscape
  | controlCharacter
  | loneSurrogate
  | unfinishedSurrogate
  | tooDeep
  deriving DecidableEq, Repr

/-- A cause in words. -/
def Cause.message : Cause → String
  | .endInValue => "EOF while parsing a value"
  | .endInList => "EOF while parsing a list"
  | .endInObject => "EOF while parsing an object"
  | .endInText => "EOF while parsing a string"
  | .expectedValue => "expected value"
  | .expectedIdent => "expected ident"
  | .expectedColon => "expected \x60:\x60"
  | .expectedCommaOrBracket => "expected \x60,\x60 or \x60]\x60"
  | .expectedCommaOrBrace => "expected \x60,\x60 or \x60\x7d\x60"
  | .keyNotText => "key must be a string"
  | .trailingComma => "trailing comma"
  | .trailingCharacters => "trailing characters"
  | .invalidNumber => "invalid number"
  | .numberOutOfRange => "number out of range"
  | .invalidEscape => "invalid escape"
  | .controlCharacter => "control character (\\u0000-\\u001F) found while parsing a string"
  | .loneSurrogate => "lone leading surrogate in hex escape"
  | .unfinishedSurrogate => "unexpected end of hex escape"
  | .tooDeep => "recursion limit exceeded"

/-- A refusal: what is wrong and where. -/
structure ReadFault where
  cause : Cause
  line : Nat
  column : Nat
  deriving DecidableEq, Repr

/-- The refusal in words. -/
def ReadFault.message (f : ReadFault) : String :=
  s!"{f.cause.message} at line {f.line} column {f.column}"

/-- What is left to read, and the place reached. -/
structure Cursor where
  rest : List Char
  line : Nat := 1
  column : Nat := 0

namespace Cursor

/-- The cursor after its first character. -/
def next (cur : Cursor) : Cursor :=
  match cur.rest with
  | [] => cur
  | c :: rest =>
    if c == '\n' then ⟨rest, cur.line + 1, 0⟩ else ⟨rest, cur.line, cur.column + Utf8.size c⟩

/-- A refusal at the place reached. -/
def fail {α : Type} (cur : Cursor) (cause : Cause) : Except ReadFault α :=
  .error ⟨cause, cur.line, cur.column⟩

/-- A refusal of the next octet, at the place after it; at the end, at the place reached. -/
def failNext {α : Type} (cur : Cursor) (cause : Cause) : Except ReadFault α :=
  match cur.rest with
  | [] => cur.fail cause
  | c :: _ =>
    if c == '\n' then .error ⟨cause, cur.line + 1, 0⟩ else .error ⟨cause, cur.line, cur.column + 1⟩

/-- The cursor after the blanks before it, at most `fuel` of them. -/
def skipBlanks : Nat → Cursor → Cursor
  | 0, cur => cur
  | fuel + 1, cur =>
    match cur.rest with
    | c :: _ => if c == ' ' || c == '\n' || c == '\t' || c == '\r' then skipBlanks fuel cur.next else cur
    | [] => cur

/-- The cursor after all blanks before it. -/
def blanks (cur : Cursor) : Cursor :=
  skipBlanks (cur.rest.length + 1) cur

end Cursor

/-- Reads the given letters. -/
def readLetters (value : Json) : List Char → Cursor → Except ReadFault (Json × Cursor)
  | [], cur => .ok (value, cur)
  | letter :: letters, cur =>
    match cur.rest with
    | [] => cur.fail .endInValue
    | c :: _ => if c == letter then readLetters value letters cur.next else cur.next.fail .expectedIdent

/-! ### Numbers -/

/-- The largest integer of 64 bits. -/
def maxWord : Nat := 18446744073709551615

/-- The value of a decimal digit. -/
def digit? (c : Char) : Option Nat :=
  if c.isDigit then some (c.toNat - 48) else none

/-- Scales a double by a power of ten, over 308 places at a time; `none` when it leaves the range. -/
def scaleBy : Nat → Float → Int → Option Float
  | 0, _, _ => none
  | fuel + 1, x, exponent =>
    if exponent.natAbs ≤ 308 then
      let unit := Float.ofScientific 1 false exponent.natAbs
      if 0 ≤ exponent then
        let y := x * unit
        if y.isInf then none else some y
      else some (x / unit)
    else if x == 0 then some x
    else if 0 ≤ exponent then none
    else scaleBy fuel (x / Float.ofScientific 1 false 308) (exponent + 308)

/-- The double `significand · 10 ^ exponent`, read at a cursor. -/
def realNumber (positive : Bool) (significand : Nat) (exponent : Int) (cur : Cursor) :
    Except ReadFault (Number × Cursor) :=
  let x := (UInt64.ofNat significand).toFloat
  let clamped := if exponent < -100000 then -100000 else exponent
  match scaleBy 400 x clamped with
  | none => cur.fail .numberOutOfRange
  | some y => .ok (.real (if positive then y else -y).toBits, cur)

/-- Passes over the digits before the cursor. -/
def skipDigits : Nat → Cursor → Cursor
  | 0, cur => cur
  | fuel + 1, cur =>
    match cur.rest with
    | c :: _ => if c.isDigit then skipDigits fuel cur.next else cur
    | [] => cur

/-- Reads the further digits of an exponent: its value, or `none` when it passes 31 bits. -/
def readExponentDigits : Nat → Nat → Cursor → Option Nat × Cursor
  | 0, n, cur => (some n, cur)
  | fuel + 1, n, cur =>
    match cur.rest with
    | [] => (some n, cur)
    | c :: _ =>
      match digit? c with
      | none => (some n, cur)
      | some d =>
        if 2147483647 < n * 10 + d then (none, cur.next)
        else readExponentDigits fuel (n * 10 + d) cur.next

/-- Reads an exponent from its letter on. -/
def readExponent (positive : Bool) (significand : Nat) (shift : Int) (cur : Cursor) :
    Except ReadFault (Number × Cursor) :=
  let cur := cur.next
  let (down, cur) := match cur.rest with
    | '+' :: _ => (false, cur.next)
    | '-' :: _ => (true, cur.next)
    | _ => (false, cur)
  match cur.rest with
  | [] => cur.fail .endInValue
  | c :: rest =>
    match digit? c with
    | none => cur.next.fail .invalidNumber
    | some d =>
      match readExponentDigits (rest.length + 1) d cur.next with
      | (some n, cur) =>
        realNumber positive significand (if down then shift - (n : Int) else shift + (n : Int)) cur
      | (none, cur) =>
        if significand != 0 && !down then cur.fail .numberOutOfRange
        else .ok (.real (if positive then (0.0 : Float) else -0.0).toBits,
          skipDigits (cur.rest.length + 1) cur)

/-- Reads the exponent, if one follows, of a number without further digits. -/
def readTail (positive : Bool) (significand : Nat) (shift : Int) (cur : Cursor) :
    Except ReadFault (Number × Cursor) :=
  match cur.rest with
  | c :: _ =>
    if c == 'e' || c == 'E' then readExponent positive significand shift cur
    else realNumber positive significand shift cur
  | [] => realNumber positive significand shift cur

/-- Reads digits after the point; once the significand is full, further digits do not count. -/
def readFraction : Nat → Bool → Nat → Int → Bool → Cursor → Except ReadFault (Number × Cursor)
  | 0, positive, significand, shift, _, cur => realNumber positive significand shift cur
  | fuel + 1, positive, significand, shift, first, cur =>
    match cur.rest.head?.bind digit? with
    | some d =>
      if maxWord < significand * 10 + d then
        readTail positive significand shift (skipDigits (cur.rest.length + 1) cur)
      else readFraction fuel positive (significand * 10 + d) (shift - 1) false cur.next
    | none =>
      if first then
        if cur.rest.isEmpty then cur.fail .endInValue else cur.failNext .invalidNumber
      else readTail positive significand shift cur

/-- Reads what follows the digits of a double before its point. -/
def readRest (positive : Bool) (significand : Nat) (shift : Int) (cur : Cursor) :
    Except ReadFault (Number × Cursor) :=
  match cur.rest with
  | '.' :: rest => readFraction (rest.length + 1) positive significand shift true cur.next
  | _ => readTail positive significand shift cur

/-- Counts the digits that a full significand leaves over, then reads the rest. -/
def readLongInteger : Nat → Bool → Nat → Int → Cursor → Except ReadFault (Number × Cursor)
  | 0, positive, significand, shift, cur => realNumber positive significand shift cur
  | fuel + 1, positive, significand, shift, cur =>
    match cur.rest.head?.bind digit? with
    | some _ => readLongInteger fuel positive significand (shift + 1) cur.next
    | none => readRest positive significand shift cur

/-- An integer, or what follows its digits when that makes it a double. -/
def finishInteger (positive : Bool) (significand : Nat) (cur : Cursor) :
    Except ReadFault (Number × Cursor) :=
  match cur.rest with
  | '.' :: _ => readRest positive significand 0 cur
  | 'e' :: _ => readRest positive significand 0 cur
  | 'E' :: _ => readRest positive significand 0 cur
  | _ =>
    if positive then .ok (.integer significand, cur)
    else if significand == 0 || 9223372036854775808 < significand then
      .ok (.real (-((UInt64.ofNat significand).toFloat)).toBits, cur)
    else .ok (.integer (-(significand : Int)), cur)

/-- Reads the further digits of an integer. -/
def readInteger : Nat → Bool → Nat → Cursor → Except ReadFault (Number × Cursor)
  | 0, positive, significand, cur => finishInteger positive significand cur
  | fuel + 1, positive, significand, cur =>
    match cur.rest.head?.bind digit? with
    | some d =>
      if maxWord < significand * 10 + d then
        readLongInteger (cur.rest.length + 1) positive significand 0 cur
      else readInteger fuel positive (significand * 10 + d) cur.next
    | none => finishInteger positive significand cur

/-- Reads a number after its sign. -/
def readNumber (positive : Bool) (cur : Cursor) : Except ReadFault (Number × Cursor) :=
  match cur.rest with
  | [] => cur.fail .endInValue
  | '0' :: rest =>
    match rest.head?.bind digit? with
    | some _ => cur.next.failNext .invalidNumber
    | none => finishInteger positive 0 cur.next
  | c :: rest =>
    match digit? c with
    | some d => readInteger (rest.length + 1) positive d cur.next
    | none => cur.next.fail .invalidNumber

/-! ### Texts -/

/-- The value of a hexadecimal digit. -/
def hexValue? (c : Char) : Option Nat :=
  if c.isDigit then some (c.toNat - 48)
  else if 'a' ≤ c && c ≤ 'f' then some (c.toNat - 87)
  else if 'A' ≤ c && c ≤ 'F' then some (c.toNat - 55)
  else none

/-- Reads four hexadecimal digits. -/
def readHex (cur : Cursor) : Except ReadFault (Nat × Cursor) :=
  match cur.rest with
  | a :: b :: c :: d :: _ =>
    match hexValue? a, hexValue? b, hexValue? c, hexValue? d with
    | some a, some b, some c, some d =>
      .ok (a * 4096 + b * 256 + c * 16 + d, cur.next.next.next.next)
    | _, _, _, _ => .error ⟨.invalidEscape, cur.line, cur.column + 4⟩
  | rest =>
    if 4 ≤ Utf8.width rest then .error ⟨.invalidEscape, cur.line, cur.column + 4⟩
    else .error ⟨.endInText, cur.line, cur.column + Utf8.width rest⟩

/-- Reads the second half of a character given as two escapes, from its backslash on. -/
def readSecondHalf (high : Nat) (cur : Cursor) : Except ReadFault (Char × Cursor) :=
  match cur.rest with
  | [] => cur.fail .endInText
  | c :: _ =>
    if c != '\\' then cur.next.fail .unfinishedSurrogate
    else
      let cur := cur.next
      match cur.rest with
      | [] => cur.fail .endInText
      | c :: _ =>
        if c != 'u' then cur.next.fail .unfinishedSurrogate
        else do
          let (low, cur) ← readHex cur.next
          if low < 0xDC00 || 0xDFFF < low then cur.fail .loneSurrogate
          else .ok (Char.ofNat ((high - 0xD800) * 1024 + (low - 0xDC00) + 0x10000), cur)

/-- Reads an escape after its backslash. -/
def readEscape (cur : Cursor) : Except ReadFault (Char × Cursor) :=
  match cur.rest with
  | [] => cur.fail .endInText
  | c :: _ =>
    let after := cur.next
    if c == '"' || c == '\\' || c == '/' then .ok (c, after)
    else if c == 'b' then .ok (Char.ofNat 8, after)
    else if c == 'f' then .ok (Char.ofNat 12, after)
    else if c == 'n' then .ok ('\n', after)
    else if c == 'r' then .ok ('\r', after)
    else if c == 't' then .ok ('\t', after)
    else if c == 'u' then do
      let (n, after) ← readHex after
      if 0xDC00 ≤ n && n ≤ 0xDFFF then after.fail .loneSurrogate
      else if n < 0xD800 || 0xDBFF < n then .ok (Char.ofNat n, after)
      else readSecondHalf n after
    else
      if c == '\n' then .error ⟨.invalidEscape, cur.line + 1, 0⟩
      else .error ⟨.invalidEscape, cur.line, cur.column + 1⟩

/-- Reads a text after its opening quote; `read` holds the characters so far, the last one first. -/
def readText : Nat → List Char → Cursor → Except ReadFault (String × Cursor)
  | 0, _, cur => cur.fail .endInText
  | fuel + 1, read, cur =>
    match cur.rest with
    | [] => cur.fail .endInText
    | c :: _ =>
      if c == '"' then .ok (String.ofList read.reverse, cur.next)
      else if c == '\\' then do
        let (c, cur) ← readEscape cur.next
        readText fuel (c :: read) cur
      else if c.toNat < 32 then cur.next.fail .controlCharacter
      else readText fuel (c :: read) cur.next

/-! ### Values -/

mutual

/-- Reads a value with `depth` levels left, itself included. -/
def readValue : Nat → Nat → Cursor → Except ReadFault (Json × Cursor)
  | 0, _, cur => cur.fail .tooDeep
  | fuel + 1, depth, cur =>
    let cur := cur.blanks
    match cur.rest with
    | [] => cur.fail .endInValue
    | c :: _ =>
      if c == 'n' then readLetters .null ['u', 'l', 'l'] cur.next
      else if c == 't' then readLetters (.bool true) ['r', 'u', 'e'] cur.next
      else if c == 'f' then readLetters (.bool false) ['a', 'l', 's', 'e'] cur.next
      else if c == '-' then do
        let (n, cur) ← readNumber false cur.next
        .ok (.number n, cur)
      else if c.isDigit then do
        let (n, cur) ← readNumber true cur
        .ok (.number n, cur)
      else if c == '"' then do
        let (s, cur) ← readText (cur.rest.length + 1) [] cur.next
        .ok (.text s, cur)
      else if c == '[' then
        if depth ≤ 1 then cur.failNext .tooDeep
        else do
          let (items, cur) ← readItems fuel (depth - 1) true [] cur.next
          .ok (.array items, cur)
      else if c == '\x7b' then
        if depth ≤ 1 then cur.failNext .tooDeep
        else do
          let (fields, cur) ← readFields fuel (depth - 1) true [] cur.next
          .ok (ofFields fields, cur)
      else cur.failNext .expectedValue

/-- Reads the items of an array and its closing bracket; `read` holds the items so far, the last one
first. -/
def readItems : Nat → Nat → Bool → List Json → Cursor → Except ReadFault (List Json × Cursor)
  | 0, _, _, _, cur => cur.fail .endInList
  | fuel + 1, depth, first, read, cur =>
    let cur := cur.blanks
    match cur.rest with
    | [] => cur.fail .endInList
    | c :: _ =>
      if c == ']' then .ok (read.reverse, cur.next)
      else if first then do
        let (item, cur) ← readValue fuel depth cur
        readItems fuel depth false (item :: read) cur
      else if c == ',' then
        let cur := cur.next.blanks
        match cur.rest with
        | [] => cur.fail .endInValue
        | c :: _ =>
          if c == ']' then cur.failNext .trailingComma
          else do
            let (item, cur) ← readValue fuel depth cur
            readItems fuel depth false (item :: read) cur
      else cur.failNext .expectedCommaOrBracket

/-- Reads the fields of an object and its closing brace; `read` holds the fields so far, the last one
first. -/
def readFields : Nat → Nat → Bool → List (String × Json) → Cursor →
    Except ReadFault (List (String × Json) × Cursor)
  | 0, _, _, _, cur => cur.fail .endInObject
  | fuel + 1, depth, first, read, cur =>
    let cur := cur.blanks
    match cur.rest with
    | [] => cur.fail .endInObject
    | c :: _ =>
      if c == '\x7d' then .ok (read.reverse, cur.next)
      else if first then
        if c == '"' then readField fuel depth read cur.next else cur.failNext .keyNotText
      else if c == ',' then
        let cur := cur.next.blanks
        match cur.rest with
        | [] => cur.fail .endInValue
        | c :: _ =>
          if c == '"' then readField fuel depth read cur.next
          else if c == '\x7d' then cur.failNext .trailingComma
          else cur.failNext .keyNotText
      else cur.failNext .expectedCommaOrBrace

/-- Reads a field after the opening quote of its name, and the fields after it. -/
def readField : Nat → Nat → List (String × Json) → Cursor →
    Except ReadFault (List (String × Json) × Cursor)
  | 0, _, _, cur => cur.fail .endInObject
  | fuel + 1, depth, read, cur => do
    let (name, cur) ← readText (cur.rest.length + 1) [] cur
    let cur := cur.blanks
    match cur.rest with
    | [] => cur.fail .endInObject
    | c :: _ =>
      if c == ':' then do
        let (value, cur) ← readValue fuel depth cur.next
        readFields fuel depth false ((name, value) :: read) cur
      else cur.failNext .expectedColon

end

/-- Reads a text that holds one value. -/
def read (source : String) : Except ReadFault Json := do
  let start : Cursor := ⟨source.toList, 1, 0⟩
  let (value, cur) ← readValue (4 * start.rest.length + 4) 128 start
  let cur := cur.blanks
  if cur.rest.isEmpty then .ok value else cur.failNext .trailingCharacters

end CallGraph.Json
