import CallGraph.Text.Glyph

/-!
# Quoted text

A text between double quotes in which quotes, backslashes and characters without a glyph are escaped.
Lists of quoted texts stand in square brackets.
-/

namespace CallGraph.Quoted

/-- The hexadecimal digit of a number below sixteen, in lower case. -/
def hexDigit (n : Nat) : Char :=
  Char.ofNat (if n < 10 then 48 + n else 87 + n)

/-- The hexadecimal digits of a number, at most `fuel` of them, before `rest`. -/
def hexDigits : Nat → Nat → List Char → List Char
  | 0, _, rest => rest
  | fuel + 1, n, rest =>
    if n < 16 then hexDigit n :: rest
    else hexDigits fuel (n / 16) (hexDigit (n % 16) :: rest)

/-- The written form of a character between double quotes. -/
def escape (c : Char) : List Char :=
  if c == '"' then ['\\', '"']
  else if c == '\\' then ['\\', '\\']
  else if c == '\n' then ['\\', 'n']
  else if c == '\r' then ['\\', 'r']
  else if c == '\t' then ['\\', 't']
  else if c.toNat == 0 then ['\\', '0']
  else if Glyph.isHidden c then ['\\', 'u', '\x7b'] ++ hexDigits 8 c.toNat ['\x7d']
  else [c]

/-- A text between double quotes. -/
def text (s : String) : String :=
  String.ofList ('"' :: s.toList.flatMap escape ++ ['"'])

/-- A path between double quotes, where an apostrophe is marked as well. -/
def path (s : String) : String :=
  String.ofList ('"' :: s.toList.flatMap (fun c => if c == '\x27' then ['\\', c] else escape c) ++ ['"'])

/-- Quoted texts between square brackets. -/
def list (items : List String) : String :=
  "[" ++ ", ".intercalate (items.map text) ++ "]"

end CallGraph.Quoted
