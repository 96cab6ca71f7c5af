/-!
# UTF-8 octets as text

`Utf8.decode` turns octets into characters.  It accepts exactly the well-formed sequences: no overlong
form, no surrogate, nothing above U+10FFFF.  A refusal names the first character that cannot be read: its
index in octets and, unless the octets merely end too early, how many of them form the faulty prefix.
`Utf8.size` is the number of octets a character takes.
-/

namespace CallGraph.Utf8

/-- Why octets are not text. -/
inductive Fault where
  /-- The `length` octets from `index` on start no character. -/
  | invalid (index length : Nat)
  /-- The octets from `index` on are the start of a character that does not end. -/
  | incomplete (index : Nat)
  deriving DecidableEq, Repr

/-- The fault in words. -/
def Fault.message : Fault → String
  | .invalid index length => s!"invalid utf-8 sequence of {length} bytes from index {index}"
  | .incomplete index => s!"incomplete utf-8 byte sequence from index {index}"

/-- The number of octets of a character. -/
def size (c : Char) : Nat :=
  c.utf8Size

/-- The number of octets of a text. -/
def width (cs : List Char) : Nat :=
  cs.foldl (fun n c => n + size c) 0

/-- An octet `10xxxxxx`. -/
def isTail (b : UInt8) : Bool :=
  0x80 ≤ b && b ≤ 0xBF

/-- The six bits a tail octet carries. -/
def tailBits (b : UInt8) : Nat :=
  b.toNat % 64

/-- The octets that may follow `a` as the second of a three-octet character. -/
def secondOfThree (a b : UInt8) : Bool :=
  if a == 0xE0 then 0xA0 ≤ b && b ≤ 0xBF
  else if a == 0xED then 0x80 ≤ b && b ≤ 0x9F
  else isTail b

/-- The octets that may follow `a` as the second of a four-octet character. -/
def secondOfFour (a b : UInt8) : Bool :=
  if a == 0xF0 then 0x90 ≤ b && b ≤ 0xBF
  else if a == 0xF4 then 0x80 ≤ b && b ≤ 0x8F
  else isTail b

/-- Reads one character from the octet `a` and those after it: the character and how many octets
after `a` it takes, or the length of the faulty prefix, where `none` stands for an early end. -/
def decodeOne (a : UInt8) : List UInt8 → Except (Option Nat) (Char × Nat)
  | rest =>
    if a < 0x80 then
      .ok (Char.ofNat a.toNat, 0)
    else if 0xC2 ≤ a && a ≤ 0xDF then
      match rest with
      | [] => .error none
      | b :: _ =>
        if isTail b then .ok (Char.ofNat (a.toNat % 32 * 64 + tailBits b), 1) else .error (some 1)
    else if 0xE0 ≤ a && a ≤ 0xEF then
      match rest with
      | [] => .error none
      | b :: rest =>
        if secondOfThree a b then
          match rest with
          | [] => .error none
          | c :: _ =>
            if isTail c then
              .ok (Char.ofNat (a.toNat % 16 * 4096 + tailBits b * 64 + tailBits c), 2)
            else .error (some 2)
        else .error (some 1)
    else if 0xF0 ≤ a && a ≤ 0xF4 then
      match rest with
      | [] => .error none
      | b :: rest =>
        if secondOfFour a b then
          match rest with
          | [] => .error none
          | c :: rest =>
            if isTail c then
              match rest with
              | [] => .error none
              | d :: _ =>
                if isTail d then
                  .ok (Char.ofNat
                    (a.toNat % 8 * 262144 + tailBits b * 4096 + tailBits c * 64 + tailBits d), 3)
                else .error (some 3)
            else .error (some 2)
        else .error (some 1)
    else .error (some 1)

/-- Reads the octets from `index` on, passing over the first `skip` of them, which belong to the
character read last; `read` holds the characters so far, the last one first. -/
def decodeFrom (index skip : Nat) (read : List Char) : List UInt8 → Except Fault (List Char)
  | [] => .ok read.reverse
  | a :: rest =>
    match skip with
    | skip + 1 => decodeFrom (index + 1) skip read rest
    | 0 =>
      match decodeOne a rest with
      | .ok (c, more) => decodeFrom (index + 1) more (c :: read) rest
      | .error (some length) => .error (.invalid index length)
      | .error none => .error (.incomplete index)

/-- The text that the octets spell. -/
def decode (octets : ByteArray) : Except Fault String :=
  (decodeFrom 0 0 [] octets.toList).map String.ofList

end CallGraph.Utf8
