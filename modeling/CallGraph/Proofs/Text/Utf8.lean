import CallGraph.Text.Utf8
import Mathlib.Data.List.Basic
import Mathlib.Data.String.Basic

/-!
# The octets of a text

The octets of a text are text again: decoding them gives the text they were made of.  And they keep the order of
texts: of two texts the one that comes first has the octets that come first.
-/

namespace CallGraph.Utf8

/-- The octet of a small number stands for that number. -/
theorem toNat_octet {n : Nat} (h : n < 256) :
  (UInt8.ofNat n).toNat = n
  :=
  UInt8.toNat_ofNat_of_lt' h

/-- The octets that carry the lower bits of a character are tail octets. -/
theorem isTail_octet (n : Nat) :
  isTail (UInt8.ofNat (n % 64 + 128)) = true
  := by
  have h := toNat_octet (n := n % 64 + 128) (by omega)
  simp only [isTail, UInt8.le_iff_toNat_le, h]
  simp
  omega

theorem tailBits_octet (n : Nat) :
  tailBits (UInt8.ofNat (n % 64 + 128)) = n % 64
  := by
  rw [tailBits, toNat_octet (by omega)]
  omega

/-- The second octet of three excludes short characters and surrogates. -/
theorem secondOfThree_octets {v : Nat} (hlong : 0x800 ≤ v) (hsmall : v < 0x10000)
    (hvalid : v < 0xD800 ∨ 0xDFFF < v) :
  secondOfThree (UInt8.ofNat (v / 4096 % 16 + 224)) (UInt8.ofNat (v / 64 % 64 + 128)) = true
  := by
  have ha := toNat_octet (n := v / 4096 % 16 + 224) (by omega)
  have hb := toNat_octet (n := v / 64 % 64 + 128) (by omega)
  rw [secondOfThree, isTail_octet]
  simp only [UInt8.le_iff_toNat_le, beq_iff_eq, ← UInt8.toNat_inj, ha, hb, UInt8.reduceToNat]
  split
  · simp
    omega
  · split
    · simp
      omega
    · rfl

/-- The second octet of four excludes short characters and what is no character. -/
theorem secondOfFour_octets {v : Nat} (hlong : 0x10000 ≤ v) (hvalid : v < 0x110000) :
  secondOfFour (UInt8.ofNat (v / 262144 % 8 + 240)) (UInt8.ofNat (v / 4096 % 64 + 128)) = true
  := by
  have ha := toNat_octet (n := v / 262144 % 8 + 240) (by omega)
  have hb := toNat_octet (n := v / 4096 % 64 + 128) (by omega)
  rw [secondOfFour, isTail_octet]
  simp only [UInt8.le_iff_toNat_le, beq_iff_eq, ← UInt8.toNat_inj, ha, hb, UInt8.reduceToNat]
  split
  · simp
    omega
  · split
    · simp
      omega
    · rfl

/-- A character is read from its octets, whatever follows them. -/
theorem decodeOne_encode (c : Char) (rest : List UInt8) :
  ∃ a more, String.utf8EncodeChar c = a :: more ∧ decodeOne a (more ++ rest) = .ok (c, more.length)
  := by
  have hc : Char.ofNat c.val.toNat = c := Char.ofNat_toNat c
  have hvalid : c.val.toNat < 0xD800 ∨ 0xDFFF < c.val.toNat ∧ c.val.toNat < 0x110000 := c.valid
  rw [String.utf8EncodeChar]
  generalize c.val.toNat = v at *
  split
  case isTrue h₁ =>
    have ha := toNat_octet (n := v) (by omega)
    refine ⟨_, _, rfl, ?_⟩
    simp only [decodeOne, UInt8.lt_iff_toNat_lt, ha]
    rw [if_pos (by simp; omega), hc]
    rfl
  case isFalse h₁ =>
    split
    case isTrue h₂ =>
      have ha := toNat_octet (n := v / 64 % 32 + 192) (by omega)
      have hv : (v / 64 % 32 + 192) % 32 * 64 + v % 64 = v := by omega
      refine ⟨_, _, rfl, ?_⟩
      simp only [decodeOne, UInt8.lt_iff_toNat_lt, UInt8.le_iff_toNat_le, ha, List.cons_append, isTail_octet,
        tailBits_octet]
      rw [if_neg (by simp), if_pos (by simp; omega), hv, hc]
      rfl
    case isFalse h₂ =>
      split
      case isTrue h₃ =>
        have ha := toNat_octet (n := v / 4096 % 16 + 224) (by omega)
        have hv : (v / 4096 % 16 + 224) % 16 * 4096 + v / 64 % 64 * 64 + v % 64 = v := by omega
        have hsecond := secondOfThree_octets (v := v) (by omega) (by omega) (by omega)
        refine ⟨_, _, rfl, ?_⟩
        simp only [decodeOne, UInt8.lt_iff_toNat_lt, UInt8.le_iff_toNat_le, ha, List.cons_append, isTail_octet,
          tailBits_octet, hsecond]
        rw [if_neg (by simp), if_neg (by simp), if_pos (by simp; omega), hv, hc]
        rfl
      case isFalse h₃ =>
        have ha := toNat_octet (n := v / 262144 % 8 + 240) (by omega)
        have hv : (v / 262144 % 8 + 240) % 8 * 262144 + v / 4096 % 64 * 4096 + v / 64 % 64 * 64 + v % 64 = v := by
          omega
        have hsecond := secondOfFour_octets (v := v) (by omega) (by omega)
        refine ⟨_, _, rfl, ?_⟩
        simp only [decodeOne, UInt8.lt_iff_toNat_lt, UInt8.le_iff_toNat_le, ha, List.cons_append, isTail_octet,
          tailBits_octet, hsecond]
        rw [if_neg (by simp), if_neg (by simp), if_neg (by simp), if_pos (by simp; omega), hv, hc]
        rfl

/-- Octets that belong to the character read last are passed over. -/
theorem decodeFrom_skip (index : Nat) (read : List Char) (more rest : List UInt8) :
  decodeFrom index more.length read (more ++ rest) = decodeFrom (index + more.length) 0 read rest
  := by
  induction more generalizing index with
  | nil => rfl
  | cons b more ih =>
    rw [List.cons_append, List.length_cons, decodeFrom, ih, Nat.add_assoc, Nat.add_comm 1]

theorem decodeFrom_encode (cs : List Char) (index : Nat) (read : List Char) :
  decodeFrom index 0 read (cs.flatMap String.utf8EncodeChar) = .ok (read.reverse ++ cs)
  := by
  induction cs generalizing index read with
  | nil => rw [List.append_nil]; rfl
  | cons c cs ih =>
    obtain ⟨a, more, hencode, hdecode⟩ := decodeOne_encode c (cs.flatMap String.utf8EncodeChar)
    rw [List.flatMap_cons, hencode, List.cons_append, decodeFrom, hdecode]
    dsimp only
    rw [decodeFrom_skip, ih, List.reverse_cons, List.append_assoc, List.singleton_append]

/-- The octets of an array in a row. -/
theorem toList_octets (octets : ByteArray) :
  octets.toList = octets.data.toList
  := by
  have hloop (i : Nat) (read : List UInt8) :
      ByteArray.toList.loop octets i read = read.reverse ++ octets.data.toList.drop i := by
    fun_induction ByteArray.toList.loop octets i read with
    | case1 i read h ih =>
      have hi : i < octets.data.toList.length := h
      have hget : octets.get! i = octets.data.toList[i] := getElem!_pos octets.data i h
      rw [ih, List.reverse_cons, List.append_assoc, List.drop_eq_getElem_cons hi, hget, List.singleton_append]
    | case2 i read h =>
      have hi : octets.data.toList.length ≤ i := Nat.le_of_not_lt h
      rw [List.drop_eq_nil_of_le hi, List.append_nil]
  exact hloop 0 []

/-- The octets of a text are those of its characters, one after the other. -/
theorem octets_eq (s : String) :
  s.toUTF8.toList = s.toList.flatMap String.utf8EncodeChar
  := by
  rw [toList_octets, String.toUTF8, ← String.utf8Encode_toList, List.utf8Encode, List.toList_data_toByteArray]

/-- The octets of a text spell the text. -/
theorem decode_toUTF8 (s : String) :
  decode s.toUTF8 = .ok s
  := by
  rw [decode, octets_eq, decodeFrom_encode]
  exact congrArg _ String.ofList_toList

/-! ### Texts in the order of their octets -/

/-- The first digit to the base of 64 in which two numbers differ is less in the smaller one. -/
theorem digits_lt {v w : Nat} (h : v < w) :
  v / 262144 < w / 262144 ∨ v / 262144 = w / 262144 ∧ (v / 4096 % 64 < w / 4096 % 64 ∨
    v / 4096 % 64 = w / 4096 % 64 ∧ (v / 64 % 64 < w / 64 % 64 ∨
      v / 64 % 64 = w / 64 % 64 ∧ v % 64 < w % 64))
  := by
  have hfirst : v / 262144 < w / 262144 ∨ v / 262144 = w / 262144 := by omega
  have hsecond : v / 262144 = w / 262144 → v / 4096 % 64 < w / 4096 % 64 ∨ v / 4096 = w / 4096 := by omega
  have hthird : v / 4096 = w / 4096 → v / 64 % 64 < w / 64 % 64 ∨ v / 64 = w / 64 := by omega
  have hfourth : v / 64 = w / 64 → v % 64 < w % 64 := by omega
  grind

/-- The octets of two characters differ in the order of the characters, whatever follows them. -/
theorem encode_lt_encode {c d : Char} (h : c < d) (more rest : List UInt8) :
  String.utf8EncodeChar c ++ more < String.utf8EncodeChar d ++ rest
  := by
  have hlt : c.val.toNat < d.val.toNat := h
  have hd : d.val.toNat < 0x110000 := by
    rcases d.valid with hd | hd
    · exact Nat.lt_trans hd (by decide)
    · exact hd.2
  rw [String.utf8EncodeChar, String.utf8EncodeChar]
  generalize c.val.toNat = v at *
  generalize d.val.toNat = w at *
  have hdigits := digits_lt hlt
  have hv : v / 262144 % 8 = v / 262144 := Nat.mod_eq_of_lt (by omega)
  have hw : w / 262144 % 8 = w / 262144 := Nat.mod_eq_of_lt (by omega)
  -- a longer form starts with a greater octet, and two forms of one length differ at the first unequal digit
  repeat' split
  all_goals
    simp (disch := omega) only [List.cons_append, List.nil_append, List.cons_lt_cons_iff, UInt8.lt_iff_toNat_lt,
      ← UInt8.toNat_inj, toNat_octet]
    omega

theorem flatMap_encode_lt {cs ds : List Char} (h : cs < ds) :
  cs.flatMap String.utf8EncodeChar < ds.flatMap String.utf8EncodeChar
  := by
  induction cs generalizing ds with
  | nil =>
    cases ds with
    | nil => exact absurd h (List.lt_irrefl [])
    | cons d ds =>
      obtain ⟨a, more, hencode, _⟩ := decodeOne_encode d []
      rw [List.flatMap_nil, List.flatMap_cons, hencode, List.cons_append]
      exact List.nil_lt_cons _ _
  | cons c cs ih =>
    cases ds with
    | nil => exact absurd h (List.not_lt_nil _)
    | cons d ds =>
      rw [List.flatMap_cons, List.flatMap_cons]
      rcases List.cons_lt_cons_iff.mp h with hlt | ⟨rfl, hlt⟩
      · exact encode_lt_encode hlt _ _
      · exact List.append_left_lt (ih hlt)

/-- Texts stand in the order of their octets. -/
theorem octets_lt_octets_iff {s t : String} :
  s.toUTF8.toList < t.toUTF8.toList ↔ s < t
  := by
  have hlt {s t : String} (h : s < t) : s.toUTF8.toList < t.toUTF8.toList := by
    rw [octets_eq, octets_eq]
    exact flatMap_encode_lt (String.lt_iff_toList_lt.mp h)
  constructor
  · intro h
    rcases lt_trichotomy s t with hst | rfl | hts
    · exact hst
    · exact absurd h (List.lt_irrefl _)
    · exact absurd h (List.lt_asymm (hlt hts))
  · exact hlt

end CallGraph.Utf8
