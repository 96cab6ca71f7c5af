import CallGraph.Json.Reader
import CallGraph.Json.Writer
import Mathlib.Data.List.Basic
import Mathlib.Tactic.IntervalCases

/-!
# Reading texts and numbers back

Texts and natural numbers are read off the front of what they were written to: reading gives the text or the
number and stops before what stands behind it.  Escaped characters come back as themselves.
-/

namespace CallGraph.Json

/-- Reading succeeds with a value, and stops before `rest`. -/
def Leaves {α : Type} (outcome : Except ReadFault (α × Cursor)) (a : α) (rest : List Char) : Prop :=
  ∃ cur, outcome = .ok (a, cur) ∧ cur.rest = rest

theorem Leaves.bind {α β : Type} {outcome : Except ReadFault (α × Cursor)} {a : α} {mid : List Char}
    (h : Leaves outcome a mid) {next : α × Cursor → Except ReadFault (β × Cursor)} {b : β} {rest : List Char}
    (hnext : ∀ cur, cur.rest = mid → Leaves (next (a, cur)) b rest) :
  Leaves (outcome >>= next) b rest
  := by
  obtain ⟨cur, rfl, hcur⟩ := h
  exact hnext cur hcur

/-! ### Moving the cursor -/

/-- A character that may stand between the parts of a value. -/
def isBlank (c : Char) : Bool :=
  c == ' ' || c == '\n' || c == '\t' || c == '\r'

namespace Cursor

variable {cur : Cursor} {c : Char} {rest : List Char}

theorem rest_next (h : cur.rest = c :: rest) :
  cur.next.rest = rest
  := by
  unfold next
  rw [h]
  dsimp only
  split <;> rfl

theorem rest_skipBlanks {fuel : Nat} (h : cur.rest.length < fuel) :
  (skipBlanks fuel cur).rest = cur.rest.dropWhile isBlank
  := by
  induction fuel generalizing cur with
  | zero => exact absurd h (Nat.not_lt_zero _)
  | succ fuel ih =>
    unfold skipBlanks
    cases hrest : cur.rest with
    | nil => exact hrest
    | cons c rest =>
      rw [hrest, List.length_cons] at h
      rw [List.dropWhile_cons]
      dsimp only
      change (if isBlank c = true then _ else _ : Cursor).rest = _
      split
      · rw [ih (by rw [rest_next hrest]; omega), rest_next hrest]
      · exact hrest

theorem rest_blanks (cur : Cursor) :
  cur.blanks.rest = cur.rest.dropWhile isBlank
  :=
  rest_skipBlanks (Nat.lt_succ_self _)

/-- No blanks are passed over before other characters. -/
theorem rest_blanks_of_cons (h : cur.rest = c :: rest) (hc : isBlank c = false) :
  cur.blanks.rest = c :: rest
  := by
  rw [rest_blanks, h, List.dropWhile_cons, hc]
  rfl

/-- A new line and its indentation are passed over. -/
theorem rest_blanks_of_before {level : Nat} (h : cur.rest = Spacing.indented.before level ++ c :: rest)
    (hc : isBlank c = false) :
  cur.blanks.rest = c :: rest
  := by
  rw [rest_blanks, h]
  have hblank : ∀ b ∈ Spacing.indented.before level, isBlank b = true := by
    intro b hb
    rcases List.mem_cons.mp hb with rfl | hb
    · rfl
    · rw [(List.mem_replicate.mp hb).2]
      rfl
  rw [List.dropWhile_append_of_pos hblank, List.dropWhile_cons, hc]
  rfl

end Cursor

/-! ### Texts -/

theorem hexValue?_hexDigit {n : Nat} (h : n < 16) :
  hexValue? (Quoted.hexDigit n) = some n
  := by
  interval_cases n <;> rfl

/-- An escaped control character is read back. -/
theorem readHex_control {n : Nat} (h : n < 32) {cur : Cursor} {rest : List Char}
    (hcur : cur.rest = '0' :: '0' :: Quoted.hexDigit (n / 16) :: Quoted.hexDigit (n % 16) :: rest) :
  Leaves (readHex cur) n rest
  := by
  unfold readHex
  rw [hcur]
  dsimp only
  rw [hexValue?_hexDigit (by omega), hexValue?_hexDigit (by omega)]
  refine ⟨_, ?_, Cursor.rest_next (Cursor.rest_next (Cursor.rest_next (Cursor.rest_next hcur)))⟩
  have hn : 0 * 4096 + 0 * 256 + n / 16 * 16 + n % 16 = n := by omega
  change Except.ok (0 * 4096 + 0 * 256 + n / 16 * 16 + n % 16, _) = _
  rw [hn]

/-- An escape of one letter is read back. -/
theorem readEscape_letter {letter c : Char} (h : (letter, c) ∈ [('"', '"'), ('\\', '\\'), ('n', '\n'), ('r', '\r'),
    ('t', '\t'), ('b', Char.ofNat 8), ('f', Char.ofNat 12)]) {cur : Cursor} {rest : List Char}
    (hcur : cur.rest = letter :: rest) :
  Leaves (readEscape cur) c rest
  := by
  refine ⟨cur.next, ?_, Cursor.rest_next hcur⟩
  simp only [List.mem_cons, Prod.mk.injEq, List.not_mem_nil, or_false] at h
  unfold readEscape
  rw [hcur]
  rcases h with ⟨rfl, rfl⟩ | ⟨rfl, rfl⟩ | ⟨rfl, rfl⟩ | ⟨rfl, rfl⟩ | ⟨rfl, rfl⟩ | ⟨rfl, rfl⟩ | ⟨rfl, rfl⟩ <;> rfl

/-- An escape of four digits is read back. -/
theorem readEscape_control {c : Char} (h : c.toNat < 32) {cur : Cursor} {rest : List Char}
    (hcur : cur.rest =
      'u' :: '0' :: '0' :: Quoted.hexDigit (c.toNat / 16) :: Quoted.hexDigit (c.toNat % 16) :: rest) :
  Leaves (readEscape cur) c rest
  := by
  unfold readEscape
  rw [hcur]
  refine (readHex_control h (Cursor.rest_next hcur)).bind fun after hafter => ?_
  dsimp only
  rw [if_neg (by simp; omega), if_pos (by simp; omega)]
  refine ⟨after, ?_, hafter⟩
  rw [Char.ofNat_toNat]

theorem readText_backslash {c : Char} {fuel : Nat} {read escape tail : List Char} {cur : Cursor} {s : String}
    {rest : List Char} (hcur : cur.rest = '\\' :: escape)
    (hescape : ∀ cur : Cursor, cur.rest = escape → Leaves (readEscape cur) c tail)
    (hread : ∀ cur : Cursor, cur.rest = tail → Leaves (readText fuel (c :: read) cur) s rest) :
  Leaves (readText (fuel + 1) read cur) s rest
  := by
  unfold readText
  rw [hcur]
  exact (hescape _ (Cursor.rest_next hcur)).bind hread

/-- A character of a text is read back, whether it is escaped or stands for itself. -/
theorem readText_escapeChar (c : Char) {fuel : Nat} {read tail : List Char} {cur : Cursor} {s : String}
    {rest : List Char} (hcur : cur.rest = escapeChar c ++ tail)
    (hread : ∀ cur : Cursor, cur.rest = tail → Leaves (readText fuel (c :: read) cur) s rest) :
  Leaves (readText (fuel + 1) read cur) s rest
  := by
  have hletter {letter : Char} (hmem : (letter, c) ∈ [('"', '"'), ('\\', '\\'), ('n', '\n'), ('r', '\r'), ('t', '\t'),
      ('b', Char.ofNat 8), ('f', Char.ofNat 12)]) (hescape : cur.rest = '\\' :: letter :: tail) :
      Leaves (readText (fuel + 1) read cur) s rest :=
    readText_backslash hescape (fun _ => readEscape_letter hmem) hread
  have hnumber {n : Nat} (hn : (c.toNat == n) = true) : c = Char.ofNat n := by
    rw [← beq_iff_eq.mp hn, Char.ofNat_toNat]
  rw [escapeChar] at hcur
  split at hcur
  case isTrue h => exact hletter (by rw [beq_iff_eq.mp h]; simp) hcur
  split at hcur
  case isTrue h => exact hletter (by rw [beq_iff_eq.mp h]; simp) hcur
  split at hcur
  case isTrue h => exact hletter (by rw [beq_iff_eq.mp h]; simp) hcur
  split at hcur
  case isTrue h => exact hletter (by rw [beq_iff_eq.mp h]; simp) hcur
  split at hcur
  case isTrue h => exact hletter (by rw [beq_iff_eq.mp h]; simp) hcur
  split at hcur
  case isTrue h => exact hletter (by rw [hnumber h]; simp) hcur
  split at hcur
  case isTrue h => exact hletter (by rw [hnumber h]; simp) hcur
  split at hcur
  case isTrue h => exact readText_backslash hcur (fun _ => readEscape_control h) hread
  case isFalse hquote hbackslash _ _ _ _ _ hcontrol =>
    unfold readText
    rw [hcur]
    change Leaves (if _ then _ else _) _ _
    rw [if_neg hquote, if_neg hbackslash, if_neg hcontrol]
    exact hread _ (Cursor.rest_next hcur)

/-- A text is read back after its opening quote. -/
theorem readText_writeText (cs : List Char) {fuel : Nat} (hfuel : cs.length < fuel) {read : List Char}
    {cur : Cursor} {rest : List Char} (hcur : cur.rest = cs.flatMap escapeChar ++ '"' :: rest) :
  Leaves (readText fuel read cur) (String.ofList (read.reverse ++ cs)) rest
  := by
  induction cs generalizing fuel read cur with
  | nil =>
    obtain ⟨fuel, rfl⟩ := Nat.exists_eq_add_one_of_ne_zero (Nat.ne_zero_of_lt hfuel)
    have hquote : cur.rest = '"' :: rest := hcur
    unfold readText
    rw [hquote, List.append_nil]
    exact ⟨_, rfl, Cursor.rest_next hquote⟩
  | cons c cs ih =>
    obtain ⟨fuel, rfl⟩ := Nat.exists_eq_add_one_of_ne_zero (Nat.ne_zero_of_lt hfuel)
    rw [List.flatMap_cons, List.append_assoc] at hcur
    apply readText_escapeChar c hcur
    intro cur hcur
    have hmore : Leaves (readText fuel (c :: read) cur) (String.ofList ((c :: read).reverse ++ cs)) rest :=
      ih (by simpa using hfuel) hcur
    rwa [List.reverse_cons, List.append_assoc, List.singleton_append] at hmore

theorem length_escapeChar (c : Char) :
  1 ≤ (escapeChar c).length
  := by
  unfold escapeChar
  split_ifs <;> simp

/-- A written text is read back. -/
theorem readText_toList (s : String) {cur after : Cursor} {rest : List Char}
    (hcur : cur.rest = s.toList.flatMap escapeChar ++ '"' :: rest)
    (hlength : cur.rest.length ≤ after.rest.length) :
  Leaves (readText (after.rest.length + 1) [] cur) s rest
  := by
  have hescaped : s.toList.length ≤ (s.toList.flatMap escapeChar).length := by
    induction s.toList with
    | nil => exact le_rfl
    | cons c cs ih =>
      have hc := length_escapeChar c
      rw [List.flatMap_cons, List.length_append, List.length_cons]
      omega
  have hfuel : s.toList.length < after.rest.length + 1 := by
    rw [hcur, List.length_append] at hlength
    omega
  have hread : Leaves (readText (after.rest.length + 1) [] cur) (String.ofList ([].reverse ++ s.toList)) rest :=
    readText_writeText s.toList hfuel hcur
  rwa [List.reverse_nil, List.nil_append, String.ofList_toList] at hread

/-! ### Numbers -/

/-- What stands behind a value. -/
def Ends (rest : List Char) : Prop :=
  ∃ c more, rest = c :: more ∧ (c = ',' ∨ c = '\n')

theorem finishInteger_of_ends {n : Nat} {cur : Cursor} (h : Ends cur.rest) :
  finishInteger true n cur = .ok (.integer n, cur)
  := by
  obtain ⟨c, more, hcur, rfl | rfl⟩ := h <;>
  · unfold finishInteger
    rw [hcur]
    rfl

theorem digit?_of_isDigit {c : Char} (h : c.isDigit = true) :
  digit? c = some (c.toNat - 48)
  := by
  rw [digit?, if_pos h]

theorem le_ofDigitChars (digits : List Char) (n : Nat) :
  n ≤ Nat.ofDigitChars 10 digits n
  := by
  induction digits generalizing n with
  | nil => exact le_rfl
  | cons c digits ih =>
    rw [Nat.ofDigitChars_cons]
    exact Nat.le_trans (by omega) (ih _)

/-- The digits of an integer add up as they are read. -/
theorem readInteger_digits {digits : List Char} (hdigits : ∀ c ∈ digits, c.isDigit = true) {fuel n : Nat}
    (hfuel : digits.length ≤ fuel) (hword : Nat.ofDigitChars 10 digits n ≤ maxWord) {cur : Cursor}
    {rest : List Char} (hrest : Ends rest) (hcur : cur.rest = digits ++ rest) :
  Leaves (readInteger fuel true n cur) (.integer (Nat.ofDigitChars 10 digits n : Nat)) rest
  := by
  induction digits generalizing fuel n cur with
  | nil =>
    rw [List.nil_append] at hcur
    have hfinish : finishInteger true n cur = .ok (.integer n, cur) := finishInteger_of_ends (hcur ▸ hrest)
    cases fuel with
    | zero => exact ⟨cur, hfinish, hcur⟩
    | succ fuel =>
      refine ⟨cur, ?_, hcur⟩
      obtain ⟨c, more, rfl, hc⟩ := hrest
      unfold readInteger
      rw [hcur]
      rcases hc with rfl | rfl <;> exact hfinish
  | cons c digits ih =>
    rw [List.forall_mem_cons] at hdigits
    obtain ⟨fuel, rfl⟩ := Nat.exists_eq_add_one_of_ne_zero
      (Nat.ne_zero_of_lt (Nat.lt_of_lt_of_le (Nat.succ_pos _) hfuel))
    rw [Nat.ofDigitChars_cons] at hword ⊢
    rw [List.cons_append] at hcur
    have hsum : n * 10 + (c.toNat - 48) = 10 * n + (c.toNat - '0'.toNat) := by
      rw [Nat.mul_comm]
      rfl
    have hsmall : ¬ maxWord < n * 10 + (c.toNat - 48) := by
      have hle := le_ofDigitChars digits (10 * n + (c.toNat - '0'.toNat))
      omega
    unfold readInteger
    rw [hcur, List.head?_cons, Option.bind_some, digit?_of_isDigit hdigits.1]
    dsimp only
    rw [if_neg hsmall, hsum]
    apply ih hdigits.2 _ hword (Cursor.rest_next hcur)
    rw [List.length_cons] at hfuel
    omega

/-- A decimal number starts with a zero only if it is zero. -/
theorem head?_toDigits {n : Nat} (h : 0 < n) :
  (Nat.toDigits 10 n).head? ≠ some '0'
  := by
  induction n using Nat.strongRecOn with
  | ind n ih =>
    rw [Nat.toDigits_eq_if (by decide)]
    split
    case isTrue hsmall => interval_cases n <;> decide
    case isFalse hlarge =>
      obtain ⟨c, digits, hdigits⟩ := List.exists_cons_of_ne_nil (Nat.toDigits_ne_nil (n := n / 10) (b := 10))
      have hhead := ih (n / 10) (by omega) (by omega)
      rw [hdigits] at hhead ⊢
      exact hhead

/-- A written integer starts with a digit. -/
theorem exists_digit (n : Nat) :
  ∃ c digits, Nat.toDigits 10 n = c :: digits ∧ c.isDigit = true
  := by
  obtain ⟨c, digits, h⟩ := List.exists_cons_of_ne_nil (Nat.toDigits_ne_nil (n := n) (b := 10))
  refine ⟨c, digits, h, ?_⟩
  apply Nat.isDigit_of_mem_toDigits (b := 10) (n := n) (by decide) le_rfl
  rw [h]
  exact List.mem_cons_self

/-- A written integer is read back. -/
theorem readNumber_toDigits {n : Nat} (hn : n ≤ maxWord) {cur : Cursor} {rest : List Char} (hrest : Ends rest)
    (hcur : cur.rest = Nat.toDigits 10 n ++ rest) :
  Leaves (readNumber true cur) (.integer n) rest
  := by
  obtain ⟨c, digits, hdigits, hc⟩ := exists_digit n
  have hvalue : Nat.ofDigitChars 10 (c :: digits) 0 = n := by
    rw [← hdigits]
    exact Nat.ofDigitChars_toDigits (by decide) le_rfl
  have hmem : ∀ d ∈ c :: digits, d.isDigit = true := by
    intro d hd
    rw [← hdigits] at hd
    exact Nat.isDigit_of_mem_toDigits (by decide) le_rfl hd
  rw [hdigits, List.cons_append] at hcur
  unfold readNumber
  rw [hcur]
  split
  case h_1 heq => cases heq
  case h_2 more heq =>
    obtain ⟨rfl, rfl⟩ := List.cons.inj heq
    obtain rfl : n = 0 := by
      by_contra hpositive
      apply head?_toDigits (Nat.pos_of_ne_zero hpositive)
      rw [hdigits]
      rfl
    obtain ⟨-, rfl⟩ := List.cons.inj hdigits
    have hnext : cur.next.rest = rest := Cursor.rest_next hcur
    have hfinish : finishInteger true 0 cur.next = .ok (.integer 0, cur.next) :=
      finishInteger_of_ends (hnext ▸ hrest)
    obtain ⟨d, more, rfl, hd⟩ := hrest
    refine ⟨_, ?_, hnext⟩
    rcases hd with rfl | rfl <;> exact hfinish
  case h_3 more _ heq =>
    obtain ⟨rfl, rfl⟩ := List.cons.inj heq
    rw [digit?_of_isDigit hc]
    rw [Nat.ofDigitChars_cons] at hvalue
    have hfirst : 10 * 0 + (c.toNat - '0'.toNat) = c.toNat - 48 := by
      rw [Nat.mul_zero, Nat.zero_add]
      rfl
    rw [hfirst] at hvalue
    have hlength : digits.length ≤ (digits ++ rest).length + 1 := by
      rw [List.length_append]
      omega
    have hread := readInteger_digits (n := c.toNat - 48) (fun d hd => hmem d (List.mem_cons_of_mem _ hd)) hlength
      (hvalue ▸ hn) hrest (Cursor.rest_next hcur)
    rwa [hvalue] at hread

end CallGraph.Json
