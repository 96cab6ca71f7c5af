import CallGraph.Proofs.Json.Tokens

/-!
# Reading what was written

A JSON value without fractions, negative numbers and repeated or misplaced fields is read back from its
written form, as long as it nests no deeper than the reader goes.  The proof follows the writer: each part of
a written value is read off the front of the text, and reading goes on with what stands behind it.
-/

namespace CallGraph.Json

/-- The values that are read back from what is written of them, with the number of levels they nest. -/
inductive IsPlain : Nat → Json → Prop
  | null {depth : Nat} : IsPlain depth .null
  | nat {depth n : Nat} (h : n ≤ maxWord) : IsPlain depth (.ofNat n)
  | text {depth : Nat} (s : String) : IsPlain depth (.text s)
  | array {depth : Nat} {items : List Json} (h : ∀ item ∈ items, IsPlain depth item) :
      IsPlain (depth + 1) (.array items)
  | object {depth : Nat} {fields : List (String × Json)} (h : ∀ field ∈ fields, IsPlain depth field.2)
      (hfields : ofFields fields = .object fields) : IsPlain (depth + 1) (.object fields)

/-- A value whose written form is read back, wherever it stands. -/
def IsLegible (depth : Nat) (value : Json) : Prop :=
  ∀ {level fuel : Nat} {cur : Cursor} {rest : List Char}, Ends rest →
    cur.blanks.rest = write .indented level value rest → 2 * cur.blanks.rest.length ≤ fuel + 2 * rest.length →
    Leaves (readValue fuel depth cur) value rest

/-- Text that starts a value: no blank, and nothing that closes an array. -/
def Starts (text rest : List Char) : Prop :=
  ∃ c more, text = c :: more ∧ isBlank c = false ∧ c ≠ ']' ∧ rest.length ≤ more.length

theorem Starts.length_lt {text rest : List Char} (h : Starts text rest) :
  rest.length < text.length
  := by
  obtain ⟨c, more, rfl, -, -, hlength⟩ := h
  exact Nat.lt_succ_of_le hlength

theorem length_writeItems {items : List Json} (h : ∀ item ∈ items, ∀ level rest,
    Starts (write .indented level item rest) rest) (level : Nat) (rest : List Char) :
  rest.length ≤ (writeItems .indented level items rest).length
  := by
  induction items with
  | nil => exact le_rfl
  | cons item items ih =>
    rw [List.forall_mem_cons] at h
    have hitem := (h.1 level (writeItems .indented level items rest)).length_lt
    have hitems := ih h.2
    rw [writeItems, List.length_append]
    omega

theorem length_writeFields {fields : List (String × Json)} (h : ∀ field ∈ fields, ∀ level rest,
    Starts (write .indented level field.2 rest) rest) (level : Nat) (rest : List Char) :
  rest.length ≤ (writeFields .indented level fields rest).length
  := by
  induction fields with
  | nil => exact le_rfl
  | cons field fields ih =>
    rw [List.forall_mem_cons] at h
    have hfield := (h.1 level (writeFields .indented level fields rest)).length_lt
    have hfields := ih h.2
    rw [writeFields, List.length_append]
    omega

theorem isBlank_of_isDigit {c : Char} (h : c.isDigit = true) :
  isBlank c = false ∧ c ≠ ']'
  := by
  constructor
  · by_contra hblank
    simp only [isBlank, Bool.or_eq_true, beq_iff_eq, Bool.not_eq_false] at hblank
    rcases hblank with ((rfl | rfl) | rfl) | rfl <;> cases h
  · rintro rfl
    cases h

/-- Every written value starts with a character of its own. -/
theorem IsPlain.starts {depth : Nat} {value : Json} (h : IsPlain depth value) (level : Nat) (rest : List Char) :
  Starts (write .indented level value rest) rest
  := by
  induction h generalizing level rest with
  | null => exact ⟨'n', _, rfl, rfl, by decide, by simp; omega⟩
  | @nat _ n hn =>
    obtain ⟨c, digits, hdigits, hc⟩ := exists_digit n
    obtain ⟨hblank, hclose⟩ := isBlank_of_isDigit hc
    have hwrite : write .indented level (ofNat n) rest = Nat.toDigits 10 n ++ rest := by
      change (Nat.repr n).toList ++ rest = _
      rw [Nat.repr_eq_ofList_toDigits, String.toList_ofList]
    refine ⟨c, digits ++ rest, ?_, hblank, hclose, by simp⟩
    rw [hwrite, hdigits, List.cons_append]
  | text s => exact ⟨'"', _, rfl, rfl, by decide, by simp; omega⟩
  | @array _ items _ ih =>
    cases items with
    | nil => exact ⟨'[', _, rfl, rfl, by decide, by simp⟩
    | cons item items =>
      rw [List.forall_mem_cons] at ih
      refine ⟨'[', _, by rw [write, List.cons_append], rfl, by decide, ?_⟩
      have hitem := (ih.1 (level + 1) (writeItems .indented (level + 1) items
        (Spacing.indented.before level ++ ']' :: rest))).length_lt
      have hitems := length_writeItems ih.2 (level + 1) (Spacing.indented.before level ++ ']' :: rest)
      rw [List.length_append, List.length_cons] at hitems
      rw [List.length_append]
      omega
  | @object _ fields _ _ ih =>
    cases fields with
    | nil => exact ⟨'\x7b', _, rfl, rfl, by decide, by simp⟩
    | cons field fields =>
      rw [List.forall_mem_cons] at ih
      refine ⟨'\x7b', _, by rw [write]; simp only [List.cons_append]; rfl, rfl, by decide, ?_⟩
      have hfield := (ih.1 (level + 1) (writeFields .indented (level + 1) fields
        (Spacing.indented.before level ++ '\x7d' :: rest))).length_lt
      have hfields := length_writeFields ih.2 (level + 1) (Spacing.indented.before level ++ '\x7d' :: rest)
      rw [List.length_append, List.length_cons] at hfields
      rw [List.length_append]
      omega

theorem ends_writeItems (level level' : Nat) (items : List Json) (close : List Char) :
  Ends (writeItems .indented level items (Spacing.indented.before level' ++ close))
  := by
  cases items with
  | nil => exact ⟨'\n', _, rfl, .inr rfl⟩
  | cons item items => exact ⟨',', _, rfl, .inl rfl⟩

theorem ends_writeFields (level level' : Nat) (fields : List (String × Json)) (close : List Char) :
  Ends (writeFields .indented level fields (Spacing.indented.before level' ++ close))
  := by
  cases fields with
  | nil => exact ⟨'\n', _, rfl, .inr rfl⟩
  | cons field fields => exact ⟨',', _, rfl, .inl rfl⟩

/-- The items after the first one are read back. -/
theorem readItems_writeItems {depth : Nat} {items : List Json} (hlegible : ∀ item ∈ items, IsLegible depth item)
    (hstarts : ∀ item ∈ items, ∀ level rest, Starts (write .indented level item rest) rest)
    {level level' fuel : Nat} {read : List Json} {cur : Cursor} {rest : List Char}
    (hcur : cur.rest = writeItems .indented level items (Spacing.indented.before level' ++ ']' :: rest))
    (hfuel : 2 * cur.rest.length + 1 ≤ fuel + 2 * rest.length) :
  Leaves (readItems fuel depth false read cur) (read.reverse ++ items) rest
  := by
  induction items generalizing fuel read cur with
  | nil =>
    rw [writeItems] at hcur
    have hblanks := Cursor.rest_blanks_of_before hcur rfl
    have hlength := congrArg List.length hcur
    rw [List.length_append, List.length_cons] at hlength
    obtain ⟨fuel, rfl⟩ := Nat.exists_eq_add_one_of_ne_zero (n := fuel) (by omega)
    unfold readItems
    dsimp only
    rw [hblanks, List.append_nil]
    exact ⟨_, rfl, Cursor.rest_next hblanks⟩
  | cons item items ih =>
    rw [List.forall_mem_cons] at hlegible hstarts
    rw [writeItems] at hcur
    have hblanks := Cursor.rest_blanks_of_cons (hcur.trans List.cons_append) rfl
    have hlength := congrArg List.length hcur
    have hmore := length_writeItems hstarts.2 level (Spacing.indented.before level' ++ ']' :: rest)
    have hends := ends_writeItems level level' items (']' :: rest)
    generalize hlater : writeItems .indented level items (Spacing.indented.before level' ++ ']' :: rest) = later
      at hcur hblanks hlength hmore hends
    have hitem := (hstarts.1 level later).length_lt
    obtain ⟨c, more, hwrite, hblank, hclose, -⟩ := hstarts.1 level later
    rw [List.length_append, List.length_cons] at hlength hmore
    obtain ⟨fuel, rfl⟩ := Nat.exists_eq_add_one_of_ne_zero (n := fuel) (by omega)
    have hstart := Cursor.rest_blanks_of_before (hwrite ▸ Cursor.rest_next hblanks) hblank
    unfold readItems
    dsimp only
    rw [hblanks]
    simp only [Char.reduceBEq, Bool.false_eq_true, if_false, if_true]
    rw [hstart]
    change Leaves (if _ then _ else _) _ _
    rw [if_neg (by simpa using hclose)]
    have hitem := Cursor.rest_blanks_of_cons hstart hblank
    rw [← hwrite] at hitem
    refine (hlegible.1 hends hitem (by rw [hitem]; omega)).bind fun cur' hcur' => ?_
    have hnext : Leaves (readItems fuel depth false (item :: read) cur') ((item :: read).reverse ++ items) rest :=
      ih hlegible.2 hstarts.2 (hcur'.trans hlater.symm) (by rw [hcur']; omega)
    rwa [List.reverse_cons, List.append_assoc, List.singleton_append] at hnext

/-- A field is read back after the opening quote of its name, and then what follows it. -/
theorem readField_write {depth : Nat} {name : String} {value : Json} (hvalue : IsLegible depth value) {level fuel : Nat}
    {read fields : List (String × Json)} {later rest : List Char} (hends : Ends later)
    (hstarts : Starts (write .indented level value later) later)
    (hlater : ∀ cur : Cursor, cur.rest = later →
      Leaves (readFields fuel depth false ((name, value) :: read) cur) fields rest) {cur : Cursor}
    (hcur : cur.rest = name.toList.flatMap escapeChar ++ '"' :: ':' :: ' ' :: write .indented level value later)
    (hfuel : 2 * cur.rest.length ≤ fuel + 2 * later.length) :
  Leaves (readField (fuel + 1) depth read cur) fields rest
  := by
  unfold readField
  refine (readText_toList name hcur le_rfl).bind fun cur' hcur' => ?_
  have hblanks := Cursor.rest_blanks_of_cons hcur' rfl
  have hnext := Cursor.rest_next hblanks
  dsimp only
  rw [hblanks]
  obtain ⟨c, more, hwrite, hblank, -⟩ := hstarts
  have hblanks : cur'.blanks.next.blanks.rest = write .indented level value later := by
    rw [Cursor.rest_blanks, hnext, hwrite, List.dropWhile_cons, List.dropWhile_cons, hblank]
    rfl
  have hlength := congrArg List.length hcur
  rw [List.length_append, List.length_cons, List.length_cons, List.length_cons] at hlength
  exact (hvalue hends hblanks (by rw [hblanks]; omega)).bind hlater

/-- The name of a field, and what stands between it and the value. -/
theorem writeText_colon (name : String) (more : List Char) :
  writeText name ++ Spacing.indented.colon ++ more =
    '"' :: (name.toList.flatMap escapeChar ++ '"' :: ':' :: ' ' :: more)
  := by
  simp [writeText, Spacing.indented]

/-- The fields after the first one are read back. -/
theorem readFields_writeFields {depth : Nat} {fields : List (String × Json)}
    (hlegible : ∀ field ∈ fields, IsLegible depth field.2)
    (hstarts : ∀ field ∈ fields, ∀ level rest, Starts (write .indented level field.2 rest) rest)
    {level level' fuel : Nat} {read : List (String × Json)} {cur : Cursor} {rest : List Char}
    (hcur : cur.rest = writeFields .indented level fields (Spacing.indented.before level' ++ '\x7d' :: rest))
    (hfuel : 2 * cur.rest.length + 1 ≤ fuel + 2 * rest.length) :
  Leaves (readFields fuel depth false read cur) (read.reverse ++ fields) rest
  := by
  induction fields generalizing fuel read cur with
  | nil =>
    rw [writeFields] at hcur
    have hblanks := Cursor.rest_blanks_of_before hcur rfl
    have hlength := congrArg List.length hcur
    rw [List.length_append, List.length_cons] at hlength
    obtain ⟨fuel, rfl⟩ := Nat.exists_eq_add_one_of_ne_zero (n := fuel) (by omega)
    unfold readFields
    dsimp only
    rw [hblanks, List.append_nil]
    exact ⟨_, rfl, Cursor.rest_next hblanks⟩
  | cons field fields ih =>
    obtain ⟨name, value⟩ := field
    rw [List.forall_mem_cons] at hlegible hstarts
    rw [writeFields, List.append_assoc, List.append_assoc, ← List.append_assoc (writeText name), writeText_colon]
      at hcur
    have hblanks := Cursor.rest_blanks_of_cons (hcur.trans List.cons_append) rfl
    have hstart := Cursor.rest_blanks_of_before (Cursor.rest_next hblanks) rfl
    have hlength := congrArg List.length hcur
    have hmore := length_writeFields hstarts.2 level (Spacing.indented.before level' ++ '\x7d' :: rest)
    have hends := ends_writeFields level level' fields ('\x7d' :: rest)
    generalize hlater : writeFields .indented level fields (Spacing.indented.before level' ++ '\x7d' :: rest) = later
      at hcur hblanks hstart hlength hmore hends
    have hvalue : later.length < (write .indented level value later).length := (hstarts.1 level later).length_lt
    simp only [List.length_append, List.length_cons] at hlength hmore
    obtain ⟨fuel, rfl⟩ := Nat.exists_eq_add_one_of_ne_zero (n := fuel) (by omega)
    obtain ⟨fuel, rfl⟩ := Nat.exists_eq_add_one_of_ne_zero (n := fuel) (by omega)
    unfold readFields
    dsimp only
    rw [hblanks]
    simp only [Char.reduceBEq, Bool.false_eq_true, if_false, if_true]
    rw [hstart]
    apply readField_write hlegible.1 hends (hstarts.1 level later) _ (Cursor.rest_next hstart)
    · simp only [Cursor.rest_next hstart, List.length_append, List.length_cons]
      omega
    · intro cur' hcur'
      have hnext : Leaves (readFields fuel depth false ((name, value) :: read) cur')
          (((name, value) :: read).reverse ++ fields) rest :=
        ih hlegible.2 hstarts.2 (hcur'.trans hlater.symm) (by rw [hcur']; omega)
      rwa [List.reverse_cons, List.append_assoc, List.singleton_append] at hnext

/-- The items of an array are read back. -/
theorem readItems_write {depth : Nat} {items : List Json} (hlegible : ∀ item ∈ items, IsLegible depth item)
    (hstarts : ∀ item ∈ items, ∀ level rest, Starts (write .indented level item rest) rest) {level fuel : Nat}
    {cur : Cursor} {rest : List Char} (hcur : '[' :: cur.rest = write .indented level (.array items) rest)
    (hfuel : 2 * cur.rest.length + 1 ≤ fuel + 2 * rest.length) :
  Leaves (readItems fuel depth true [] cur) items rest
  := by
  cases items with
  | nil =>
    have hcur := (List.cons.inj hcur).2
    have hblanks := Cursor.rest_blanks_of_cons hcur rfl
    rw [hcur, List.length_cons] at hfuel
    obtain ⟨fuel, rfl⟩ := Nat.exists_eq_add_one_of_ne_zero (n := fuel) (by omega)
    unfold readItems
    dsimp only
    rw [hblanks]
    exact ⟨_, rfl, Cursor.rest_next hblanks⟩
  | cons item items =>
    rw [List.forall_mem_cons] at hlegible hstarts
    rw [write, List.cons_append, List.cons.injEq] at hcur
    have hcur := hcur.2
    have hlength := congrArg List.length hcur
    have hmore := length_writeItems hstarts.2 (level + 1) (Spacing.indented.before level ++ ']' :: rest)
    have hends := ends_writeItems (level + 1) level items (']' :: rest)
    generalize hlater : writeItems .indented (level + 1) items (Spacing.indented.before level ++ ']' :: rest) = later
      at hcur hlength hmore hends
    have hitem := (hstarts.1 (level + 1) later).length_lt
    obtain ⟨c, more, hwrite, hblank, hclose, -⟩ := hstarts.1 (level + 1) later
    simp only [List.length_append, List.length_cons] at hlength hmore
    obtain ⟨fuel, rfl⟩ := Nat.exists_eq_add_one_of_ne_zero (n := fuel) (by omega)
    have hstart := Cursor.rest_blanks_of_before (hwrite ▸ hcur) hblank
    have hitem := Cursor.rest_blanks_of_cons hstart hblank
    rw [← hwrite] at hitem
    unfold readItems
    dsimp only
    rw [hstart]
    change Leaves (if _ then _ else _) _ _
    rw [if_neg (by simpa using hclose), if_pos rfl]
    refine (hlegible.1 hends hitem (by rw [hitem]; omega)).bind fun cur' hcur' => ?_
    exact readItems_writeItems hlegible.2 hstarts.2 (hcur'.trans hlater.symm) (by rw [hcur']; omega)

/-- The fields of an object are read back. -/
theorem readFields_write {depth : Nat} {fields : List (String × Json)}
    (hlegible : ∀ field ∈ fields, IsLegible depth field.2)
    (hstarts : ∀ field ∈ fields, ∀ level rest, Starts (write .indented level field.2 rest) rest) {level fuel : Nat}
    {cur : Cursor} {rest : List Char} (hcur : '\x7b' :: cur.rest = write .indented level (.object fields) rest)
    (hfuel : 2 * cur.rest.length + 1 ≤ fuel + 2 * rest.length) :
  Leaves (readFields fuel depth true [] cur) fields rest
  := by
  cases fields with
  | nil =>
    have hcur := (List.cons.inj hcur).2
    have hblanks := Cursor.rest_blanks_of_cons hcur rfl
    rw [hcur, List.length_cons] at hfuel
    obtain ⟨fuel, rfl⟩ := Nat.exists_eq_add_one_of_ne_zero (n := fuel) (by omega)
    unfold readFields
    dsimp only
    rw [hblanks]
    exact ⟨_, rfl, Cursor.rest_next hblanks⟩
  | cons field fields =>
    obtain ⟨name, value⟩ := field
    rw [List.forall_mem_cons] at hlegible hstarts
    rw [write, List.append_assoc, List.append_assoc, ← List.append_assoc (writeText name), writeText_colon,
      List.cons_append, List.cons.injEq] at hcur
    have hcur := hcur.2
    have hstart := Cursor.rest_blanks_of_before hcur rfl
    have hlength := congrArg List.length hcur
    have hmore := length_writeFields hstarts.2 (level + 1) (Spacing.indented.before level ++ '\x7d' :: rest)
    have hends := ends_writeFields (level + 1) level fields ('\x7d' :: rest)
    generalize hlater : writeFields .indented (level + 1) fields (Spacing.indented.before level ++ '\x7d' :: rest) =
      later at hcur hstart hlength hmore hends
    have hvalue : later.length < (write .indented (level + 1) value later).length :=
      (hstarts.1 (level + 1) later).length_lt
    simp only [List.length_append, List.length_cons] at hlength hmore
    obtain ⟨fuel, rfl⟩ := Nat.exists_eq_add_one_of_ne_zero (n := fuel) (by omega)
    obtain ⟨fuel, rfl⟩ := Nat.exists_eq_add_one_of_ne_zero (n := fuel) (by omega)
    unfold readFields
    dsimp only
    rw [hstart]
    apply readField_write hlegible.1 hends (hstarts.1 (level + 1) later) _ (Cursor.rest_next hstart)
    · simp only [Cursor.rest_next hstart, List.length_append, List.length_cons]
      omega
    · intro cur' hcur'
      have hnext : Leaves (readFields fuel depth false [(name, value)] cur')
          ([(name, value)].reverse ++ fields) rest :=
        readFields_writeFields hlegible.2 hstarts.2 (hcur'.trans hlater.symm) (by rw [hcur']; omega)
      exact hnext

theorem readLetters_append (value : Json) (letters : List Char) {cur : Cursor} {rest : List Char}
    (hcur : cur.rest = letters ++ rest) :
  Leaves (readLetters value letters cur) value rest
  := by
  induction letters generalizing cur with
  | nil => exact ⟨cur, rfl, hcur⟩
  | cons letter letters ih =>
    rw [List.cons_append] at hcur
    unfold readLetters
    rw [hcur]
    dsimp only
    rw [if_pos (beq_self_eq_true letter)]
    exact ih (Cursor.rest_next hcur)

theorem write_nat (level n : Nat) (rest : List Char) :
  write .indented level (ofNat n) rest = Nat.toDigits 10 n ++ rest
  := by
  change (Nat.repr n).toList ++ rest = _
  rw [Nat.repr_eq_ofList_toDigits, String.toList_ofList]

/-- There is fuel for the first step of a value that starts as values do. -/
theorem isLegible_of_starts {depth : Nat} {value : Json}
    (hstarts : ∀ level rest, Starts (write .indented level value rest) rest)
    (h : ∀ {level fuel : Nat} {cur : Cursor} {rest : List Char}, Ends rest →
      cur.blanks.rest = write .indented level value rest →
      2 * cur.blanks.rest.length ≤ fuel + 1 + 2 * rest.length → Leaves (readValue (fuel + 1) depth cur) value rest) :
  IsLegible depth value
  := by
  intro level fuel cur rest hends hcur hfuel
  have hlength := (hstarts level rest).length_lt
  rw [← hcur] at hlength
  obtain ⟨fuel, rfl⟩ := Nat.exists_eq_add_one_of_ne_zero (n := fuel) (by omega)
  exact h hends hcur hfuel

theorem isLegible_null (depth : Nat) :
  IsLegible depth .null
  := by
  have hplain : IsPlain depth .null := .null
  apply isLegible_of_starts hplain.starts
  intro level fuel cur rest hends hcur hfuel
  unfold readValue
  dsimp only
  rw [hcur]
  exact readLetters_append .null ['u', 'l', 'l'] (Cursor.rest_next hcur)

theorem isLegible_nat {n : Nat} (hn : n ≤ maxWord) (depth : Nat) :
  IsLegible depth (.ofNat n)
  := by
  have hplain : IsPlain depth (.ofNat n) := .nat hn
  apply isLegible_of_starts hplain.starts
  intro level fuel cur rest hends hcur hfuel
  obtain ⟨c, digits, hdigits, hc⟩ := exists_digit n
  rw [write_nat] at hcur
  have hread := readNumber_toDigits hn hends hcur
  rw [hdigits, List.cons_append] at hcur
  have hother {d : Char} (hd : d.isDigit = false) : ¬ (c == d) = true := by
    intro hcd
    rw [beq_iff_eq.mp hcd, hd] at hc
    cases hc
  unfold readValue
  dsimp only
  rw [hcur]
  dsimp only
  rw [if_neg (hother rfl), if_neg (hother rfl), if_neg (hother rfl), if_neg (hother rfl), if_pos hc]
  exact hread.bind fun cur' hcur' => ⟨cur', rfl, hcur'⟩

theorem isLegible_text (s : String) (depth : Nat) :
  IsLegible depth (.text s)
  := by
  have hplain : IsPlain depth (.text s) := .text s
  apply isLegible_of_starts hplain.starts
  intro level fuel cur rest hends hcur hfuel
  have htext : cur.blanks.rest = '"' :: (s.toList.flatMap escapeChar ++ '"' :: rest) := by
    rw [hcur]
    simp [write, writeText]
  have hread : Leaves (readText (cur.blanks.rest.length + 1) [] cur.blanks.next) s rest := by
    apply readText_toList s (Cursor.rest_next htext)
    rw [Cursor.rest_next htext, htext]
    exact Nat.le_succ _
  rw [htext] at hread
  unfold readValue
  dsimp only
  rw [htext]
  exact hread.bind fun cur' hcur' => ⟨cur', rfl, hcur'⟩

theorem isLegible_array {height depth : Nat} {items : List Json} (hplain : ∀ item ∈ items, IsPlain height item)
    (hlegible : ∀ item ∈ items, IsLegible depth item) (hdepth : 0 < depth) :
  IsLegible (depth + 1) (.array items)
  := by
  apply isLegible_of_starts (IsPlain.array hplain).starts
  intro level fuel cur rest hends hcur hfuel
  obtain ⟨more, hmore⟩ : ∃ more, write .indented level (.array items) rest = '[' :: more := by
    cases items <;> exact ⟨_, rfl⟩
  rw [hmore] at hcur
  have hnext := Cursor.rest_next hcur
  have hread : Leaves (readItems fuel depth true [] cur.blanks.next) items rest := by
    apply readItems_write hlegible (fun item hitem => (hplain item hitem).starts)
    · rw [hnext, hmore]
    · rw [hnext]
      rw [hcur, List.length_cons] at hfuel
      omega
  unfold readValue
  dsimp only
  rw [hcur]
  change Leaves (if depth + 1 ≤ 1 then _ else _) _ _
  rw [if_neg (by omega)]
  exact hread.bind fun cur' hcur' => ⟨cur', rfl, hcur'⟩

theorem isLegible_object {height depth : Nat} {fields : List (String × Json)}
    (hplain : ∀ field ∈ fields, IsPlain height field.2) (hsorted : ofFields fields = .object fields)
    (hlegible : ∀ field ∈ fields, IsLegible depth field.2) (hdepth : 0 < depth) :
  IsLegible (depth + 1) (.object fields)
  := by
  apply isLegible_of_starts (IsPlain.object hplain hsorted).starts
  intro level fuel cur rest hends hcur hfuel
  obtain ⟨more, hmore⟩ : ∃ more, write .indented level (.object fields) rest = '\x7b' :: more := by
    cases fields <;> exact ⟨_, rfl⟩
  rw [hmore] at hcur
  have hnext := Cursor.rest_next hcur
  have hread : Leaves (readFields fuel depth true [] cur.blanks.next) fields rest := by
    apply readFields_write hlegible (fun field hfield => (hplain field hfield).starts)
    · rw [hnext, hmore]
    · rw [hnext]
      rw [hcur, List.length_cons] at hfuel
      omega
  unfold readValue
  dsimp only
  rw [hcur]
  change Leaves (if depth + 1 ≤ 1 then _ else _) _ _
  rw [if_neg (by omega)]
  exact hread.bind fun cur' hcur' => ⟨cur', congrArg (fun value => Except.ok (value, cur')) hsorted, hcur'⟩

/-- Plain values are legible to a reader that goes deep enough. -/
theorem IsPlain.isLegible {height depth : Nat} {value : Json} (h : IsPlain height value) (hdepth : height < depth) :
  IsLegible depth value
  := by
  induction h generalizing depth with
  | null => exact isLegible_null depth
  | nat hn => exact isLegible_nat hn depth
  | text s => exact isLegible_text s depth
  | array hitems ih =>
    obtain ⟨depth, rfl⟩ := Nat.exists_eq_add_one_of_ne_zero (Nat.ne_zero_of_lt hdepth)
    have hlt := Nat.lt_of_succ_lt_succ hdepth
    exact @isLegible_array _ _ _ hitems (fun item hitem => ih item hitem hlt) (Nat.zero_lt_of_lt hlt)
  | object hfields hsorted ih =>
    obtain ⟨depth, rfl⟩ := Nat.exists_eq_add_one_of_ne_zero (Nat.ne_zero_of_lt hdepth)
    have hlt := Nat.lt_of_succ_lt_succ hdepth
    exact @isLegible_object _ _ _ hfields hsorted (fun field hfield => ih field hfield hlt) (Nat.zero_lt_of_lt hlt)

/-- What stands behind a value does not change how the value is written. -/
theorem IsPlain.write_append {height : Nat} {value : Json} (h : IsPlain height value) (level : Nat)
    (rest more : List Char) :
  write .indented level value (rest ++ more) = write .indented level value rest ++ more
  := by
  induction h generalizing level rest with
  | null => rfl
  | nat hn => rw [write_nat, write_nat, List.append_assoc]
  | text s => simp [write]
  | @array height items _ ih =>
    have hlater : ∀ later ⊆ items, ∀ level rest, writeItems .indented level later (rest ++ more) =
        writeItems .indented level later rest ++ more := by
      intro later hsub level rest
      induction later generalizing rest with
      | nil => rfl
      | cons item later ih' =>
        rw [List.cons_subset] at hsub
        rw [writeItems, writeItems, ih' hsub.2, ih item hsub.1, List.append_assoc]
    cases items with
    | nil => rfl
    | cons item items =>
      have hclose : Spacing.indented.before level ++ ']' :: (rest ++ more) =
          (Spacing.indented.before level ++ ']' :: rest) ++ more := by
        rw [List.append_assoc, List.cons_append]
      rw [write, write, hclose, hlater items (List.subset_cons_self item items), ih item List.mem_cons_self,
        List.append_assoc]
  | @object height fields _ _ ih =>
    have hlater : ∀ later ⊆ fields, ∀ level rest, writeFields .indented level later (rest ++ more) =
        writeFields .indented level later rest ++ more := by
      intro later hsub level rest
      induction later generalizing rest with
      | nil => rfl
      | cons field later ih' =>
        rw [List.cons_subset] at hsub
        rw [writeFields, writeFields, ih' hsub.2, ih field hsub.1]
        simp only [List.append_assoc]
    cases fields with
    | nil => rfl
    | cons field fields =>
      have hclose : Spacing.indented.before level ++ '\x7d' :: (rest ++ more) =
          (Spacing.indented.before level ++ '\x7d' :: rest) ++ more := by
        rw [List.append_assoc, List.cons_append]
      rw [write, write, hclose, hlater fields (List.subset_cons_self field fields), ih field List.mem_cons_self]
      simp only [List.append_assoc]

/-- A plain value is read back from its written form. -/
theorem read_pretty {value : Json} {height : Nat} (h : IsPlain height value) (hheight : height < 128) :
  read (value.pretty ++ "\n") = .ok value
  := by
  have htext : (value.pretty ++ "\n").toList = write .indented 0 value ['\n'] := by
    rw [String.toList_append, pretty, String.toList_ofList, ← h.write_append]
    rfl
  obtain ⟨c, more, hwrite, hblank, -⟩ := h.starts 0 ['\n']
  let start : Cursor := ⟨(value.pretty ++ "\n").toList, 1, 0⟩
  have hstart : start.blanks.rest = write .indented 0 value ['\n'] := by
    rw [hwrite]
    exact Cursor.rest_blanks_of_cons (htext.trans hwrite) hblank
  have hlength : 2 * start.blanks.rest.length ≤ 4 * start.rest.length + 4 + 2 * ['\n'].length := by
    rw [hstart, ← htext]
    change _ ≤ 4 * (value.pretty ++ "\n").toList.length + 4 + _
    omega
  obtain ⟨cur, hread, hcur⟩ := h.isLegible hheight ⟨'\n', [], rfl, .inr rfl⟩ hstart hlength
  have hblanks : cur.blanks.rest = [] := by
    rw [Cursor.rest_blanks, hcur]
    rfl
  unfold read
  change readValue (4 * start.rest.length + 4) 128 start >>= _ = _
  rw [hread]
  change (if _ then _ else _) = _
  rw [if_pos]
  rw [hblanks]
  rfl

end CallGraph.Json
