import CallGraph.Proofs.Frontier.Slots

/-!
# Orderly frontiers

`Orderly` ties the slots of a frontier to the selections that stand, to the expansions that are not finished
and to the lists that expansions computed.  It says what is known at every moment: the slots are in line with
the selections, each selection either has its list in the next column or an expansion that will put it there,
and every search that is not cancelled belongs to a selection that stands.  The lemmas take it through the
changes that the sections of callers and workers make.
-/

namespace CallGraph

/-! ### Parts of the invariant -/

/-- Whether a search is still to be made or under way. -/
def Expansion.IsSearching (e : Expansion) : Prop :=
  ∃ search, e.stage = .searching search

/-- The column right of a selection waits for the selection's expansion, or shows what it computed. -/
inductive Fills (c : Searches) (found : List (Token × List Node)) (tasks : List (Token × Expansion))
    (index : Nat) (handle : Token) (column : Column) : Prop where
  | waiting (e : Expansion) (populating : column.state = .populating) (task : (handle, e) ∈ tasks)
      (index : e.column = index) (searching : e.IsSearching)
      (uncancelled : c.isCancelled handle = false)
  | filled (populated : column.state = .populated) (found : (handle, column.nodes) ∈ found)

/-- The invariant of a frontier in use; `aside` are the handles of highlights. -/
structure Orderly (slots : List Slot) (c : Searches) (standing : List Pending)
    (found : List (Token × List Node)) (tasks : List (Token × Expansion)) (aside : List Token) : Prop where
  sound : c.Sound
  lined : Lined slots standing
  filled : ∀ (i : Nat) (p : Pending), standing[i]? = some p →
    ∃ slot, slots[i + 1]? = some slot ∧ Fills c found tasks i p.handle slot.column
  issued : ∀ x ∈ tasks, c.Issued x.1
  foundIssued : ∀ x ∈ found, c.Issued x.1
  asideIssued : ∀ t ∈ aside, c.Issued t
  nodup : (tasks.map Prod.fst).Nodup
  foundNodup : (found.map Prod.fst).Nodup
  apart : ∀ x ∈ tasks, x.1 ∉ aside
  unfinished : ∀ x ∈ tasks, x.2.IsSearching → c.signals.isFinished x.1 = false
  unfound : ∀ x ∈ tasks, x.2.IsSearching → x.1 ∉ found.map Prod.fst
  wanted : ∀ x ∈ tasks, x.2.IsSearching →
    c.isCancelled x.1 ∨ ∃ p, standing[x.2.column]? = some p ∧ p.handle = x.1

variable {slots : List Slot} {c c' : Searches} {standing : List Pending}
  {found found' : List (Token × List Node)} {tasks tasks' : List (Token × Expansion)}
  {aside aside' : List Token}

namespace Fills

variable {index : Nat} {handle : Token} {column : Column}

/-- What fills a column goes on to do so as long as no list is lost and an expansion that the column waits for
is still there and not cancelled. -/
theorem congr (h : Fills c found tasks index handle column)
    (hfound : ∀ nodes, (handle, nodes) ∈ found → (handle, nodes) ∈ found')
    (htasks : ∀ e, (handle, e) ∈ tasks → e.column = index → e.IsSearching →
      c.isCancelled handle = false →
      c'.isCancelled handle = false ∧ ∃ e', (handle, e') ∈ tasks' ∧ e'.column = index ∧ e'.IsSearching) :
  Fills c' found' tasks' index handle column
  := by
  cases h with
  | waiting e populating task hindex searching uncancelled =>
      obtain ⟨hcancelled, e', htask, hindex', hsearching⟩ := htasks e task hindex searching uncancelled
      exact .waiting e' populating htask hindex' hsearching hcancelled
  | filled populated hmem => exact .filled populated (hfound _ hmem)

/-- A column that has its rows has those that the expansion computed. -/
theorem mem_found (h : Fills c found tasks index handle column) (hstate : column.state = .populated) :
  (handle, column.nodes) ∈ found
  := by
  cases h with
  | waiting e populating => rw [populating] at hstate; cases hstate
  | filled _ hmem => apply hmem

end Fills

namespace Orderly

/-! ### What fills columns -/

/-- The column right of a selection that stands is filled. -/
theorem fills (h : Orderly slots c standing found tasks aside) {i : Nat} {p : Pending} {slot : Slot}
    (hp : standing[i]? = some p) (hslot : slots[i + 1]? = some slot) :
  Fills c found tasks i p.handle slot.column
  := by
  obtain ⟨slot', hslot', hfills⟩ := h.filled i p hp
  rw [hslot] at hslot'
  obtain rfl := Option.some.inj hslot'
  apply hfills

/-- A column that has its rows has those that were computed for the selection left of it. -/
theorem mem_found (h : Orderly slots c standing found tasks aside) {i : Nat} {p : Pending} {slot : Slot}
    (hp : standing[i]? = some p) (hslot : slots[i + 1]? = some slot)
    (hpopulated : slot.column.state = .populated) :
  (p.handle, slot.column.nodes) ∈ found
  :=
  (h.fills hp hslot).mem_found hpopulated

/-! ### Changes elsewhere -/

/-- Changes that are confined to highlights. -/
theorem confine (h : Orderly slots c standing found tasks aside) (hc : c.Confined aside aside' c') :
  Orderly slots c' standing found tasks aside'
  := by
  have hissued : ∀ {t}, c.Issued t → c'.Issued t := fun ht => ht.mono hc.next
  have hcancelled : ∀ x ∈ tasks, c'.isCancelled x.1 = c.isCancelled x.1 :=
    fun x hx => hc.cancelled _ (h.issued x hx) (h.apart x hx)
  constructor
  · apply hc.sound h.sound
  · apply h.lined
  · intro i p hp
    obtain ⟨slot, hslot, hfills⟩ := h.filled i p hp
    use slot, hslot
    apply hfills.congr fun _ => id
    intro e htask hindex hsearching huncancelled
    exact ⟨(hcancelled _ htask).trans huncancelled, e, htask, hindex, hsearching⟩
  · exact fun x hx => hissued (h.issued x hx)
  · exact fun x hx => hissued (h.foundIssued x hx)
  · apply hc.issued h.asideIssued
  · apply h.nodup
  · apply h.foundNodup
  · exact fun x hx => hc.apart _ (h.issued x hx) (h.apart x hx)
  · intro x hx hsearching
    rw [hc.finished _ (h.issued x hx) (h.apart x hx)]
    apply h.unfinished x hx hsearching
  · apply h.unfound
  · intro x hx hsearching
    rw [hcancelled x hx]
    apply h.wanted x hx hsearching

/-- Expansions that change hands. -/
theorem perm (h : Orderly slots c standing found tasks aside) (hperm : tasks.Perm tasks') :
  Orderly slots c standing found tasks' aside
  := by
  have hmem : ∀ {x}, x ∈ tasks' → x ∈ tasks := fun hx => hperm.mem_iff.mpr hx
  constructor
  · apply h.sound
  · apply h.lined
  · intro i p hp
    obtain ⟨slot, hslot, hfills⟩ := h.filled i p hp
    use slot, hslot
    apply hfills.congr fun _ => id
    intro e htask hindex hsearching huncancelled
    exact ⟨huncancelled, e, hperm.mem_iff.mp htask, hindex, hsearching⟩
  · exact fun x hx => h.issued x (hmem hx)
  · apply h.foundIssued
  · apply h.asideIssued
  · apply (hperm.map Prod.fst).nodup_iff.mp h.nodup
  · apply h.foundNodup
  · exact fun x hx => h.apart x (hmem hx)
  · exact fun x hx => h.unfinished x (hmem hx)
  · exact fun x hx => h.unfound x (hmem hx)
  · exact fun x hx => h.wanted x (hmem hx)

/-! ### Expansions under way -/

variable {handle : Token} {e e' : Expansion}

/-- The handle of an expansion is that of no other one. -/
theorem ne_of_mem (h : Orderly slots c standing found ((handle, e) :: tasks) aside)
    {x : Token × Expansion} (hx : x ∈ tasks) :
  x.1 ≠ handle
  := by
  intro heq
  have hmem : x.1 ∈ tasks.map Prod.fst := List.mem_map_of_mem hx
  rw [heq] at hmem
  apply (List.nodup_cons.mp h.nodup).1 hmem

/-- A search that goes on. -/
theorem resume (h : Orderly slots c standing found ((handle, e) :: tasks) aside)
    (hsearching : e.IsSearching) (hcolumn : e'.column = e.column) (hsearching' : e'.IsSearching) :
  Orderly slots c standing found ((handle, e') :: tasks) aside
  := by
  have hfirst : (handle, e) ∈ (handle, e) :: tasks := List.mem_cons_self
  have hrest : ∀ {x}, x ∈ tasks → x ∈ (handle, e) :: tasks := fun hx => List.mem_cons_of_mem _ hx
  constructor
  · apply h.sound
  · apply h.lined
  · intro i p hp
    obtain ⟨slot, hslot, hfills⟩ := h.filled i p hp
    use slot, hslot
    apply hfills.congr fun _ => id
    intro e₀ htask hindex hsearching₀ huncancelled
    use huncancelled
    rcases List.mem_cons.mp htask with heq | htask
    · cases heq
      exact ⟨e', List.mem_cons_self, hcolumn.trans hindex, hsearching'⟩
    · exact ⟨e₀, List.mem_cons_of_mem _ htask, hindex, hsearching₀⟩
  · intro x hx
    rcases List.mem_cons.mp hx with rfl | hx
    · apply h.issued (handle, e) hfirst
    · apply h.issued x (hrest hx)
  · apply h.foundIssued
  · apply h.asideIssued
  · apply h.nodup
  · apply h.foundNodup
  · intro x hx
    rcases List.mem_cons.mp hx with rfl | hx
    · apply h.apart (handle, e) hfirst
    · apply h.apart x (hrest hx)
  · intro x hx hx'
    rcases List.mem_cons.mp hx with rfl | hx
    · apply h.unfinished (handle, e) hfirst hsearching
    · apply h.unfinished x (hrest hx) hx'
  · intro x hx hx'
    rcases List.mem_cons.mp hx with rfl | hx
    · apply h.unfound (handle, e) hfirst hsearching
    · apply h.unfound x (hrest hx) hx'
  · intro x hx hx'
    rcases List.mem_cons.mp hx with rfl | hx
    · rw [hcolumn]
      apply h.wanted (handle, e) hfirst hsearching
    · apply h.wanted x (hrest hx) hx'

/-- The column right of a selection that a search still works for is the last one. -/
theorem column_eq_last (h : Orderly slots c standing found tasks aside) {x : Token × Expansion}
    (hx : x ∈ tasks) (hsearching : x.2.IsSearching) (huncancelled : c.isCancelled x.1 = false) :
  x.2.column + 1 = standing.length ∧ ∃ p, standing[x.2.column]? = some p ∧ p.handle = x.1
  := by
  rcases h.wanted x hx hsearching with hcancelled | ⟨p, hp, hhandle⟩
  · rw [huncancelled] at hcancelled
    cases hcancelled
  · refine ⟨?_, p, hp, hhandle⟩
    obtain ⟨slot, hslot, -⟩ := h.filled x.2.column p hp
    rcases h.lined.holds_or_isOpen hslot with ⟨q, -, hholds⟩ | ⟨hlast, -⟩
    · -- The column would have its rows, but its search has not given any.
      apply absurd _ (h.unfound x hx hsearching)
      rw [← hhandle]
      apply List.mem_map_of_mem (h.mem_found hp hslot hholds.populated)
    · apply hlast

/-- A search is over: its list is among those that were computed, and the columns are filled with them. -/
theorem settle (h : Orderly slots c standing found ((handle, e) :: tasks) aside)
    (hsearching : e.IsSearching) {nodes : List Node} {slots' : List Slot} (hlined : Lined slots' standing)
    (hfilled : ∀ (i : Nat) (p : Pending), standing[i]? = some p → ∃ slot, slots'[i + 1]? = some slot ∧
      Fills c ((handle, nodes) :: found) ((handle, { e with stage := .settled }) :: tasks) i p.handle
        slot.column) :
  Orderly slots' c standing ((handle, nodes) :: found) ((handle, { e with stage := .settled }) :: tasks) aside
  := by
  have hfirst : (handle, e) ∈ (handle, e) :: tasks := List.mem_cons_self
  have hrest : ∀ {x}, x ∈ tasks → x ∈ (handle, e) :: tasks := fun hx => List.mem_cons_of_mem _ hx
  have hsettled : ∀ {x : Token × Expansion}, x ∈ (handle, { e with stage := .settled }) :: tasks →
      x.2.IsSearching → x ∈ tasks := by
    intro x hx hx'
    rcases List.mem_cons.mp hx with rfl | hx
    · obtain ⟨search, hstage⟩ := hx'
      cases hstage
    · apply hx
  have hissued : c.Issued handle := h.issued _ hfirst
  constructor
  · apply h.sound
  · apply hlined
  · apply hfilled
  · intro x hx
    rcases List.mem_cons.mp hx with rfl | hx
    · apply hissued
    · apply h.issued x (hrest hx)
  · intro x hx
    rcases List.mem_cons.mp hx with rfl | hx
    · apply hissued
    · apply h.foundIssued x hx
  · apply h.asideIssued
  · apply h.nodup
  · apply List.nodup_cons.mpr ⟨h.unfound _ hfirst hsearching, h.foundNodup⟩
  · intro x hx
    rcases List.mem_cons.mp hx with rfl | hx
    · apply h.apart (handle, e) hfirst
    · apply h.apart x (hrest hx)
  · exact fun x hx hx' => h.unfinished x (hrest (hsettled hx hx')) hx'
  · intro x hx hx' hmem
    have hx := hsettled hx hx'
    rcases List.mem_cons.mp hmem with heq | hmem
    · apply h.ne_of_mem hx heq
    · apply h.unfound x (hrest hx) hx' hmem
  · exact fun x hx hx' => h.wanted x (hrest (hsettled hx hx')) hx'

/-- The list of a cancelled expansion is thrown away. -/
theorem discard (h : Orderly slots c standing found ((handle, e) :: tasks) aside)
    (hsearching : e.IsSearching) (hcancelled : c.isCancelled handle) (nodes : List Node) :
  Orderly slots c standing ((handle, nodes) :: found) ((handle, { e with stage := .settled }) :: tasks) aside
  := by
  apply h.settle hsearching h.lined
  intro i p hp
  obtain ⟨slot, hslot, hfills⟩ := h.filled i p hp
  use slot, hslot
  apply hfills.congr fun _ => List.mem_cons_of_mem _
  intro e₀ htask hindex hsearching₀ huncancelled
  refine ⟨huncancelled, e₀, ?_, hindex, hsearching₀⟩
  rcases List.mem_cons.mp htask with heq | htask
  · obtain ⟨hhandle, -⟩ := Prod.mk.inj heq
    rw [hhandle, hcancelled] at huncancelled
    cases huncancelled
  · apply List.mem_cons_of_mem _ htask

/-- The list of an expansion that was not cancelled is published. -/
theorem publish (h : Orderly slots c standing found ((handle, e) :: tasks) aside)
    (hsearching : e.IsSearching) (huncancelled : c.isCancelled handle = false) (nodes : List Node) :
  Orderly (slots.modify (e.column + 1) fun slot => { slot with column := .populated nodes }) c standing
    ((handle, nodes) :: found) ((handle, { e with stage := .settled }) :: tasks) aside
  := by
  obtain ⟨hcolumn, q, hq, hhandle⟩ := h.column_eq_last List.mem_cons_self hsearching huncancelled
  have hcolumn : e.column + 1 = standing.length := hcolumn
  apply h.settle hsearching (h.lined.publish hcolumn nodes)
  intro i p hp
  obtain ⟨slot, hslot, -⟩ := h.filled i p hp
  by_cases hi : i = e.column
  · subst hi
    rw [hp] at hq
    obtain rfl := Option.some.inj hq
    use { slot with column := .populated nodes }
    constructor
    · rw [List.getElem?_modify_eq, hslot]
      rfl
    · rw [hhandle]
      exact .filled rfl List.mem_cons_self
  · have hlt : i < standing.length := (List.getElem?_eq_some_iff.mp hp).1
    use slot
    constructor
    · rw [List.getElem?_modify_ne _ _ (by omega), hslot]
    · -- Another selection stands in this column, so it has its rows.
      have hholds := h.lined.holds (List.getElem?_eq_getElem (by omega)) hslot
      exact .filled hholds.populated (List.mem_cons_of_mem _ (h.mem_found hp hslot hholds.populated))

/-- An expansion that ends, after its search or because it was cancelled. -/
theorem finish (h : Orderly slots c standing found ((handle, e) :: tasks) aside)
    (hover : ¬ e.IsSearching ∨ c.isCancelled handle) :
  Orderly slots { c with signals := c.signals.finish handle } standing found tasks aside
  := by
  have hrest : ∀ {x}, x ∈ tasks → x ∈ (handle, e) :: tasks := fun hx => List.mem_cons_of_mem _ hx
  have hissued : c.Issued handle := h.issued _ List.mem_cons_self
  -- To the other expansions the handle is no more than that of a highlight.
  have htouches : c.Touches [handle] [handle] { c with signals := c.signals.finish handle } :=
    .finish List.mem_cons_self hissued
  have hcancelled : ∀ t, ({ c with signals := c.signals.finish handle } : Searches).isCancelled t =
      c.isCancelled t := c.signals.isCancelled_finish handle
  constructor
  · apply htouches.sound h.sound
  · apply h.lined
  · intro i p hp
    obtain ⟨slot, hslot, hfills⟩ := h.filled i p hp
    use slot, hslot
    apply hfills.congr fun _ => id
    intro e₀ htask hindex hsearching huncancelled
    refine ⟨(hcancelled _).trans huncancelled, e₀, ?_, hindex, hsearching⟩
    rcases List.mem_cons.mp htask with heq | htask
    · cases heq
      rcases hover with hover | hover
      · exact absurd hsearching hover
      · rw [huncancelled] at hover
        cases hover
    · apply htask
  · exact fun x hx => (h.issued x (hrest hx)).mono htouches.next
  · exact fun x hx => (h.foundIssued x hx).mono htouches.next
  · exact fun t ht => (h.asideIssued t ht).mono htouches.next
  · apply (List.nodup_cons.mp h.nodup).2
  · apply h.foundNodup
  · exact fun x hx => h.apart x (hrest hx)
  · intro x hx hsearching
    rw [htouches.finished _ (h.issued x (hrest hx)) (by simpa using h.ne_of_mem hx)]
    apply h.unfinished x (hrest hx) hsearching
  · exact fun x hx => h.unfound x (hrest hx)
  · intro x hx hsearching
    rw [hcancelled]
    apply h.wanted x (hrest hx) hsearching

/-! ### Commands -/

/-- The handles of selections that stand were given out. -/
theorem standing_issued (h : Orderly slots c standing found tasks aside) {p : Pending}
    (hp : p ∈ standing) :
  c.Issued p.handle
  := by
  obtain ⟨i, hi⟩ := List.getElem?_of_mem hp
  obtain ⟨slot, -, hfills⟩ := h.filled i p hi
  cases hfills with
  | waiting e populating task => apply h.issued _ task
  | filled populated hmem => apply h.foundIssued _ hmem

/-- The handles that slots wait for were given out. -/
theorem pendings_issued (h : Orderly slots c standing found tasks aside) {index : Nat} {p : Pending}
    (hp : p ∈ pendings (slots.drop index)) :
  c.Issued p.handle
  :=
  h.standing_issued (h.lined.mem_standing_of_mem_pendings hp)

/-- A search is cancelled if its selection is among those whose expansions are. -/
theorem wanted_of_cancels (h : Orderly slots c standing found tasks aside) {index : Nat}
    (hc : c.Cancels (pendings (slots.drop index)) c') {x : Token × Expansion} (hx : x ∈ tasks)
    (hsearching : x.2.IsSearching) :
  c'.isCancelled x.1 ∨
    x.2.column < index ∧ ∃ p, standing[x.2.column]? = some p ∧ p.handle = x.1
  := by
  rcases h.wanted x hx hsearching with hcancelled | ⟨p, hp, hhandle⟩
  · exact .inl (hc.keeps _ hcancelled)
  · rcases Nat.lt_or_ge x.2.column index with hlt | hle
    · exact .inr ⟨hlt, p, hp, hhandle⟩
    · rcases hc.handles p (h.lined.mem_pendings hp hle) with hfinished | hcancelled
      · rw [hhandle, h.unfinished x hx hsearching] at hfinished
        cases hfinished
      · exact .inl (hhandle ▸ hcancelled)

/-- Whoever selects a row of a column that has its rows cancels every search. -/
theorem isCancelled_of_cancels (h : Orderly slots c standing found tasks aside) {index : Nat} {slot : Slot}
    (hslot : slots[index]? = some slot) (hpopulated : slot.column.state = .populated)
    (hc : c.Cancels (pendings (slots.drop index)) c') {x : Token × Expansion} (hx : x ∈ tasks)
    (hsearching : x.2.IsSearching) :
  c'.isCancelled x.1
  := by
  rcases h.wanted_of_cancels hc hx hsearching with hcancelled | ⟨hlt, p, hp, hhandle⟩
  · apply hcancelled
  · cases hcancelled : c.isCancelled x.1 with
    | true => apply hc.keeps _ hcancelled
    | false =>
        obtain ⟨hlast, -⟩ := h.column_eq_last hx hsearching hcancelled
        have hindex : index < slots.length := (List.getElem?_eq_some_iff.mp hslot).1
        rw [h.lined.length] at hindex
        obtain rfl : index = x.2.column + 1 := by omega
        have hfound := List.mem_map_of_mem (f := Prod.fst) (h.mem_found hp hslot hpopulated)
        exact absurd (hhandle ▸ hfound) (h.unfound x hx hsearching)

/-- All expansions are cancelled and a single column is left, in which nothing is selected. -/
theorem restart (h : Orderly slots c standing found tasks aside) {slot : Slot}
    (hc : c.Cancels (pendings slots) c') (populated : slot.column.state = .populated)
    (isOpen : slot.IsOpen) :
  Orderly [slot] c' [] found tasks aside
  := by
  have hc : c.Cancels (pendings (slots.drop 0)) c' := hc
  have hissued : ∀ {t}, c.Issued t → c'.Issued t := fun ht => ht.mono (Nat.le_of_eq hc.next.symm)
  constructor
  · apply hc.sound h.sound fun p hp => h.pendings_issued hp
  · exact .single populated isOpen
  · intro i p hp
    cases hp
  · exact fun x hx => hissued (h.issued x hx)
  · exact fun x hx => hissued (h.foundIssued x hx)
  · exact fun t ht => hissued (h.asideIssued t ht)
  · apply h.nodup
  · apply h.foundNodup
  · apply h.apart
  · intro x hx hsearching
    rw [hc.isFinished]
    apply h.unfinished x hx hsearching
  · apply h.unfound
  · intro x hx hsearching
    rcases h.wanted_of_cancels hc hx hsearching with hcancelled | ⟨hlt, -⟩
    · exact .inl hcancelled
    · exact absurd hlt (Nat.not_lt_zero _)

/-- Column 0 changes and what stands there keeps standing. -/
theorem changeRoots {slot slot' : Slot} {rest : List Slot}
    (h : Orderly (slot :: rest) c standing found tasks aside)
    (populated : slot'.column.state = .populated) (holds : ∀ p, slot.Holds p → slot'.Holds p)
    (isOpen : slot.IsOpen → slot'.IsOpen) :
  Orderly (slot' :: rest) c standing found tasks aside
  :=
  { h with
    lined := h.lined.changeRoots populated holds isOpen
    filled := h.filled }

/-- The next handle is not cancelled when expansions are. -/
theorem uncancelled_next (h : Orderly slots c standing found tasks aside) {index : Nat}
    (hc : Searches.Cancels (pendings (slots.drop index)) { c with signals := c.signals.fresh.2 } c') :
  c'.isCancelled (.root c.signals.next) = false
  := by
  rw [Bool.eq_false_iff]
  intro hcancelled
  rcases hc.only _ hcancelled with hbefore | ⟨p, hp, -, hcovers | ⟨u, hu, hcovers⟩⟩
  · apply Nat.lt_irrefl _ (h.sound.cancelled _ hbefore)
  · rw [Token.covers_root_iff] at hcovers
    apply c.not_issued_next (hcovers ▸ h.pendings_issued hp)
  · rw [Token.covers_root_iff] at hcovers
    apply h.sound.live _ (hcovers ▸ hu)

/-- The columns up to one in which a row is selected have the lists that were computed for the selections left
of them. -/
theorem filled_select (h : Orderly slots c standing found tasks aside) {column row i : Nat} {slot : Slot}
    {node : Node} {p : Pending} (hslot : slots[column]? = some slot)
    (hnode : slot.column.nodes[row]? = some node) (hi : i < column) (hp : standing[i]? = some p)
    (rest : List Slot) (pending : Option Pending) :
  ∃ slot', (slots.take column ++ ⟨{ slot.column with selected := some row }, pending⟩ :: rest)[i + 1]? =
      some slot' ∧ slot'.column.state = .populated ∧ (p.handle, slot'.column.nodes) ∈ found
  := by
  have hle : column ≤ slots.length := Nat.le_of_lt (List.getElem?_eq_some_iff.mp hslot).1
  rcases Nat.lt_or_eq_of_le hi with hi | rfl
  · obtain ⟨slot', hslot', -⟩ := h.filled i p hp
    rw [getElem?_cut_of_lt _ hi hle]
    rcases h.lined.holds_or_isOpen hslot' with ⟨q, -, hholds⟩ | ⟨hlast, -⟩
    · exact ⟨slot', hslot', hholds.populated, h.mem_found hp hslot' hholds.populated⟩
    · have hlt : column < slots.length := (List.getElem?_eq_some_iff.mp hslot).1
      rw [h.lined.length] at hlt
      omega
  · have hpopulated := h.lined.populated_of_row hslot hnode
    refine ⟨_, getElem?_cut_add _ hle 0, hpopulated, ?_⟩
    apply h.mem_found hp hslot hpopulated

/-- A row is selected, and its expansion is added to those that are not finished. -/
theorem select (h : Orderly slots c standing found tasks aside) {column row : Nat} {slot : Slot}
    {node : Node} (hslot : slots[column]? = some slot) (hnode : slot.column.nodes[row]? = some node)
    (hc : Searches.Cancels (pendings (slots.drop column)) { c with signals := c.signals.fresh.2 } c')
    (search : Search (List Node)) :
  Orderly
    (slots.take column ++
      [⟨{ slot.column with selected := some row }, some ⟨.root c.signals.next, node⟩⟩, .populating])
    c' (standing.take column ++ [⟨.root c.signals.next, node⟩]) found
    ((.root c.signals.next, ⟨column, .searching search⟩) :: tasks) aside
  := by
  have hspares := c.spares_fresh
  have hfresh : Orderly slots { c with signals := c.signals.fresh.2 } standing found tasks aside :=
    h.confine (.ofSpares hspares)
  have hissued : ∀ {t}, c.Issued t → c'.Issued t :=
    fun ht => (ht.mono hspares.next).mono (Nat.le_of_eq hc.next.symm)
  have hnew : c'.Issued (.root c.signals.next) :=
    ⟨c.signals.next, by rw [hc.next]; exact Nat.lt_succ_self _, rfl⟩
  have hslots : column < slots.length := (List.getElem?_eq_some_iff.mp hslot).1
  have hstanding : column ≤ standing.length := by
    rw [h.lined.length] at hslots
    apply Nat.lt_succ_iff.mp hslots
  have hselected : (standing.take column ++ [⟨.root c.signals.next, node⟩])[column]? =
      some ⟨.root c.signals.next, node⟩ :=
    getElem?_cut_add _ hstanding 0
  constructor
  case sound => apply hc.sound hfresh.sound fun p hp => hfresh.pendings_issued hp
  case lined => apply h.lined.select hslot hnode ⟨.root c.signals.next, node⟩ rfl
  case filled =>
    intro i p hp
    rcases Nat.lt_or_ge i column with hi | hi
    · rw [getElem?_cut_of_lt _ hi hstanding] at hp
      obtain ⟨slot', hslot', hpopulated, hfound⟩ := h.filled_select hslot hnode hi hp [.populating] _
      exact ⟨slot', hslot', .filled hpopulated hfound⟩
    · obtain ⟨k, rfl⟩ := Nat.exists_eq_add_of_le hi
      rw [getElem?_cut_add _ hstanding] at hp
      cases k with
      | zero =>
          obtain rfl := Option.some.inj hp
          refine ⟨.populating, getElem?_cut_add _ (Nat.le_of_lt hslots) 1, ?_⟩
          exact .waiting _ rfl List.mem_cons_self rfl ⟨search, rfl⟩ (h.uncancelled_next hc)
      | succ k => cases hp
  case issued =>
    intro x hx
    rcases List.mem_cons.mp hx with rfl | hx
    · apply hnew
    · apply hissued (h.issued x hx)
  case foundIssued => exact fun x hx => hissued (h.foundIssued x hx)
  case asideIssued => exact fun t ht => hissued (h.asideIssued t ht)
  case nodup => apply List.nodup_cons.mpr ⟨Searches.next_not_mem_map h.issued, h.nodup⟩
  case foundNodup => apply h.foundNodup
  case apart =>
    intro x hx
    rcases List.mem_cons.mp hx with rfl | hx
    · exact fun haside => c.not_issued_next (h.asideIssued _ haside)
    · apply h.apart x hx
  case unfinished =>
    intro x hx hsearching
    rw [hc.isFinished]
    rcases List.mem_cons.mp hx with rfl | hx
    · rw [Bool.eq_false_iff]
      intro hfinished
      apply Nat.lt_irrefl _ (h.sound.finished _ hfinished)
    · apply h.unfinished x hx hsearching
  case unfound =>
    intro x hx hsearching
    rcases List.mem_cons.mp hx with rfl | hx
    · apply Searches.next_not_mem_map h.foundIssued
    · apply h.unfound x hx hsearching
  case wanted =>
    intro x hx hsearching
    rcases List.mem_cons.mp hx with rfl | hx
    · exact .inr ⟨⟨.root c.signals.next, node⟩, hselected, rfl⟩
    · rcases hfresh.wanted_of_cancels hc hx hsearching with hcancelled | ⟨hi, p, hp, hhandle⟩
      · exact .inl hcancelled
      · refine .inr ⟨p, ?_, hhandle⟩
        rw [getElem?_cut_of_lt _ hi hstanding, hp]

end Orderly

end CallGraph
