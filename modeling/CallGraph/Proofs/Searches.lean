import CallGraph.Proofs.Signals
import Mathlib.Data.List.Induction
import Mathlib.Data.List.Nodup

/-!
# The account of the searches under way

Callers make tokens and cancel them, searches are begun and ended in any order, and now and then all of them are
cancelled.  Whatever is done, the searches under way are those that were begun and not ended, and the token of a search
is cancelled exactly when that of its caller is or when all searches were cancelled before it ended.  `Accounts` is the
invariant: it says what a `Register` is by what was done so far.
-/

namespace CallGraph

/-! ### What is done -/

/-- What may be done with the searches under way and the tokens of their callers. -/
inductive Deed where
  /-- A caller makes a token. -/
  | make
  /-- A caller makes a token below one of its own. -/
  | makeBelow (upper : Token)
  | enter (caller : Token)
  | leave (search : Token)
  /-- A caller cancels a token of its own. -/
  | cancel (t : Token)
  | cancelAll
  deriving DecidableEq

/-- The searches after a deed. -/
def Searches.act (c : Searches) : Deed → Searches
  | .make => { c with signals := c.signals.fresh.2 }
  | .makeBelow upper => { c with signals := (c.signals.freshBelow upper).2 }
  | .enter caller => (c.enter caller).2
  | .leave search => c.leave search
  | .cancel t => c.cancel t
  | .cancelAll => c.cancelAll

/-- The searches after one deed after the other. -/
def Searches.acts (c : Searches) (deeds : List Deed) : Searches :=
  deeds.foldl act c

/-- A search that was begun, and who for. -/
structure Guard where
  search : Token
  caller : Token
  deriving DecidableEq

/-- The searches under way, the tokens that callers made, and the guards of all searches that were begun. -/
structure Register where
  searches : Searches := {}
  made : List Token := []
  guards : List Guard := []

namespace Register

/-- The tokens that a search may be begun for: those of callers, and those of other searches. -/
def known (r : Register) : List Token :=
  r.made ++ r.guards.map Guard.search

/-- What may be done next.  A guard is given up by whoever has it, and callers cancel no tokens but their own. -/
def Allows (r : Register) : Deed → Prop
  | .make | .cancelAll => True
  | .makeBelow upper => upper ∈ r.made
  | .enter caller => caller ∈ r.known
  | .leave search => search ∈ r.guards.map Guard.search
  | .cancel t => t ∈ r.made

instance (r : Register) : (d : Deed) → Decidable (r.Allows d)
  | .make | .cancelAll => .isTrue trivial
  | .makeBelow upper => inferInstanceAs (Decidable (upper ∈ r.made))
  | .enter caller => inferInstanceAs (Decidable (caller ∈ r.known))
  | .leave search => inferInstanceAs (Decidable (search ∈ r.guards.map Guard.search))
  | .cancel t => inferInstanceAs (Decidable (t ∈ r.made))

/-- The register after a deed. -/
def act (r : Register) (d : Deed) : Register where
  searches := r.searches.act d
  made :=
    match d with
    | .make => r.searches.signals.fresh.1 :: r.made
    | .makeBelow upper => (r.searches.signals.freshBelow upper).1 :: r.made
    | _ => r.made
  guards :=
    match d with
    | .enter caller => r.guards ++ [⟨(r.searches.enter caller).1, caller⟩]
    | _ => r.guards

/-- What a register is after deeds that were allowed, in order. -/
inductive Reached : List Deed → Register → Prop
  | start : Reached [] {}
  | deed {deeds : List Deed} {r : Register} {d : Deed} (h : Reached deeds r) (hd : r.Allows d) :
    Reached (deeds ++ [d]) (r.act d)

/-- All searches were cancelled at a time when a search had begun and not ended. -/
def WasSwept (deeds : List Deed) (g : Guard) : Prop :=
  ∃ before after r, deeds = before ++ .cancelAll :: after ∧ Reached before r ∧ g ∈ r.guards ∧
    .leave g.search ∉ before

end Register

/-! ### Tokens given out -/

/-- A token that was given out, as were those above it, before a number. -/
def Token.IsBefore (next : Nat) : Token → Prop
  | .root number => number < next
  | .under upper number => upper.IsBefore next ∧ number < next

namespace Token

theorem IsBefore.mono {m n : Nat} {t : Token} (h : t.IsBefore m) (hle : m ≤ n) :
  t.IsBefore n
  := by
  induction t with
  | root number => exact Nat.lt_of_lt_of_le h hle
  | under upper number ih => exact ⟨ih h.1, Nat.lt_of_lt_of_le h.2 hle⟩

/-- What covers a token was given out before it. -/
theorem Covers.isBefore {next : Nat} {t u : Token} (h : t.Covers u) (hu : u.IsBefore next) :
  t.IsBefore next
  := by
  induction u with
  | root number =>
    cases h
    exact hu
  | under upper number ih =>
    rcases h with rfl | h
    · exact hu
    · exact ih h hu.1

theorem not_isBefore_under (upper : Token) (next : Nat) :
  ¬ (under upper next).IsBefore next
  :=
  fun h => Nat.lt_irrefl _ h.2

end Token

/-- Cancelling several tokens adds them to the record. -/
theorem Signals.mem_cancelled_foldl_cancel (s : Signals) (ts : List Token) (t : Token) :
  t ∈ (ts.foldl cancel s).cancelled ↔ t ∈ ts ∨ t ∈ s.cancelled
  := by
  induction ts generalizing s with
  | nil => simp
  | cons u ts ih => rw [List.foldl_cons, ih, mem_cancelled_cancel, List.mem_cons, or_left_comm, or_assoc]

namespace Searches

theorem next_act (c : Searches) (d : Deed) :
  (c.act d).signals.next =
    match d with
    | .make | .makeBelow _ | .enter _ => c.signals.next + 1
    | _ => c.signals.next
  := by
  cases d with
  | cancel t => exact Signals.next_cancel _ _
  | cancelAll => exact Signals.next_foldl_cancel _ _
  | _ => rfl

theorem next_le_act (c : Searches) (d : Deed) :
  c.signals.next ≤ (c.act d).signals.next
  := by
  rw [next_act]
  split <;> omega

theorem mem_cancelled_act (c : Searches) (d : Deed) (t : Token) :
  t ∈ (c.act d).signals.cancelled ↔ t ∈ c.signals.cancelled ∨ d = .cancel t ∨ d = .cancelAll ∧ t ∈ c.live
  := by
  cases d with
  | cancel u =>
    rw [act, cancel, Signals.mem_cancelled_cancel]
    simp [or_comm, eq_comm]
  | cancelAll =>
    rw [act, cancelAll, Signals.mem_cancelled_foldl_cancel]
    simp [or_comm]
  | _ => simp [act, enter, leave, Signals.fresh, Signals.freshBelow]

end Searches

/-! ### The account -/

namespace Register

variable {deeds : List Deed} {r : Register} {d : Deed}

/-- What the deeds so far say of a register. -/
structure Accounts (deeds : List Deed) (r : Register) : Prop where
  before : ∀ t ∈ r.known, t.IsBefore r.searches.signals.next
  below : ∀ g ∈ r.guards, ∃ number, g.search = .under g.caller number
  distinct : (r.guards.map Guard.search).Nodup
  apart : ∀ g ∈ r.guards, ∀ t ∈ r.made, ¬ g.search.Covers t
  stopped : ∀ t, .cancel t ∈ deeds → t ∈ r.made
  ended : ∀ t, .leave t ∈ deeds → t ∈ r.guards.map Guard.search
  live : r.searches.live = (r.guards.map Guard.search).filter (.leave · ∉ deeds)
  cancelled : ∀ t, t ∈ r.searches.signals.cancelled ↔ .cancel t ∈ deeds ∨ ∃ g, WasSwept deeds g ∧ g.search = t

theorem mem_guards_act_of_mem {g : Guard} (h : g ∈ r.guards) (d : Deed) :
  g ∈ (r.act d).guards
  := by
  cases d with
  | enter caller => exact List.mem_append_left _ h
  | _ => exact h

theorem mem_made_act_of_mem {t : Token} (h : t ∈ r.made) (d : Deed) :
  t ∈ (r.act d).made
  := by
  cases d with
  | make | makeBelow upper => exact List.mem_cons_of_mem _ h
  | _ => exact h

/-- The deeds say what the register is. -/
theorem Reached.eq_foldl (h : Reached deeds r) :
  r = deeds.foldl Register.act {}
  := by
  induction h with
  | start => rfl
  | deed h hd ih => rw [List.foldl_append, ← ih, List.foldl_cons, List.foldl_nil]

theorem Reached.unique {r' : Register} (h : Reached deeds r) (h' : Reached deeds r') :
  r = r'
  :=
  h.eq_foldl.trans h'.eq_foldl.symm

/-- Guards are never forgotten. -/
theorem Reached.mem_guards {before after : List Deed} {r' : Register} {g : Guard} (h : Reached before r)
    (h' : Reached (before ++ after) r') (hg : g ∈ r.guards) :
  g ∈ r'.guards
  := by
  have hr' : r' = after.foldl Register.act r := by rw [h'.eq_foldl, List.foldl_append, ← h.eq_foldl]
  rw [hr']
  clear hr' h h'
  induction after generalizing r with
  | nil => exact hg
  | cons d after ih => exact ih (mem_guards_act_of_mem hg d)

theorem Reached.mem_guards_of_wasSwept {g : Guard} (h : Reached deeds r) (hg : WasSwept deeds g) :
  g ∈ r.guards
  := by
  obtain ⟨before, after, r₀, rfl, hr₀, hmem, -⟩ := hg
  exact hr₀.mem_guards h hmem

/-- One more deed sweeps the guards held if it cancels all searches. -/
theorem Reached.wasSwept_concat_iff {g : Guard} (h : Reached deeds r) :
  WasSwept (deeds ++ [d]) g ↔ WasSwept deeds g ∨ d = .cancelAll ∧ g ∈ r.guards ∧ .leave g.search ∉ deeds
  := by
  constructor
  · rintro ⟨before, after, r₀, heq, hr₀, hg, hheld⟩
    cases after using List.reverseRecOn with
    | nil =>
      obtain ⟨rfl, hd⟩ := List.append_inj' heq rfl
      obtain ⟨rfl, -⟩ := List.cons.inj hd
      cases h.unique hr₀
      exact .inr ⟨rfl, hg, hheld⟩
    | append_singleton after last =>
      rw [← List.cons_append, ← List.append_assoc] at heq
      obtain ⟨rfl, -⟩ := List.append_inj' heq rfl
      exact .inl ⟨before, after, r₀, rfl, hr₀, hg, hheld⟩
  · rintro (⟨before, after, r₀, rfl, hr₀, hg, hheld⟩ | ⟨rfl, hg, hheld⟩)
    · exact ⟨before, after ++ [d], r₀, by rw [List.append_assoc, List.cons_append], hr₀, hg, hheld⟩
    · exact ⟨deeds, [], r, rfl, h, hg, hheld⟩

namespace Accounts

theorem mem_known_of_made {t : Token} (h : t ∈ r.made) :
  t ∈ r.known
  :=
  List.mem_append_left _ h

/-- The token of the next search is none that is known. -/
theorem under_next_not_mem (h : Accounts deeds r) (upper : Token) :
  .under upper r.searches.signals.next ∉ r.known
  :=
  fun hmem => Token.not_isBefore_under _ _ (h.before _ hmem)

theorem before_act (h : Accounts deeds r) (hd : r.Allows d) :
  ∀ t ∈ (r.act d).known, t.IsBefore (r.act d).searches.signals.next
  := by
  have hold : ∀ t ∈ r.known, t.IsBefore (r.act d).searches.signals.next :=
    fun t ht => (h.before t ht).mono (r.searches.next_le_act d)
  intro t ht
  cases d with
  | make =>
    rcases List.mem_cons.mp ht with rfl | ht
    · exact Nat.lt_succ_self _
    · exact hold t ht
  | makeBelow upper =>
    rcases List.mem_cons.mp ht with rfl | ht
    · exact ⟨hold upper (mem_known_of_made hd), Nat.lt_succ_self _⟩
    · exact hold t ht
  | enter caller =>
    rw [known, act, List.map_append, ← List.append_assoc] at ht
    rcases List.mem_append.mp ht with ht | ht
    · exact hold t ht
    · cases List.mem_singleton.mp ht
      exact ⟨hold caller hd, Nat.lt_succ_self _⟩
  | _ => exact hold t ht

theorem below_act (h : Accounts deeds r) (d : Deed) :
  ∀ g ∈ (r.act d).guards, ∃ number, g.search = .under g.caller number
  := by
  intro g hg
  cases d with
  | enter caller =>
    rcases List.mem_append.mp hg with hg | hg
    · exact h.below g hg
    · cases List.mem_singleton.mp hg
      exact ⟨_, rfl⟩
  | _ => exact h.below g hg

theorem distinct_act (h : Accounts deeds r) (d : Deed) :
  ((r.act d).guards.map Guard.search).Nodup
  := by
  cases d with
  | enter caller =>
    rw [act, List.map_append, List.nodup_append]
    refine ⟨h.distinct, List.pairwise_singleton _ _, ?_⟩
    rintro t ht _ hnew rfl
    cases List.mem_singleton.mp hnew
    exact h.under_next_not_mem caller (List.mem_append_right _ ht)
  | _ => exact h.distinct

theorem apart_act (h : Accounts deeds r) (hd : r.Allows d) :
  ∀ g ∈ (r.act d).guards, ∀ t ∈ (r.act d).made, ¬ g.search.Covers t
  := by
  intro g hg t ht hcovers
  have hbefore : ∀ g ∈ r.guards, g.search.IsBefore r.searches.signals.next :=
    fun g hg => h.before _ (List.mem_append_right _ (List.mem_map_of_mem hg))
  cases d with
  | make =>
    rcases List.mem_cons.mp ht with rfl | ht
    · exact Nat.lt_irrefl _ (Token.covers_root_iff.mp hcovers ▸ hbefore g hg)
    · exact h.apart g hg t ht hcovers
  | makeBelow upper =>
    rcases List.mem_cons.mp ht with rfl | ht
    · rcases hcovers with heq | hcovers
      · exact Token.not_isBefore_under _ _ (heq ▸ hbefore g hg)
      · exact h.apart g hg upper hd hcovers
    · exact h.apart g hg t ht hcovers
  | enter caller =>
    rcases List.mem_append.mp hg with hg | hg
    · exact h.apart g hg t ht hcovers
    · cases List.mem_singleton.mp hg
      exact Token.not_isBefore_under _ _ (hcovers.isBefore (h.before t (mem_known_of_made ht)))
  | _ => exact h.apart g hg t ht hcovers

theorem stopped_act (h : Accounts deeds r) (hd : r.Allows d) :
  ∀ t, .cancel t ∈ deeds ++ [d] → t ∈ (r.act d).made
  := by
  intro t ht
  rcases List.mem_append.mp ht with ht | ht
  · exact mem_made_act_of_mem (h.stopped t ht) d
  · cases List.mem_singleton.mp ht
    exact hd

theorem ended_act (h : Accounts deeds r) (hd : r.Allows d) :
  ∀ t, .leave t ∈ deeds ++ [d] → t ∈ (r.act d).guards.map Guard.search
  := by
  intro t ht
  rcases List.mem_append.mp ht with ht | ht
  · obtain ⟨g, hg, rfl⟩ := List.mem_map.mp (h.ended t ht)
    exact List.mem_map_of_mem (mem_guards_act_of_mem hg d)
  · cases List.mem_singleton.mp ht
    exact hd

theorem live_act (h : Accounts deeds r) (d : Deed) :
  (r.act d).searches.live = ((r.act d).guards.map Guard.search).filter (.leave · ∉ deeds ++ [d])
  := by
  cases d with
  | enter caller =>
    have hnew : Deed.leave (.under caller r.searches.signals.next) ∉ deeds :=
      fun hmem => h.under_next_not_mem caller (List.mem_append_right _ (h.ended _ hmem))
    simp [act, Searches.act, Searches.enter, Signals.freshBelow, h.live, hnew]
  | leave search =>
    have hleft : (r.act (.leave search)).searches.live = r.searches.live.filter (· != search) := rfl
    rw [hleft, h.live, List.filter_filter]
    refine List.filter_congr fun t _ => ?_
    rw [Bool.eq_iff_iff]
    simp [and_comm]
  | _ =>
    refine h.live.trans (List.filter_congr fun t _ => ?_)
    simp

theorem cancelled_act (h : Accounts deeds r) (hr : Reached deeds r) (d : Deed) (t : Token) :
  t ∈ (r.act d).searches.signals.cancelled ↔
    .cancel t ∈ deeds ++ [d] ∨ ∃ g, WasSwept (deeds ++ [d]) g ∧ g.search = t
  := by
  have hcancelled : t ∈ (r.act d).searches.signals.cancelled ↔ _ := r.searches.mem_cancelled_act d t
  have hlive : t ∈ r.searches.live ↔ ∃ g, (g ∈ r.guards ∧ .leave g.search ∉ deeds) ∧ g.search = t := by
    rw [h.live, List.mem_filter, List.mem_map, decide_eq_true_eq]
    constructor
    · rintro ⟨⟨g, hg, rfl⟩, hheld⟩
      exact ⟨g, ⟨hg, hheld⟩, rfl⟩
    · rintro ⟨g, ⟨hg, hheld⟩, rfl⟩
      exact ⟨⟨g, hg, rfl⟩, hheld⟩
  rw [hcancelled, h.cancelled, hlive, List.mem_append, List.mem_singleton]
  simp only [hr.wasSwept_concat_iff, or_and_right, exists_or, and_assoc, exists_and_left]
  constructor
  · rintro ((hmem | hswept) | rfl | hall)
    · exact .inl (.inl hmem)
    · exact .inr (.inl hswept)
    · exact .inl (.inr rfl)
    · exact .inr (.inr hall)
  · rintro ((hmem | heq) | hswept | hall)
    · exact .inl (.inl hmem)
    · exact .inr (.inl heq.symm)
    · exact .inl (.inr hswept)
    · exact .inr (.inr hall)

theorem act (h : Accounts deeds r) (hr : Reached deeds r) (hd : r.Allows d) :
  Accounts (deeds ++ [d]) (r.act d)
  where
  before := h.before_act hd
  below := h.below_act d
  distinct := h.distinct_act d
  apart := h.apart_act hd
  stopped := h.stopped_act hd
  ended := h.ended_act hd
  live := h.live_act d
  cancelled := h.cancelled_act hr d

end Accounts

/-- Whatever was done, the register is what the deeds say. -/
theorem Reached.accounts (h : Reached deeds r) :
  Accounts deeds r
  := by
  induction h with
  | start =>
    constructor
    case distinct => exact List.nodup_nil
    case live => rfl
    case cancelled =>
      intro t
      refine iff_of_false nofun ?_
      rintro (hmem | ⟨g, ⟨before, after, _, heq, -⟩, -⟩)
      · cases hmem
      · exact List.append_ne_nil_of_right_ne_nil _ (List.cons_ne_nil _ _) heq.symm
    all_goals exact nofun
  | deed h hd ih => exact ih.act h hd

/-- As many searches are under way as have begun and not ended. -/
theorem Accounts.inFlight (h : Accounts deeds r) :
  r.searches.inFlight = (r.guards.filter fun g => .leave g.search ∉ deeds).length
  := by
  rw [Searches.inFlight, h.live, List.filter_map, List.length_map]
  rfl

/-- No token that a caller cancelled is that of a search, so only a sweep cancels a search without its caller. -/
theorem Accounts.isCancelled_search (h : Accounts deeds r) (hr : Reached deeds r) {g : Guard} (hg : g ∈ r.guards) :
  r.searches.isCancelled g.search = true ↔ r.searches.isCancelled g.caller = true ∨ WasSwept deeds g
  := by
  have hrecord : g.search ∈ r.searches.signals.cancelled ↔ WasSwept deeds g := by
    rw [h.cancelled]
    constructor
    · rintro (hstopped | ⟨g', hswept, heq⟩)
      · exact absurd g.search.covers_self (h.apart g hg _ (h.stopped _ hstopped))
      · rwa [← List.inj_on_of_nodup_map h.distinct (hr.mem_guards_of_wasSwept hswept) hg heq]
    · exact fun hswept => .inr ⟨g, hswept, rfl⟩
  obtain ⟨number, hsearch⟩ := h.below g hg
  rw [← hrecord, or_comm, hsearch, Searches.isCancelled, Signals.isCancelled, Bool.or_eq_true, List.contains_iff_mem]
  rfl

/-- The token of a caller is cancelled by callers alone. -/
theorem Accounts.isCancelled_made (h : Accounts deeds r) (hr : Reached deeds r) {t : Token} (ht : t ∈ r.made) :
  r.searches.isCancelled t = true ↔ ∃ u, .cancel u ∈ deeds ∧ u.Covers t
  := by
  rw [Searches.isCancelled, Signals.isCancelled_iff]
  refine exists_congr fun u => and_congr_left fun hcovers => ?_
  rw [h.cancelled, or_iff_left]
  rintro ⟨g, hswept, rfl⟩
  exact h.apart g (hr.mem_guards_of_wasSwept hswept) t ht hcovers

/-- Cancelling all searches cancels no token of a caller. -/
theorem Reached.isCancelled_cancelAll (h : Reached deeds r) {t : Token} (ht : t ∈ r.made) :
  r.searches.cancelAll.isCancelled t = r.searches.isCancelled t
  := by
  have hafter : Reached (deeds ++ [.cancelAll]) (r.act .cancelAll) := h.deed trivial
  have hcancelled : r.searches.cancelAll.isCancelled t = true ↔ _ := hafter.accounts.isCancelled_made hafter ht
  rw [Bool.eq_iff_iff, hcancelled, h.accounts.isCancelled_made h ht]
  simp

/-- A search that began after all searches were cancelled for the last time is cancelled with its caller only. -/
theorem Reached.isCancelled_later {later : List Deed} {r' : Register} {g : Guard} (h : Reached deeds r)
    (h' : Reached (deeds ++ .cancelAll :: later) r') (hlater : .cancelAll ∉ later) (hg : g ∈ r'.guards)
    (hnew : g ∉ r.guards) :
  r'.searches.isCancelled g.search = r'.searches.isCancelled g.caller
  := by
  rw [Bool.eq_iff_iff, h'.accounts.isCancelled_search h' hg, or_iff_left]
  rintro ⟨before, after, r₀, heq, hr₀, hmem, -⟩
  rcases List.append_eq_append_iff.mp heq with ⟨middle, rfl, hmiddle⟩ | ⟨middle, rfl, -⟩
  · cases middle with
    | nil =>
      rw [List.append_nil] at hr₀
      exact hnew (h.unique hr₀ ▸ hmem)
    | cons d middle =>
      obtain ⟨-, rfl⟩ := List.cons.inj hmiddle
      exact hlater (List.mem_append_right _ List.mem_cons_self)
  · exact hnew (hr₀.mem_guards h hmem)

end Register

end CallGraph
