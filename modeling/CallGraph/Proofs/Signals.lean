import CallGraph.Searches
import Mathlib.Data.List.Basic

/-!
# What signals and searches record

Which tokens are cancelled and finished after each change of the signals and of the list of searches under
way.  A token is cancelled when one that covers it was; the records only grow, and every change names the
tokens it may touch.
-/

namespace CallGraph

/-- Whether a token is another one or above it. -/
def Token.Covers (t : Token) : Token → Prop
  | .root number => t = .root number
  | .under upper number => t = .under upper number ∨ t.Covers upper

namespace Token

/-- A token covers itself. -/
theorem covers_self (t : Token) :
  t.Covers t
  := by
  cases t with
  | root number => rfl
  | under upper number => exact .inl rfl

/-- Covering is transitive. -/
theorem Covers.trans {t u v : Token} (htu : t.Covers u) (huv : u.Covers v) :
  t.Covers v
  := by
  induction v with
  | root number =>
      cases huv
      apply htu
  | under upper number ih =>
      rcases huv with rfl | huv
      · apply htu
      · exact .inr (ih huv)

/-- Only a root covers a root. -/
theorem covers_root_iff {t : Token} {number : Nat} :
  t.Covers (.root number) ↔ t = .root number
  :=
  Iff.rfl

/-- A token lies below one root only. -/
theorem root_unique {m n : Nat} {t : Token} (hm : (root m).Covers t) (hn : (root n).Covers t) :
  m = n
  := by
  induction t with
  | root number =>
      cases hm
      cases hn
      rfl
  | under upper number ih =>
      rcases hm with heq | hm
      · cases heq
      · rcases hn with heq | hn
        · cases heq
        · apply ih hm hn

end Token

namespace Signals

variable (s : Signals)

/-! ### Cancellation -/

/-- A token is cancelled when a token that covers it was. -/
theorem isCancelled_iff (t : Token) :
  s.isCancelled t ↔ ∃ u ∈ s.cancelled, u.Covers t
  := by
  induction t with
  | root number => simp [isCancelled, Token.Covers]
  | under upper number ih =>
      simp only [isCancelled, Bool.or_eq_true, List.contains_iff_mem, ih, Token.Covers]
      constructor
      · rintro (h | ⟨u, hu, hcovers⟩)
        · exact ⟨_, h, .inl rfl⟩
        · exact ⟨u, hu, .inr hcovers⟩
      · rintro ⟨u, hu, rfl | hcovers⟩
        · exact .inl hu
        · exact .inr ⟨u, hu, hcovers⟩

/-- Only the record of cancelled tokens matters. -/
theorem isCancelled_congr {s s' : Signals} (h : s'.cancelled = s.cancelled) (t : Token) :
  s'.isCancelled t = s.isCancelled t
  := by
  rw [Bool.eq_iff_iff, isCancelled_iff, isCancelled_iff, h]

/-- A new token cancels nothing. -/
theorem isCancelled_fresh (t : Token) :
  s.fresh.2.isCancelled t = s.isCancelled t
  := by
  have hcancelled : s.fresh.2.cancelled = s.cancelled := rfl
  apply isCancelled_congr hcancelled t

/-- The record of cancelled tokens after another one. -/
theorem mem_cancelled_cancel (t u : Token) :
  u ∈ (s.cancel t).cancelled ↔ u = t ∨ u ∈ s.cancelled
  := by
  rw [cancel]
  split
  case isTrue h =>
    constructor
    · exact .inr
    · rintro (rfl | hu)
      · apply h
      · apply hu
  case isFalse h => apply List.mem_cons

/-- Cancelling a token cancels what it covers. -/
theorem isCancelled_cancel (t u : Token) :
  (s.cancel t).isCancelled u ↔ t.Covers u ∨ s.isCancelled u
  := by
  simp [isCancelled_iff, mem_cancelled_cancel]

/-- Cancelling several tokens cancels what they cover. -/
theorem isCancelled_foldl_cancel (ts : List Token) (u : Token) :
  (ts.foldl cancel s).isCancelled u ↔ (∃ t ∈ ts, t.Covers u) ∨ s.isCancelled u
  := by
  induction ts generalizing s with
  | nil => simp
  | cons t ts ih =>
      rw [List.foldl_cons, ih, isCancelled_cancel, ← or_assoc]
      apply or_congr_left
      simp only [List.mem_cons, exists_eq_or_imp]
      apply or_comm

@[simp] theorem finished_cancel (t : Token) :
  (s.cancel t).finished = s.finished
  := by
  rw [cancel]
  split <;> rfl

@[simp] theorem next_cancel (t : Token) :
  (s.cancel t).next = s.next
  := by
  rw [cancel]
  split <;> rfl

@[simp] theorem finished_foldl_cancel (ts : List Token) :
  (ts.foldl cancel s).finished = s.finished
  := by
  induction ts generalizing s with
  | nil => rfl
  | cons t ts ih => rw [List.foldl_cons, ih, finished_cancel]

@[simp] theorem next_foldl_cancel (ts : List Token) :
  (ts.foldl cancel s).next = s.next
  := by
  induction ts generalizing s with
  | nil => rfl
  | cons t ts ih => rw [List.foldl_cons, ih, next_cancel]

/-! ### Completion -/

theorem isFinished_iff (t : Token) :
  s.isFinished t ↔ t ∈ s.finished
  :=
  List.contains_iff_mem

/-- The finished tokens after another one. -/
theorem isFinished_finish (t u : Token) :
  (s.finish t).isFinished u ↔ u = t ∨ s.isFinished u
  := by
  simp only [isFinished_iff, finish]
  split
  case isTrue h =>
    constructor
    · exact .inr
    · rintro (rfl | hu)
      · apply h
      · apply hu
  case isFalse h => apply List.mem_cons

@[simp] theorem cancelled_finish (t : Token) :
  (s.finish t).cancelled = s.cancelled
  := by
  rw [finish]
  split <;> rfl

@[simp] theorem next_finish (t : Token) :
  (s.finish t).next = s.next
  := by
  rw [finish]
  split <;> rfl

/-- Finishing a task cancels nothing. -/
@[simp] theorem isCancelled_finish (t u : Token) :
  (s.finish t).isCancelled u = s.isCancelled u
  :=
  isCancelled_congr (s.cancelled_finish t) u

end Signals

namespace Searches

variable (c : Searches)

/-! ### The searches under way -/

/-- Cancelling all searches cancels what covers or is covered by a search under way. -/
theorem isCancelled_cancelAll (t : Token) :
  c.cancelAll.isCancelled t ↔ (∃ u ∈ c.live, u.Covers t) ∨ c.isCancelled t
  :=
  c.signals.isCancelled_foldl_cancel c.live t

theorem isCancelled_cancel (t u : Token) :
  (c.cancel t).isCancelled u ↔ t.Covers u ∨ c.isCancelled u
  :=
  c.signals.isCancelled_cancel t u

end Searches

/-! ### Changes that leave handles alone -/

/-- A change of the searches that neither cancels nor finishes a root, makes no root a search under way and
takes no number back.  The handles of tasks are roots. -/
structure Searches.Spares (c c' : Searches) : Prop where
  cancelled : ∀ k, c'.isCancelled (.root k) = c.isCancelled (.root k)
  finished : ∀ k, c'.signals.isFinished (.root k) = c.signals.isFinished (.root k)
  next : c.signals.next ≤ c'.signals.next
  live : ∀ k, .root k ∈ c'.live → .root k ∈ c.live

/-- Searches in which every root that was cancelled or finished has a number already given out, and no root
is itself under way. -/
structure Searches.Sound (c : Searches) : Prop where
  cancelled : ∀ k, c.isCancelled (.root k) → k < c.signals.next
  finished : ∀ k, c.signals.isFinished (.root k) → k < c.signals.next
  live : ∀ k, .root k ∉ c.live

namespace Searches

variable {c c' c'' : Searches}

theorem Spares.refl (c : Searches) :
  c.Spares c
  :=
  ⟨fun _ => rfl, fun _ => rfl, Nat.le_refl _, fun _ => id⟩

theorem Spares.trans (h : c.Spares c') (h' : c'.Spares c'') :
  c.Spares c''
  where
  cancelled k := (h'.cancelled k).trans (h.cancelled k)
  finished k := (h'.finished k).trans (h.finished k)
  next := Nat.le_trans h.next h'.next
  live k hk := h.live k (h'.live k hk)

/-- Searches stay sound if no more than handles given out are cancelled or finished. -/
theorem Sound.mono (hc : c.Sound) (hnext : c.signals.next ≤ c'.signals.next)
    (hcancelled : ∀ k, c'.isCancelled (.root k) → c.isCancelled (.root k) ∨ k < c.signals.next)
    (hfinished : ∀ k, c'.signals.isFinished (.root k) → c.signals.isFinished (.root k) ∨ k < c.signals.next)
    (hlive : ∀ k, .root k ∈ c'.live → .root k ∈ c.live) :
  c'.Sound
  := by
  constructor
  · intro k hk
    rcases hcancelled k hk with hk | hk
    · apply Nat.lt_of_lt_of_le (hc.cancelled k hk) hnext
    · apply Nat.lt_of_lt_of_le hk hnext
  · intro k hk
    rcases hfinished k hk with hk | hk
    · apply Nat.lt_of_lt_of_le (hc.finished k hk) hnext
    · apply Nat.lt_of_lt_of_le hk hnext
  · exact fun k hk => hc.live k (hlive k hk)

/-- Sparing the handles keeps the searches sound. -/
theorem Sound.spare (hc : c.Sound) (h : c.Spares c') :
  c'.Sound
  := by
  apply hc.mono h.next
  · exact fun k hk => .inl (h.cancelled k ▸ hk)
  · exact fun k hk => .inl (h.finished k ▸ hk)
  · apply h.live

/-- A new token leaves the handles alone. -/
theorem spares_fresh (c : Searches) :
  c.Spares { c with signals := c.signals.fresh.2 }
  := by
  constructor
  · intro k
    rfl
  · intro k
    rfl
  · apply Nat.le_succ _
  · exact fun _ => id

/-- Beginning a search leaves the handles alone. -/
theorem spares_enter (c : Searches) (caller : Token) :
  c.Spares (c.enter caller).2
  := by
  constructor
  · intro k
    rfl
  · intro k
    rfl
  · apply Nat.le_succ _
  · intro k hk
    simpa [enter, Signals.freshBelow] using hk

/-- Ending a search leaves the handles alone. -/
theorem spares_leave (c : Searches) (search : Token) :
  c.Spares (c.leave search)
  := by
  constructor
  · intro k
    rfl
  · intro k
    rfl
  · apply Nat.le_refl _
  · intro k hk
    apply (List.mem_filter.mp hk).1

end Searches

/-! ### Changes that touch few handles -/

/-- A handle that was given out: a root with an earlier number than the next. -/
def Searches.Issued (c : Searches) (t : Token) : Prop :=
  ∃ k < c.signals.next, t = .root k

/-- A change of the searches that, among the handles given out so far, touches only those of highlights. -/
structure Searches.Confined (aside aside' : List Token) (c c' : Searches) : Prop where
  cancelled : ∀ t, c.Issued t → t ∉ aside → c'.isCancelled t = c.isCancelled t
  finished : ∀ t, c.Issued t → t ∉ aside → c'.signals.isFinished t = c.signals.isFinished t
  next : c.signals.next ≤ c'.signals.next
  sound : c.Sound → c'.Sound
  issued : (∀ t ∈ aside, c.Issued t) → ∀ t ∈ aside', c'.Issued t
  apart : ∀ t, c.Issued t → t ∉ aside → t ∉ aside'

namespace Searches

variable {c c' : Searches} {aside aside' : List Token}

/-- Handles given out stay so. -/
theorem Issued.mono {t : Token} (h : c.Issued t) (hnext : c.signals.next ≤ c'.signals.next) :
  c'.Issued t
  := by
  obtain ⟨k, hk, rfl⟩ := h
  exact ⟨k, Nat.lt_of_lt_of_le hk hnext, rfl⟩

/-- The next handle is not given out. -/
theorem not_issued_next (c : Searches) :
  ¬ c.Issued (.root c.signals.next)
  := by
  rintro ⟨k, hk, heq⟩
  cases heq
  apply Nat.lt_irrefl _ hk

/-- The next handle is none of those that were given out. -/
theorem next_not_mem_map {c : Searches} {α : Type} {l : List (Token × α)} (h : ∀ x ∈ l, c.Issued x.1) :
  .root c.signals.next ∉ l.map Prod.fst
  := by
  intro hmem
  obtain ⟨x, hx, heq⟩ := List.mem_map.mp hmem
  apply c.not_issued_next
  rw [← heq]
  apply h x hx

namespace Confined

/-- Sparing all handles. -/
theorem ofSpares (h : c.Spares c') :
  c.Confined aside aside c'
  := by
  constructor
  · rintro _ ⟨k, -, rfl⟩ -
    apply h.cancelled k
  · rintro _ ⟨k, -, rfl⟩ -
    apply h.finished k
  · apply h.next
  · exact fun hc => hc.spare h
  · exact fun haside t ht => (haside t ht).mono h.next
  · exact fun _ _ => id

end Confined

/-! ### Changes that touch only some handles -/

/-- Searches in which every token that was cancelled and every search under way lies below a handle. -/
structure Rooted (c : Searches) : Prop where
  cancelled : ∀ t, c.isCancelled t → ∃ h, c.Issued h ∧ h.Covers t
  live : ∀ t ∈ c.live, ∃ h, c.Issued h ∧ h.Covers t

/-- A change of the searches that, of what lies below the handles given out so far, touches only what lies
below those in a list, and gives out at most handles that join the list. -/
structure Touches (aside aside' : List Token) (c c' : Searches) : Prop where
  below : ∀ h, c.Issued h → h ∉ aside → ∀ t, h.Covers t → c'.isCancelled t = c.isCancelled t
  finished : ∀ t, c.Issued t → t ∉ aside → c'.signals.isFinished t = c.signals.isFinished t
  next : c.signals.next ≤ c'.signals.next
  live : c'.live = c.live
  sound : c.Sound → c'.Sound
  rooted : c.Rooted → c'.Rooted
  issued : (∀ t ∈ aside, c.Issued t) → ∀ t ∈ aside', c'.Issued t
  apart : ∀ t, c.Issued t → t ∉ aside → t ∉ aside'

/-- As long as nothing was searched for there is nothing to lie below a handle. -/
theorem Rooted.empty :
  Rooted {}
  := by
  constructor
  · intro t ht
    obtain ⟨u, hu, -⟩ := (Signals.isCancelled_iff {} t).mp ht
    cases hu
  · exact nofun

/-- Handles given out cover the same tokens later. -/
theorem Rooted.mono (h : c.Rooted) (hnext : c.signals.next ≤ c'.signals.next) (hlive : c'.live = c.live)
    (hcancelled : ∀ t, c'.isCancelled t → c.isCancelled t ∨ ∃ u, c.Issued u ∧ u.Covers t) :
  c'.Rooted
  := by
  have hissued : ∀ {t : Token}, (∃ u, c.Issued u ∧ u.Covers t) → ∃ u, c'.Issued u ∧ u.Covers t := by
    rintro t ⟨u, hu, hcovers⟩
    exact ⟨u, hu.mono hnext, hcovers⟩
  constructor
  · intro t ht
    rcases hcancelled t ht with ht | ht
    · apply hissued (h.cancelled t ht)
    · apply hissued ht
  · intro t ht
    rw [hlive] at ht
    apply hissued (h.live t ht)

namespace Touches

/-- Among the handles themselves only those in the list are touched. -/
theorem confined (h : c.Touches aside aside' c') :
  c.Confined aside aside' c'
  where
  cancelled t hissued ht := h.below t hissued ht t t.covers_self
  finished := h.finished
  next := h.next
  sound := h.sound
  issued := h.issued
  apart := h.apart

/-- Forgetting handles. -/
theorem forget (hsub : ∀ t ∈ aside', t ∈ aside) :
  c.Touches aside aside' c
  := by
  constructor
  · exact fun _ _ _ _ _ => rfl
  · exact fun _ _ _ => rfl
  · apply Nat.le_refl _
  · rfl
  · apply id
  · apply id
  · exact fun haside t ht => haside t (hsub t ht)
  · exact fun t _ ht ht' => ht (hsub t ht')

/-- Giving out a handle. -/
theorem fresh (aside : List Token) (c : Searches) :
  c.Touches aside (.root c.signals.next :: aside) { c with signals := c.signals.fresh.2 }
  := by
  have hspares := c.spares_fresh
  have hcancelled : ∀ u, ({ c with signals := c.signals.fresh.2 } : Searches).isCancelled u =
      c.isCancelled u := c.signals.isCancelled_fresh
  constructor
  · exact fun _ _ _ u _ => hcancelled u
  · exact fun _ _ _ => rfl
  · apply hspares.next
  · rfl
  · exact fun hc => hc.spare hspares
  · intro hc
    refine hc.mono hspares.next rfl fun u hu => ?_
    rw [hcancelled] at hu
    exact .inl hu
  · intro haside t ht
    rcases List.mem_cons.mp ht with rfl | ht
    · exact ⟨c.signals.next, Nat.lt_succ_self _, rfl⟩
    · apply (haside t ht).mono hspares.next
  · intro t hissued ht ht'
    rcases List.mem_cons.mp ht' with rfl | ht'
    · apply c.not_issued_next hissued
    · apply ht ht'

/-- Cancelling a handle. -/
theorem cancel {t : Token} (ht : t ∈ aside) (hissued : c.Issued t) :
  c.Touches aside aside (c.cancel t)
  := by
  have hnext : c.signals.next ≤ (c.cancel t).signals.next := Nat.le_of_eq (c.signals.next_cancel t).symm
  have hfinished : ∀ u, (c.cancel t).signals.isFinished u = c.signals.isFinished u := by
    intro u
    rw [Signals.isFinished, Signals.isFinished, Searches.cancel, Signals.finished_cancel]
  have hcancelled : ∀ u, (c.cancel t).isCancelled u → c.isCancelled u ∨ t.Covers u := by
    intro u hu
    apply ((c.isCancelled_cancel t u).mp hu).symm
  constructor
  · rintro h hh hnotMem u hcovers
    rw [Bool.eq_iff_iff, isCancelled_cancel]
    constructor
    · rintro (htcovers | hu)
      · obtain ⟨m, -, rfl⟩ := hissued
        obtain ⟨k, -, rfl⟩ := hh
        rw [Token.root_unique hcovers htcovers] at hnotMem
        exact absurd ht hnotMem
      · apply hu
    · exact .inr
  · exact fun u _ _ => hfinished u
  · apply hnext
  · rfl
  · intro hc
    apply hc.mono hnext
    · intro k hk
      apply (hcancelled _ hk).imp id
      intro hcovers
      obtain ⟨m, hm, rfl⟩ := hissued
      obtain ⟨rfl⟩ := Token.covers_root_iff.mp hcovers
      apply hm
    · intro k hk
      rw [hfinished] at hk
      exact .inl hk
    · exact fun _ => id
  · intro hc
    apply hc.mono hnext rfl
    exact fun u hu => (hcancelled u hu).imp id fun hcovers => ⟨t, hissued, hcovers⟩
  · exact fun haside u hu => (haside u hu).mono hnext
  · exact fun _ _ => id

/-- Finishing a task. -/
theorem finish {t : Token} (ht : t ∈ aside) (hissued : c.Issued t) :
  c.Touches aside aside { c with signals := c.signals.finish t }
  := by
  have hnext : c.signals.next ≤ (c.signals.finish t).next := Nat.le_of_eq (c.signals.next_finish t).symm
  have hcancelled : ∀ u, ({ c with signals := c.signals.finish t } : Searches).isCancelled u =
      c.isCancelled u := c.signals.isCancelled_finish t
  constructor
  · exact fun _ _ _ u _ => hcancelled u
  · rintro u - hu
    rw [Bool.eq_iff_iff, Signals.isFinished_finish]
    constructor
    · rintro (rfl | h)
      · exact absurd ht hu
      · apply h
    · exact .inr
  · apply hnext
  · rfl
  · intro hc
    apply hc.mono hnext
    · intro k hk
      rw [hcancelled] at hk
      exact .inl hk
    · intro k hk
      rcases (Signals.isFinished_finish _ _ _).mp hk with heq | hk
      · obtain ⟨m, hm, rfl⟩ := hissued
        obtain ⟨rfl⟩ := heq
        exact .inr hm
      · exact .inl hk
    · exact fun _ => id
  · intro hc
    refine hc.mono hnext rfl fun u hu => ?_
    rw [hcancelled] at hu
    exact .inl hu
  · exact fun haside u hu => (haside u hu).mono hnext
  · exact fun _ _ => id

/-- One change after the other. -/
theorem trans {aside'' : List Token} {c'' : Searches} (h : c.Touches aside aside' c')
    (h' : c'.Touches aside' aside'' c'') :
  c.Touches aside aside'' c''
  := by
  constructor
  · intro u hissued hu t hcovers
    rw [h'.below u (hissued.mono h.next) (h.apart u hissued hu) t hcovers, h.below u hissued hu t hcovers]
  · intro t hissued ht
    rw [h'.finished t (hissued.mono h.next) (h.apart t hissued ht), h.finished t hissued ht]
  · apply Nat.le_trans h.next h'.next
  · rw [h'.live, h.live]
  · exact fun hc => h'.sound (h.sound hc)
  · exact fun hc => h'.rooted (h.rooted hc)
  · exact fun haside => h'.issued (h.issued haside)
  · exact fun t hissued ht => h'.apart t (hissued.mono h.next) (h.apart t hissued ht)

/-- Cancelling several handles. -/
theorem foldl_cancel {ts : List Token} (hts : ∀ t ∈ ts, t ∈ aside) (haside : ∀ t ∈ aside, c.Issued t) :
  c.Touches aside aside (ts.foldl Searches.cancel c)
  := by
  induction ts generalizing c with
  | nil => exact .forget fun _ => id
  | cons t ts ih =>
      have hfirst : c.Touches aside aside (c.cancel t) :=
        .cancel (hts t List.mem_cons_self) (haside t (hts t List.mem_cons_self))
      apply hfirst.trans
      apply ih
      · exact fun u hu => hts u (List.mem_cons_of_mem t hu)
      · apply hfirst.issued haside

end Touches

end Searches

end CallGraph
