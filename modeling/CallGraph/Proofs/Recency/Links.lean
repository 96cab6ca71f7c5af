import CallGraph.Recency
import Mathlib.Data.List.Basic
import Mathlib.Data.List.Nodup

/-!
# The chain through the slots of a cache

`Recency.Chain r order` says that the slots of `r` are linked both ways along `order`, from the newest to the
oldest, without repetition, and that `r` begins and ends the chain where `order` does.  Taking a slot out of
the chain, putting one before all others and promoting one do to `order` what their names say; none of them
touches keys or values.  Along a chain the walk over the older slots ends after all of its slots.
-/

namespace CallGraph

namespace Recency

variable {κ ν : Type}

/-- The entry in a slot. -/
def Slot.entry (s : Slot κ ν) : κ × ν :=
  (s.key, s.value)

/-- The entry in the slot of an index. -/
def entryAt? (r : Recency κ ν) (i : Nat) : Option (κ × ν) :=
  r.slots[i]?.map Slot.entry

/-- The slots of a segment are linked in order; before the segment comes `newer` and behind it `older`. -/
def Linked (slots : Array (Slot κ ν)) : Option Nat → List Nat → Option Nat → Prop
  | _, [], _ => True
  | newer, i :: rest, older =>
    (∃ s, slots[i]? = some s ∧ s.newer = newer ∧ s.older = rest.head?.or older) ∧
      Linked slots (some i) rest older

/-- The slots are linked along an order, which begins and ends where the cache does. -/
structure Chain (r : Recency κ ν) (order : List Nat) : Prop where
  linked : Linked r.slots none order none
  newest : r.newest = order.head?
  oldest : r.oldest = order.getLast?
  nodup : order.Nodup

/-! ### Segments -/

/-- Two segments are linked one behind the other exactly when each is linked and they meet. -/
theorem linked_append {slots : Array (Slot κ ν)} {newer older : Option Nat} {front back : List Nat} :
  Linked slots newer (front ++ back) older
    ↔ Linked slots newer front (back.head?.or older) ∧ Linked slots (front.getLast?.or newer) back older
  := by
  induction front generalizing newer with
  | nil => simp [Linked]
  | cons i rest ih =>
      simp only [List.cons_append, Linked, ih]
      cases rest with
      | nil => simp [Linked]
      | cons j rest => simp [and_assoc, List.getLast?_cons]

/-- A segment stays linked when its slots keep their links. -/
theorem Linked.congr {slots slots' : Array (Slot κ ν)} {newer older : Option Nat} {order : List Nat}
    (h : Linked slots newer order older)
    (hsame : ∀ i ∈ order, ∀ s, slots[i]? = some s →
      ∃ s', slots'[i]? = some s' ∧ s'.newer = s.newer ∧ s'.older = s.older) :
  Linked slots' newer order older
  := by
  induction order generalizing newer with
  | nil => trivial
  | cons i rest ih =>
      obtain ⟨⟨s, hs, hnewer, holder⟩, hrest⟩ := h
      obtain ⟨s', hs', hnewer', holder'⟩ := hsame i List.mem_cons_self s hs
      constructor
      · use s', hs'
        rw [hnewer', holder']
        exact ⟨hnewer, holder⟩
      · apply ih hrest
        intro j hj
        apply hsame j (List.mem_cons_of_mem i hj)

/-- A segment stays linked when slots outside it change. -/
theorem Linked.modify {slots : Array (Slot κ ν)} {newer older : Option Nat} {order : List Nat} {i : Nat}
    (h : Linked slots newer order older) (hi : i ∉ order) (f : Slot κ ν → Slot κ ν) :
  Linked (slots.modify i f) newer order older
  := by
  apply h.congr
  intro j hj s hs
  have hne : i ≠ j := by
    rintro rfl
    apply hi hj
  use s
  simp [Array.getElem?_modify, hne, hs]

/-- The first slot of a segment can be told what comes before it. -/
theorem Linked.modify_head
    {slots : Array (Slot κ ν)} {newer older : Option Nat} {i : Nat} {rest : List Nat}
    (h : Linked slots newer (i :: rest) older) (hi : i ∉ rest) (newer' : Option Nat) :
  Linked (slots.modify i fun s => { s with newer := newer' }) newer' (i :: rest) older
  := by
  obtain ⟨⟨s, hs, -, holder⟩, hrest⟩ := h
  constructor
  · use { s with newer := newer' }
    simp [Array.getElem?_modify, hs, holder]
  · apply hrest.modify hi

/-- The last slot of a segment can be told what comes behind it. -/
theorem Linked.modify_last
    {slots : Array (Slot κ ν)} {newer older : Option Nat} {i : Nat} {front : List Nat}
    (h : Linked slots newer (front ++ [i]) older) (hi : i ∉ front) (older' : Option Nat) :
  Linked (slots.modify i fun s => { s with older := older' }) newer (front ++ [i]) older'
  := by
  obtain ⟨hfront, ⟨s, hs, hnewer, -⟩, -⟩ := linked_append.mp h
  apply linked_append.mpr
  constructor
  · apply hfront.modify hi
  · constructor
    · use { s with older := older' }
      simp [Array.getElem?_modify, hs, hnewer]
    · trivial

/-- Every slot of a segment is there. -/
theorem Linked.lt_size {slots : Array (Slot κ ν)} {newer older : Option Nat} {order : List Nat}
    (h : Linked slots newer order older) {i : Nat} (hi : i ∈ order) :
  i < slots.size
  := by
  induction order generalizing newer with
  | nil => cases hi
  | cons j rest ih =>
      obtain ⟨⟨s, hs, -, -⟩, hrest⟩ := h
      rcases List.mem_cons.mp hi with rfl | hi
      · apply (Array.getElem?_eq_some_iff.mp hs).1
      · apply ih hrest hi

/-- The links of a slot of a segment lead to slots of the segment or to those beside it. -/
theorem Linked.links_mem {slots : Array (Slot κ ν)} {newer older : Option Nat} {order : List Nat}
    (h : Linked slots newer order older) {i : Nat} (hi : i ∈ order) {s : Slot κ ν}
    (hs : slots[i]? = some s) :
  (∀ n ∈ s.newer, n ∈ newer ∨ n ∈ order) ∧ (∀ n ∈ s.older, n ∈ older ∨ n ∈ order)
  := by
  induction order generalizing newer with
  | nil => cases hi
  | cons j rest ih =>
      obtain ⟨⟨t, ht, hnewer, holder⟩, hrest⟩ := h
      rcases List.mem_cons.mp hi with rfl | hi
      · obtain rfl := Option.some.inj (hs.symm.trans ht)
        constructor
        · intro n hn
          left
          rwa [← hnewer]
        · intro n hn
          rw [holder] at hn
          cases rest with
          | nil => exact .inl hn
          | cons k rest =>
              obtain rfl := Option.some.inj hn
              exact .inr (List.mem_cons_of_mem _ List.mem_cons_self)
      · obtain ⟨hleft, hright⟩ := ih hrest hi
        constructor
        · intro n hn
          right
          rcases hleft n hn with hj | hn
          · obtain rfl := Option.some.inj hj
            apply List.mem_cons_self
          · apply List.mem_cons_of_mem j hn
        · intro n hn
          apply (hright n hn).imp id (List.mem_cons_of_mem j)

/-- The way over the older slots, from one slot on, leads through a list of slots and then ends. -/
inductive Walks (r : Recency κ ν) : Option Nat → List Nat → Prop where
  | ends : Walks r none []
  | goesOn {i : Nat} {s : Slot κ ν} {rest : List Nat} (hs : r.slots[i]? = some s)
      (hrest : Walks r s.older rest) : Walks r (some i) (i :: rest)

/-- The way over the older slots, from the first slot of a segment with nothing behind it, leads through
that segment. -/
theorem Linked.walks {r : Recency κ ν} {newer : Option Nat} {order : List Nat}
    (h : Linked r.slots newer order none) :
  Walks r order.head? order
  := by
  induction order generalizing newer with
  | nil => exact .ends
  | cons i rest ih =>
      obtain ⟨⟨s, hs, -, holder⟩, hrest⟩ := h
      apply Walks.goesOn hs
      rw [holder, Option.or_none]
      apply ih hrest

/-! ### Keys and values stay -/

/-- A change of the links of a slot leaves all entries alone. -/
theorem entryAt?_change (r : Recency κ ν) (i j : Nat) (f : Slot κ ν → Slot κ ν)
    (hf : ∀ s, (f s).entry = s.entry) :
  (r.change i f).entryAt? j = r.entryAt? j
  := by
  by_cases hij : i = j
  · subst hij
    simp only [entryAt?, change, Array.getElem?_modify, if_true, Option.map_map]
    cases r.slots[i]? with
    | none => rfl
    | some s => simp [hf]
  · simp [entryAt?, change, Array.getElem?_modify, hij]

/-- Changing the value in a slot changes its entry. -/
theorem entryAt?_change_value (r : Recency κ ν) (i : Nat) (value : ν) :
  (r.change i fun s => { s with value }).entryAt? i = (r.entryAt? i).map fun e => (e.1, value)
  := by
  simp [entryAt?, change, Array.getElem?_modify, Slot.entry, Function.comp_def]

/-- Changing a slot leaves the entries of all others alone. -/
theorem entryAt?_change_of_ne (r : Recency κ ν) {i j : Nat} (hij : i ≠ j) (f : Slot κ ν → Slot κ ν) :
  (r.change i f).entryAt? j = r.entryAt? j
  := by
  simp [entryAt?, change, Array.getElem?_modify, hij]

/-- What a change of the links keeps. -/
structure SameEntries (r r' : Recency κ ν) : Prop where
  entries : ∀ i, r'.entryAt? i = r.entryAt? i
  size : r'.slots.size = r.slots.size
  index : r'.index = r.index
  capacity : r'.capacity = r.capacity

/-- What two changes of the links keep one after the other. -/
theorem SameEntries.trans {r r' r'' : Recency κ ν} (h : SameEntries r r') (h' : SameEntries r' r'') :
  SameEntries r r''
  := by
  constructor
  · intro i
    rw [h'.entries, h.entries]
  · rw [h'.size, h.size]
  · rw [h'.index, h.index]
  · rw [h'.capacity, h.capacity]

/-- A cache has the entries it has. -/
theorem SameEntries.refl (r : Recency κ ν) :
  SameEntries r r
  := ⟨fun _ => rfl, rfl, rfl, rfl⟩

/-- A change of the links of a slot keeps keys and values. -/
theorem sameEntries_change (r : Recency κ ν) (i : Nat) (f : Slot κ ν → Slot κ ν)
    (hf : ∀ s, (f s).entry = s.entry) :
  SameEntries r (r.change i f)
  := by
  constructor
  · intro j
    apply entryAt?_change r i j f hf
  · simp [change]
  · rfl
  · rfl

/-- A change of the links of a slot, if there is one, keeps keys and values. -/
theorem sameEntries_change? (r : Recency κ ν) (i : Option Nat) (f : Slot κ ν → Slot κ ν)
    (hf : ∀ s, (f s).entry = s.entry) :
  SameEntries r (r.change? i f)
  := by
  cases i with
  | none => apply SameEntries.refl
  | some i => apply sameEntries_change r i f hf

/-- Linking a slot to an older one keeps keys and values. -/
theorem sameEntries_linkOlder (r : Recency κ ν) (i older : Option Nat) :
  SameEntries r (r.linkOlder i older)
  := by
  cases i with
  | none => exact ⟨fun _ => rfl, rfl, rfl, rfl⟩
  | some i => apply sameEntries_change r i _ (by intro s; rfl)

/-- Linking a slot to a newer one keeps keys and values. -/
theorem sameEntries_linkNewer (r : Recency κ ν) (i newer : Option Nat) :
  SameEntries r (r.linkNewer i newer)
  := by
  cases i with
  | none => exact ⟨fun _ => rfl, rfl, rfl, rfl⟩
  | some i => apply sameEntries_change r i _ (by intro s; rfl)

/-- Taking a slot out of the chain keeps keys and values. -/
theorem sameEntries_unlink (r : Recency κ ν) (i : Nat) :
  SameEntries r (r.unlink i)
  := by
  unfold unlink
  cases r.slots[i]? with
  | none => apply SameEntries.refl
  | some slot =>
      apply SameEntries.trans _ (sameEntries_change _ i _ (by intro s; rfl))
      apply (sameEntries_linkOlder r _ _).trans (sameEntries_linkNewer _ _ _)

/-- Putting a slot before all others keeps keys and values. -/
theorem sameEntries_pushFront (r : Recency κ ν) (i : Nat) :
  SameEntries r (r.pushFront i)
  := by
  have hslot := sameEntries_change r i (fun s => { s with newer := none, older := r.newest })
    (by intro s; rfl)
  have h := hslot.trans
    (sameEntries_change? _ r.newest (fun s => { s with newer := some i }) (by intro s; rfl))
  exact ⟨h.entries, h.size, h.index, h.capacity⟩

/-- Promoting a slot keeps keys and values. -/
theorem sameEntries_promote (r : Recency κ ν) (i : Nat) :
  SameEntries r (r.promote i)
  := by
  unfold promote
  split
  · apply SameEntries.refl
  · apply (sameEntries_unlink r i).trans (sameEntries_pushFront _ i)

/-! ### Taking slots out and putting them in front -/

/-- A segment that ends in a slot, or is empty, can be followed by another slot. -/
theorem Linked.linkOlder {r : Recency κ ν} {front : List Nat} {older : Option Nat}
    (h : Linked r.slots none front older) (hnodup : front.Nodup) (older' : Option Nat) :
  Linked (r.linkOlder front.getLast? older').slots none front older'
  := by
  rcases List.eq_nil_or_concat front with rfl | ⟨rest, n, rfl⟩
  · trivial
  · simp only [List.concat_eq_append] at h hnodup ⊢
    have hn : n ∉ rest := by
      intro hn
      apply (List.nodup_append.mp hnodup).2.2 n hn n List.mem_cons_self rfl
    rw [List.getLast?_concat]
    apply h.modify_last hn

/-- A segment that begins with a slot, or is empty, can be preceded by another slot. -/
theorem Linked.linkNewer {r : Recency κ ν} {back : List Nat} {newer : Option Nat}
    (h : Linked r.slots newer back none) (hnodup : back.Nodup) (newer' : Option Nat) :
  Linked (r.linkNewer back.head? newer').slots newer' back none
  := by
  cases back with
  | nil => trivial
  | cons o rest => apply h.modify_head (List.nodup_cons.mp hnodup).1

/-- Linking a slot outside a segment to an older one keeps the segment. -/
theorem Linked.frame_linkOlder {r : Recency κ ν} {order : List Nat} {newer older : Option Nat}
    (h : Linked r.slots newer order older) {i : Option Nat} (hi : ∀ n ∈ i, n ∉ order) (o : Option Nat) :
  Linked (r.linkOlder i o).slots newer order older
  := by
  cases i with
  | none => apply h
  | some n => apply h.modify (hi n rfl) fun s => { s with older := o }

/-- Linking a slot outside a segment to a newer one keeps the segment. -/
theorem Linked.frame_linkNewer {r : Recency κ ν} {order : List Nat} {newer older : Option Nat}
    (h : Linked r.slots newer order older) {i : Option Nat} (hi : ∀ n ∈ i, n ∉ order) (o : Option Nat) :
  Linked (r.linkNewer i o).slots newer order older
  := by
  cases i with
  | none => apply h
  | some n => apply h.modify (hi n rfl) fun s => { s with newer := o }

/-- A chain with a slot in it is the slots before it, the slot, and the slots behind it. -/
theorem Chain.split {r : Recency κ ν} {front back : List Nat} {i : Nat}
    (h : Chain r (front ++ i :: back)) :
  Linked r.slots none front (some i) ∧
    (∃ s, r.slots[i]? = some s ∧ s.newer = front.getLast? ∧ s.older = back.head?) ∧
    Linked r.slots (some i) back none
  := by
  obtain ⟨hfront, hslot, hback⟩ := linked_append.mp h.linked
  simp only [Option.or_none] at hslot
  use hfront, hslot

/-- A slot that is taken out of the chain leaves a chain of the others. -/
theorem Chain.unlink {r : Recency κ ν} {front back : List Nat} {i : Nat}
    (h : Chain r (front ++ i :: back)) :
  Chain (r.unlink i) (front ++ back)
  := by
  obtain ⟨hfront, ⟨s, hs, hnewer, holder⟩, hback⟩ := h.split
  have hnodup := List.nodup_append.mp h.nodup
  obtain ⟨hf, hib, hdisjoint⟩ := hnodup
  obtain ⟨hi, hb⟩ := List.nodup_cons.mp hib
  have hif : i ∉ front := by
    intro hif
    apply hdisjoint i hif i List.mem_cons_self rfl
  have hapart : ∀ a ∈ front, a ∉ back := by
    intro a ha hab
    apply hdisjoint a ha a (List.mem_cons_of_mem i hab) rfl
  have hfront' := ((hfront.linkOlder hf back.head?).frame_linkNewer (i := back.head?)
    (by intro o ho hof; apply hapart o hof (List.mem_of_mem_head? ho)) front.getLast?).modify hif
    (fun s => { s with newer := none, older := none })
  have hback' := ((hback.frame_linkOlder (i := front.getLast?)
    (by intro n hn; apply hapart n (List.mem_of_mem_getLast? hn)) back.head?).linkNewer hb
    front.getLast?).modify hi (fun s => { s with newer := none, older := none })
  simp only [Recency.unlink, hs, hnewer, holder]
  constructor
  · apply linked_append.mpr
    simp only [Option.or_none]
    use hfront', hback'
  · have hnewest := h.newest
    cases back with
    | nil =>
        rcases List.eq_nil_or_concat front with rfl | ⟨rest, n, rfl⟩
        · rfl
        · simpa [linkOlder, linkNewer, change] using hnewest
    | cons o rest' =>
        rcases List.eq_nil_or_concat front with rfl | ⟨rest, n, rfl⟩
        · rfl
        · simpa [linkOlder, linkNewer, change] using hnewest
  · have holdest := h.oldest
    cases back with
    | nil => simp [linkNewer, change]
    | cons o rest' =>
        rcases List.eq_nil_or_concat front with rfl | ⟨rest, n, rfl⟩
        · simpa [linkOlder, linkNewer, change] using holdest
        · simpa [linkOlder, linkNewer, change] using holdest
  · apply List.nodup_append.mpr
    use hf, hb
    intro a ha b hbb hab
    apply hapart a ha (hab ▸ hbb)

/-- A slot that is put before all others is the oldest one only if there is no other. -/
theorem oldest_pushFront (r : Recency κ ν) (i : Nat) :
  (r.pushFront i).oldest = if r.oldest.isNone then some i else r.oldest
  := by
  cases h : r.newest with
  | none => simp [pushFront, change?, change, h]
  | some n => simp [pushFront, change?, change, h]

/-- A slot outside the chain that is put before all others begins a chain with them. -/
theorem Chain.pushFront {r : Recency κ ν} {order : List Nat} (h : Chain r order) {i : Nat}
    (hi : i ∉ order) (hsize : i < r.slots.size) :
  Chain (r.pushFront i) (i :: order)
  := by
  have hslots : (r.pushFront i).slots = (((r.change i fun s =>
      { s with newer := none, older := order.head? }).linkNewer order.head? (some i)).slots) := by
    rw [← h.newest]
    cases hn : r.newest with
    | none => simp [Recency.pushFront, change?, linkNewer, hn]
    | some n => simp [Recency.pushFront, change?, linkNewer, hn]
  have hrest : Linked (r.change i fun s => { s with newer := none, older := order.head? }).slots none
      order none := h.linked.modify hi fun s => { s with newer := none, older := order.head? }
  obtain ⟨s, hs⟩ : ∃ s, r.slots[i]? = some s := ⟨r.slots[i], Array.getElem?_eq_getElem hsize⟩
  constructor
  · rw [hslots]
    constructor
    · use { s with newer := none, older := order.head? }
      cases order with
      | nil => simp [change, linkNewer, Array.getElem?_modify, hs]
      | cons n rest =>
          have hni : n ≠ i := by
            rintro rfl
            apply hi List.mem_cons_self
          simp [change, linkNewer, Array.getElem?_modify, hs, hni]
    · apply hrest.linkNewer h.nodup
  · rfl
  · rw [oldest_pushFront, h.oldest]
    cases order with
    | nil => rfl
    | cons n rest => simp [List.getLast?_cons]
  · apply List.nodup_cons.mpr ⟨hi, h.nodup⟩

/-- Changing the value in a slot keeps the chain. -/
theorem Chain.change_value {r : Recency κ ν} {order : List Nat} (h : Chain r order) (i : Nat) (value : ν) :
  Chain (r.change i fun s => { s with value }) order
  := by
  constructor
  · apply h.linked.congr
    intro j _ s hs
    by_cases hij : i = j
    · use { s with value }
      simp [change, Array.getElem?_modify, hs, hij]
    · use s
      simp [change, Array.getElem?_modify, hs, hij]
  · apply h.newest
  · apply h.oldest
  · apply h.nodup

/-- A promoted slot goes to the front of the chain. -/
theorem Chain.promote {r : Recency κ ν} {order : List Nat} (h : Chain r order) {i : Nat}
    (hi : i ∈ order) :
  Chain (r.promote i) (i :: order.erase i)
  := by
  obtain ⟨front, back, rfl⟩ := List.append_of_mem hi
  have hdisjoint := (List.nodup_append.mp h.nodup).2.2
  have hif : i ∉ front := by
    intro hif
    apply hdisjoint i hif i List.mem_cons_self rfl
  have hib : i ∉ back := (List.nodup_cons.mp (List.nodup_append.mp h.nodup).2.1).1
  have herase : (front ++ i :: back).erase i = front ++ back := by
    rw [List.erase_append_right _ hif, List.erase_cons_head]
  rw [herase]
  unfold Recency.promote
  split
  · rename_i hhead
    rw [h.newest] at hhead
    cases front with
    | nil => apply h
    | cons n rest =>
        have hni : n = i := by simpa using hhead
        exact absurd (hni ▸ List.mem_cons_self) hif
  · apply h.unlink.pushFront
    · simp [hif, hib]
    · rw [(sameEntries_unlink r i).size]
      apply h.linked.lt_size hi

end Recency

end CallGraph
