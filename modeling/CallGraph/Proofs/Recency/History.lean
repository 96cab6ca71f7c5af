import CallGraph.Proofs.Recency.Refinement
import CallGraph.TextCache
import Mathlib.Data.List.Forall2

/-!
# Caches and the history of their calls

After any number of calls that ask for keys and load what is not there, a cache holds the keys that a reader of the
successful calls meets first, who goes from the last call back to the first and passes over repeats.  A load is
invoked exactly if its key is not among these, so a cache with more room has whatever a cache with less room has.

`r.Holds P` says of every value in a cache that `P` relates it to its key.  A value that is loaded and kept, or found
there, is then one that `P` relates to the key it was asked for.
-/

namespace CallGraph

namespace Recency

variable {κ ν ε : Type}

/-! ### Calls that load -/

/-- The value of a key by a load that does something else as well, if it is invoked. -/
def getOrLoadM [BEq κ] {m : Type → Type} [Monad m] (r : Recency κ ν) (key : κ) (load : κ → m (Except ε ν)) :
    m (Except ε ν × Recency κ ν) :=
  match r.get key with
  | (some value, r) => pure (.ok value, r)
  | (none, r) => do
    match ← load key with
    | .ok value => pure (.ok value, (r.insert key value).2)
    | .error e => pure (.error e, r)

/-- A load that notes the key that it is invoked with. -/
def noted (load : κ → Except ε ν) (key : κ) : StateM (List κ) (Except ε ν) := do
  modify (key :: ·)
  return load key

/-- The keys with which a call invokes its load. -/
def loads [BEq κ] (r : Recency κ ν) (key : κ) (load : κ → Except ε ν) : List κ :=
  ((r.getOrLoadM key (noted load)).run []).2

/-- The cache after some calls, each with its key and its load. -/
def after [BEq κ] (r : Recency κ ν) (calls : List (κ × (κ → Except ε ν))) : Recency κ ν :=
  calls.foldl (fun r call => (r.getOrLoad call.1 call.2).2) r

/-- The keys of those calls that give a value. -/
def successes [BEq κ] (r : Recency κ ν) : List (κ × (κ → Except ε ν)) → List κ
  | [] => []
  | (key, load) :: calls =>
    match r.getOrLoad key load with
    | (.ok _, r) => key :: successes r calls
    | (.error _, r) => successes r calls

/-- The first `capacity` different keys that are met from the last to the first. -/
def recent [BEq κ] (capacity : Nat) (keys : List κ) : List κ :=
  keys.reverse.eraseDups.take capacity

section Loads

variable [BEq κ] (r : Recency κ ν) (key : κ) (load : κ → Except ε ν)

/-- A call that notes what it loads gives what it gives otherwise. -/
theorem run_getOrLoadM_noted :
  (r.getOrLoadM key (noted load)).run [] = (r.getOrLoad key load, r.loads key load)
  := by
  rw [loads]
  unfold getOrLoadM getOrLoad
  obtain ⟨value | value, r'⟩ := r.get key
  · dsimp only [noted]
    cases load key <;> rfl
  · rfl

/-- A call invokes its load, with its key, exactly if it does not find the key. -/
theorem loads_eq :
  r.loads key load = if (r.get key).1.isSome then [] else [key]
  := by
  unfold loads getOrLoadM
  obtain ⟨value | value, r'⟩ := r.get key
  · dsimp only [noted]
    cases load key <;> rfl
  · rfl

end Loads

end Recency

/-! ### Lists without repeats -/

section Repeats

variable {κ : Type} [BEq κ] [EquivBEq κ]

omit [EquivBEq κ] in
/-- Repeats can be dropped before or after a choice that does not tell equal keys apart. -/
theorem eraseDups_filter {p : κ → Bool} (hp : ∀ a b, (a == b) = true → p a = p b) (keys : List κ) :
  (keys.filter p).eraseDups = keys.eraseDups.filter p
  := by
  -- Both sides drop the repeats of the first key, so the rest is shorter but no longer the tail.
  induction hlength : keys.length using Nat.strongRecOn generalizing keys with
  | _ n ih =>
    cases keys with
    | nil => rfl
    | cons key keys =>
      have hshorter : (keys.filter fun b => !b == key).length < n := by
        have hle := List.length_filter_le (fun b => !b == key) keys
        rw [List.length_cons] at hlength
        omega
      have hrest := ih _ hshorter (keys.filter fun b => !b == key) rfl
      rw [List.eraseDups_cons, List.filter_cons, List.filter_cons, ← hrest]
      cases hkey : p key with
      | true =>
        rw [if_pos rfl, if_pos rfl, List.eraseDups_cons, List.filter_filter, List.filter_filter]
        simp only [Bool.and_comm]
      | false =>
        rw [if_neg Bool.false_ne_true, if_neg Bool.false_ne_true, List.filter_filter]
        congr 1
        apply List.filter_congr
        intro b _
        cases hb : b == key with
        | false => simp
        | true => simp [hp b key hb, hkey]

/-- The repeats of the first key can be dropped last. -/
theorem eraseDups_cons_filter (key : κ) (keys : List κ) :
  (key :: keys).eraseDups = key :: keys.eraseDups.filter fun b => !b == key
  := by
  rw [List.eraseDups_cons, eraseDups_filter]
  intro a b h
  rw [BEq.congr_left h]

/-- No two keys that are left are equal. -/
theorem pairwise_eraseDups (keys : List κ) :
  keys.eraseDups.Pairwise fun a b => (a == b) = false
  := by
  induction keys with
  | nil => exact List.Pairwise.nil
  | cons key keys ih =>
    rw [eraseDups_cons_filter, List.pairwise_cons]
    refine ⟨fun b hb => ?_, ih.filter _⟩
    rw [BEq.comm]
    simpa using (List.mem_filter.mp hb).2

/-- Keys that differ from one key differ from those that equal it. -/
theorem filter_of_apart {first key : κ} {rest : List κ} (hequal : (first == key) = true)
    (h : ∀ b ∈ rest, (first == b) = false) :
  (rest.filter fun b => !b == key) = rest
  := by
  apply List.filter_eq_self.mpr
  intro b hb
  rw [← BEq.congr_right hequal, BEq.comm, h b hb]
  rfl

/-- One key at most equals a given one. -/
theorem length_le_length_filter {keys : List κ} (h : keys.Pairwise fun a b => (a == b) = false) (key : κ) :
  keys.length ≤ (keys.filter fun b => !b == key).length + 1
  := by
  induction keys with
  | nil => exact Nat.zero_le _
  | cons first rest ih =>
    obtain ⟨hfirst, hrest⟩ := List.pairwise_cons.mp h
    cases hequal : first == key with
    | false =>
      rw [List.filter_cons_of_pos (by simp [hequal]), List.length_cons, List.length_cons]
      exact Nat.succ_le_succ (ih hrest)
    | true =>
      rw [List.filter_cons_of_neg (by simp [hequal]), filter_of_apart hequal hfirst]
      exact Nat.le_refl _

/-- Of the first keys and of all keys, the same ones come first beside one that is left out. -/
theorem take_filter_take {keys : List κ} (h : keys.Pairwise fun a b => (a == b) = false) (key : κ) (n : Nat) :
  ((keys.take (n + 1)).filter fun b => !b == key).take n = (keys.filter fun b => !b == key).take n
  := by
  conv_rhs => rw [← List.take_append_drop (n + 1) keys, List.filter_append]
  rcases Nat.lt_or_ge n keys.length with hlt | hge
  · rw [List.take_append_of_le_length]
    have hlength := length_le_length_filter (h.sublist (List.take_sublist (n + 1) keys)) key
    rw [List.length_take_of_le hlt] at hlength
    exact Nat.le_of_succ_le_succ hlength
  · rw [List.drop_of_length_le (Nat.le_succ_of_le hge), List.filter_nil, List.append_nil]

end Repeats

namespace RecencyList

variable {κ ν ε : Type}

/-- The keys, the most recently used first. -/
def keys (l : RecencyList κ ν) : List κ :=
  l.entries.map (·.1)

variable [BEq κ] [EquivBEq κ] {l : RecencyList κ ν}

/-- Dropping the entry of a key drops the key. -/
theorem map_eraseP_entries {entries : List (κ × ν)} {key : κ}
    (h : (entries.map (·.1)).Pairwise fun a b => (a == b) = false) :
  (entries.eraseP fun e => e.1 == key).map (·.1) = (entries.map (·.1)).filter fun b => !b == key
  := by
  induction entries with
  | nil => rfl
  | cons e rest ih =>
    rw [List.map_cons, List.pairwise_cons] at h
    cases hkey : e.1 == key with
    | false => simp [hkey, ih h.2]
    | true => simp [hkey, filter_of_apart hkey h.1]

omit [BEq κ] [EquivBEq κ] in
/-- A new entry comes first, and all others as before, as far as there is room. -/
theorem keys_push (hroom : 0 < l.capacity) (hbounded : l.entries.length ≤ l.capacity) (entry : κ × ν) :
  (l.push entry).2.keys = entry.1 :: l.keys.take (l.capacity - 1)
  := by
  rcases Nat.lt_or_ge l.entries.length l.capacity with hlt | hge
  · rw [push_of_room hlt, keys, keys, List.map_cons, List.take_of_length_le]
    rw [List.length_map]
    omega
  · have hlast : l.entries ≠ [] := List.ne_nil_of_length_pos (by omega)
    have hfull : l.capacity = l.entries.length := Nat.le_antisymm hge hbounded
    rw [push_of_full (List.dropLast_concat_getLast hlast).symm hge, keys, keys, List.map_cons, ← List.map_take,
      List.dropLast_eq_take, hfull]

/-- After a call that gives a value its key comes first, and all others as before, as far as there is room. -/
theorem keys_getOrLoad (hdistinct : l.keys.Pairwise fun a b => (a == b) = false) (hroom : 0 < l.capacity)
    (hbounded : l.entries.length ≤ l.capacity) {key : κ} {load : κ → Except ε ν} {value : ν}
    (hvalue : (l.getOrLoad key load).1 = .ok value) :
  ∃ k, (k == key) = true ∧
    (l.getOrLoad key load).2.keys = k :: (l.keys.filter fun b => !b == key).take (l.capacity - 1)
  := by
  unfold getOrLoad at hvalue ⊢
  cases hfind : l.find? key with
  | some e =>
    have hfound : (l.entries.find? fun e => e.1 == key) = some e := hfind
    have hkey := List.find?_some hfound
    refine ⟨e.1, hkey, ?_⟩
    have hdropped : (l.keys.filter fun b => !b == key).length < l.keys.length :=
      List.length_filter_lt_length_iff_exists.mpr
        ⟨e.1, List.mem_map_of_mem (List.mem_of_find?_eq_some hfound), by simpa using hkey⟩
    have hlength : l.keys.length = l.entries.length := List.length_map _
    rw [List.take_of_length_le (by omega)]
    exact congrArg (e.1 :: ·) (map_eraseP_entries hdistinct)
  | none =>
    refine ⟨key, BEq.rfl, ?_⟩
    rw [hfind] at hvalue
    cases hload : load key with
    | error e =>
      rw [hload] at hvalue
      cases hvalue
    | ok value =>
      have hall : (l.keys.filter fun b => !b == key) = l.keys := by
        apply List.filter_eq_self.mpr
        intro b hb
        obtain ⟨e, he, rfl⟩ := List.mem_map.mp hb
        simpa using List.find?_eq_none.mp hfind e he
      rw [hall]
      simp only [insert, hfind]
      exact keys_push hroom hbounded (key, value)

omit [EquivBEq κ] in
/-- A load that fails changes nothing. -/
theorem getOrLoad_of_error {key : κ} {load : κ → Except ε ν} {e : ε} (h : (l.getOrLoad key load).1 = .error e) :
  (l.getOrLoad key load).2 = l
  := by
  unfold getOrLoad at h ⊢
  cases hfind : l.find? key with
  | some entry =>
    rw [hfind] at h
    cases h
  | none =>
    cases hload : load key with
    | ok value =>
      rw [hfind, hload] at h
      cases h
    | error e => rfl

end RecencyList

namespace Recency

variable {κ ν ε : Type} [BEq κ] [EquivBEq κ] {r : Recency κ ν} {order : List Nat} {l : RecencyList κ ν}

/-! ### What a cache holds -/

/-- A key that is met later comes first, and leaves no room for the last one if it is new. -/
theorem recent_concat {capacity : Nat} (hroom : 0 < capacity) (keys : List κ) (key : κ) :
  recent capacity (keys ++ [key]) = key :: ((recent capacity keys).filter fun b => !b == key).take (capacity - 1)
  := by
  obtain ⟨n, rfl⟩ := Nat.exists_eq_add_one_of_ne_zero (Nat.pos_iff_ne_zero.mp hroom)
  rw [recent, List.reverse_concat, eraseDups_cons_filter, List.take_succ_cons, Nat.add_sub_cancel, recent,
    take_filter_take (pairwise_eraseDups _)]

/-- The keys of a list are the recent ones of a history after some more calls, if they were so before. -/
theorem Represents.after (h : Represents r order l) {history : List κ}
    (hkeys : List.Forall₂ (fun a b => (a == b) = true) l.keys (recent l.capacity history))
    (calls : List (κ × (κ → Except ε ν))) :
  ∃ order' l', Represents (r.after calls) order' l' ∧ l'.capacity = l.capacity ∧
    List.Forall₂ (fun a b => (a == b) = true) l'.keys (recent l.capacity (history ++ r.successes calls))
  := by
  induction calls generalizing r order l history with
  | nil => exact ⟨order, l, h, rfl, (List.append_nil history).symm ▸ hkeys⟩
  | cons call calls ih =>
    obtain ⟨key, load⟩ := call
    obtain ⟨hresult, order', hnext⟩ := h.getOrLoad key load
    have hcapacity : (l.getOrLoad key load).2.capacity = l.capacity := capacity_performList l (.getOrLoad key load)
    change ∃ order'' l', Represents ((r.getOrLoad key load).2.after calls) order'' l' ∧ _
    rw [successes]
    generalize r.getOrLoad key load = reply at hresult hnext
    obtain ⟨result, r'⟩ := reply
    cases result with
    | error e =>
      have hsame : (l.getOrLoad key load).2 = l := RecencyList.getOrLoad_of_error hresult.symm
      rw [hsame] at hnext
      exact ih hnext hkeys
    | ok value =>
      have hbounded : l.entries.length ≤ l.capacity := by
        rw [h.length_entries, ← h.capacity]
        exact h.bounded
      have hroom : 0 < l.capacity := h.capacity ▸ h.room
      obtain ⟨k, hk, hfirst⟩ := RecencyList.keys_getOrLoad h.keys_distinct hroom hbounded hresult.symm
      have hlater : List.Forall₂ (fun a b => (a == b) = true) (l.getOrLoad key load).2.keys
          (recent (l.getOrLoad key load).2.capacity (history ++ [key])) := by
        rw [hcapacity, hfirst, recent_concat hroom]
        refine .cons hk (List.forall₂_take _ (List.rel_filter (fun a b hab => ?_) hkeys))
        change (!a == key) = true ↔ (!b == key) = true
        rw [BEq.congr_left hab]
      obtain ⟨order'', l', hafter, hcapacity', hlast⟩ := ih hnext hlater
      rw [hcapacity, List.append_assoc] at hlast
      exact ⟨order'', l', hafter, hcapacity'.trans hcapacity, hlast⟩

/-- The recent keys have a key exactly if the cache has it. -/
theorem Represents.isSome_get (h : Represents r order l) {recents : List κ}
    (hkeys : List.Forall₂ (fun a b => (a == b) = true) l.keys recents) (key : κ) :
  (r.get key).1.isSome = recents.contains key
  := by
  have hfound : (r.get key).1.isSome = (l.entries.find? fun e => e.1 == key).isSome := by
    rw [(h.get key).1, RecencyList.get, RecencyList.find?]
    cases l.entries.find? fun e => e.1 == key <;> rfl
  have hlist : (l.entries.find? fun e => e.1 == key).isSome = l.keys.any fun b => b == key := by
    rw [List.isSome_find?, RecencyList.keys, List.any_map]
    rfl
  rw [hfound, hlist, List.contains_eq_any_beq]
  generalize l.keys = keys at hkeys
  induction hkeys with
  | nil => rfl
  | cons hab _ ih => rw [List.any_cons, List.any_cons, ih, BEq.congr_left hab, BEq.comm]

omit [EquivBEq κ] in
/-- More room keeps what less room keeps. -/
theorem contains_recent_of_le {capacity capacity' : Nat} (h : capacity ≤ capacity') {keys : List κ} {key : κ}
    (hkey : (recent capacity keys).contains key = true) :
  (recent capacity' keys).contains key = true
  := by
  rw [List.contains_eq_any_beq, List.any_eq_true] at hkey ⊢
  obtain ⟨k, hk, hequal⟩ := hkey
  exact ⟨k, (List.take_prefix_take_left h).subset hk, hequal⟩

omit [EquivBEq κ] in
/-- Calls whose loads do not fail all give values. -/
theorem successes_eq {calls : List (κ × (κ → Except ε ν))} (h : ∀ call ∈ calls, ∃ value, call.2 call.1 = .ok value)
    (r : Recency κ ν) :
  r.successes calls = calls.map (·.1)
  := by
  induction calls generalizing r with
  | nil => rfl
  | cons call calls ih =>
    obtain ⟨key, load⟩ := call
    obtain ⟨⟨value, hvalue⟩, hrest⟩ := List.forall_mem_cons.mp h
    have hreply : ∃ value, (r.getOrLoad key load).1 = .ok value := by
      unfold getOrLoad
      obtain ⟨found | found, r'⟩ := r.get key
      · dsimp only at hvalue ⊢
        rw [hvalue]
        exact ⟨value, rfl⟩
      · exact ⟨found, rfl⟩
    obtain ⟨value, hvalue⟩ := hreply
    rw [successes]
    generalize r.getOrLoad key load = reply at hvalue
    obtain ⟨result, r'⟩ := reply
    cases hvalue
    exact congrArg (key :: ·) (ih hrest r')

/-- After any calls a new cache holds a list of the recent keys. -/
theorem exists_represents_after (capacity : Nat) (calls : List (κ × (κ → Except ε ν))) :
  ∃ order l, Represents ((empty capacity : Recency κ ν).after calls) order l ∧
    List.Forall₂ (fun a b => (a == b) = true) l.keys
      (recent (max capacity 1) ((empty capacity : Recency κ ν).successes calls))
  := by
  have hnone : List.Forall₂ (fun a b : κ => (a == b) = true) [] (recent (max capacity 1) []) := by
    rw [recent, List.reverse_nil, List.eraseDups_nil, List.take_nil]
    exact .nil
  obtain ⟨order, l, h, -, hkeys⟩ := (represents_empty (κ := κ) (ν := ν) capacity).after hnone calls
  exact ⟨order, l, h, hkeys⟩

/-- After any calls a load is invoked exactly if its key is not recent. -/
theorem loads_after (capacity : Nat) (calls : List (κ × (κ → Except ε ν))) (key : κ) (load : κ → Except ε ν) :
  ((empty capacity : Recency κ ν).after calls).loads key load =
    if (recent (max capacity 1) ((empty capacity : Recency κ ν).successes calls)).contains key then [] else [key]
  := by
  obtain ⟨order, l, h, hkeys⟩ := exists_represents_after (ν := ν) capacity calls
  rw [loads_eq, h.isSome_get hkeys]

/-- A cache holds the recent keys of the calls that gave values.  A call gives the same while it is noted what it loads,
and invokes its load exactly if its key is not among the recent ones; if no load fails a cache that has as much room or
more invokes no other loads. -/
theorem keysByRecency_after (capacity : Nat) (calls : List (κ × (κ → Except ε ν))) :
  let cache := (empty capacity : Recency κ ν).after calls
  let recents := recent (max capacity 1) ((empty capacity : Recency κ ν).successes calls)
  List.Forall₂ (fun a b => (a == b) = true) cache.keysByRecency recents ∧
    (∀ key (load : κ → Except ε ν),
      (cache.getOrLoadM key (noted load)).run [] = (cache.getOrLoad key load, cache.loads key load)) ∧
    (∀ key (load : κ → Except ε ν), cache.loads key load = if recents.contains key then [] else [key]) ∧
    ∀ capacity', capacity ≤ capacity' → (∀ call ∈ calls, ∃ value, call.2 call.1 = .ok value) →
      ∀ key (load : κ → Except ε ν), cache.loads key load = [] →
        ((empty capacity' : Recency κ ν).after calls).loads key load = []
  := by
  refine ⟨?_, run_getOrLoadM_noted _, loads_after capacity calls, fun capacity' hle hok key load hnone => ?_⟩
  · obtain ⟨order, l, h, hkeys⟩ := exists_represents_after (ν := ν) capacity calls
    rw [h.keysByRecency]
    exact hkeys
  · rw [loads_after, successes_eq hok] at hnone ⊢
    rw [ite_eq_left_iff] at hnone ⊢
    intro habsent
    apply hnone
    intro hkey
    exact habsent (contains_recent_of_le (by omega) hkey)

/-- A load that gives a text. -/
def given (text : Nat) (_ : Path) : Except String Nat :=
  .ok text

/-- Calls for two texts. -/
def early : List (Path × (Path → Except String Nat)) :=
  [(⟨"/a"⟩, given 1), (⟨"/b"⟩, given 2)]

/-- Calls for one of them, under another spelling of its path, and for one more. -/
def late : List (Path × (Path → Except String Nat)) :=
  [(⟨"//b/"⟩, given 3), (⟨"/d"⟩, given 4)]

omit [BEq κ] [EquivBEq κ] in
/-- Two texts fit into this cache.  A load that fails leaves no trace, another spelling of a path is the same key, and
the first text is evicted.  Without the load that fails, what is kept here is kept where three fit in, too. -/
theorem keysByRecency_after_paths :
  List.Forall₂ (fun a b => (a == b) = true)
      ((empty 2 : Recency Path Nat).after (early ++ (⟨"/c"⟩, fun _ => .error "gone") :: late)).keysByRecency
      [⟨"/d"⟩, ⟨"//b/"⟩] ∧
    ((empty 2 : Recency Path Nat).after (early ++ (⟨"/c"⟩, fun _ => .error "gone") :: late)).loads ⟨"/a"⟩ (given 1) =
      [⟨"/a"⟩] ∧
    ((empty 3 : Recency Path Nat).after (early ++ late)).loads ⟨"/b"⟩ (given 2) = []
  := by
  obtain ⟨hkeys, -, hloads, -⟩ := keysByRecency_after 2 (early ++ (⟨"/c"⟩, fun _ => .error "gone") :: late)
  have hrecent : recent (max 2 1) ((empty 2 : Recency Path Nat).successes
      (early ++ (⟨"/c"⟩, fun _ => .error "gone") :: late)) = [⟨"/d"⟩, ⟨"//b/"⟩] := rfl
  rw [hrecent] at hkeys hloads
  refine ⟨hkeys, (hloads _ _).trans rfl, ?_⟩
  have hok : ∀ call ∈ early ++ late, ∃ value, call.2 call.1 = .ok value := by
    simp only [early, late, List.cons_append, List.nil_append, List.forall_mem_cons]
    exact ⟨⟨1, rfl⟩, ⟨2, rfl⟩, ⟨3, rfl⟩, ⟨4, rfl⟩, nofun⟩
  obtain ⟨-, -, hloads, hmore⟩ := keysByRecency_after 2 (early ++ late)
  have hrecent : recent (max 2 1) ((empty 2 : Recency Path Nat).successes (early ++ late)) =
      [⟨"/d"⟩, ⟨"//b/"⟩] := rfl
  rw [hrecent] at hloads
  exact hmore 3 (by decide) hok ⟨"/b"⟩ (given 2) ((hloads _ _).trans rfl)

end Recency

/-! ### What a cache has been given -/

section

namespace Recency

variable {κ ν ε : Type} [BEq κ] {P : κ → ν → Prop} {r : Recency κ ν}

/-- Every value that a cache holds is related to its key. -/
def Holds (P : κ → ν → Prop) (r : Recency κ ν) : Prop :=
  ∃ order l, Represents r order l ∧ ∀ e ∈ l.entries, P e.1 e.2

theorem holds_empty (P : κ → ν → Prop) (capacity : Nat) :
  Holds P (Recency.empty capacity)
  :=
  ⟨_, _, represents_empty capacity, nofun⟩

omit [BEq κ] in
theorem mem_push {l : RecencyList κ ν} {entry e : κ × ν} (he : e ∈ (l.push entry).2.entries) :
  e = entry ∨ e ∈ l.entries
  := by
  rw [RecencyList.push] at he
  split at he
  · exact List.mem_cons.mp (List.dropLast_subset _ he)
  · exact List.mem_cons.mp he

variable [EquivBEq κ]

/-- A value that is asked for is related to the key asked for, and so are all that the cache holds from then on,
if what is loaded is and the relation does not tell equal keys apart. -/
theorem Holds.getOrLoad (h : Holds P r) {key : κ} {load : κ → Except ε ν}
    (hcongr : ∀ k value, (k == key) = true → P k value → P key value)
    (hload : ∀ value, load key = .ok value → P key value) :
  (∀ value, (r.getOrLoad key load).1 = .ok value → P key value) ∧ Holds P (r.getOrLoad key load).2
  := by
  obtain ⟨order, l, hrepresents, hentries⟩ := h
  obtain ⟨hreply, order', hafter⟩ := hrepresents.getOrLoad key load
  suffices hlist : (∀ value, (l.getOrLoad key load).1 = .ok value → P key value) ∧
      ∀ e ∈ (l.getOrLoad key load).2.entries, P e.1 e.2 by
    exact ⟨fun value hvalue => hlist.1 value (hreply.symm.trans hvalue), order', _, hafter, hlist.2⟩
  rw [RecencyList.getOrLoad]
  cases hfind : l.find? key with
  | some found =>
    have hmem : found ∈ l.entries := List.mem_of_find?_eq_some hfind
    have hkey : (found.1 == key) = true := by
      rw [RecencyList.find?] at hfind
      exact List.find?_some (p := fun e : κ × ν => e.1 == key) hfind
    refine ⟨fun value hvalue => ?_, fun e he => ?_⟩
    · cases hvalue
      exact hcongr _ _ hkey (hentries _ hmem)
    · rcases List.mem_cons.mp he with rfl | he
      · exact hentries _ hmem
      · exact hentries e (List.mem_of_mem_eraseP he)
  | none =>
    cases hloaded : load key with
    | error e =>
      refine ⟨fun value hvalue => ?_, hentries⟩
      cases hvalue
    | ok value =>
      refine ⟨fun other hother => ?_, fun e he => ?_⟩
      · cases hother
        exact hload _ hloaded
      · simp only [RecencyList.insert, hfind] at he
        rcases mem_push he with rfl | he
        · exact hload _ hloaded
        · exact hentries e he

/-- Where a value cannot be had, it cannot be loaded. -/
theorem error_of_getOrLoad (h : Holds P r) {key : κ} {load : κ → Except ε ν} {e : ε}
    (herror : (r.getOrLoad key load).1 = .error e) :
  load key = .error e
  := by
  obtain ⟨order, l, hrepresents, -⟩ := h
  rw [(hrepresents.getOrLoad key load).1, RecencyList.getOrLoad] at herror
  split at herror
  · cases herror
  · split at herror
    · cases herror
    · rename_i hloaded
      cases herror
      exact hloaded

end Recency

end

end CallGraph
