import CallGraph.Proofs.Search.Independent
import CallGraph.Proofs.Searches

/-!
# Searches among others

A search is run while others make and cancel tokens, begin and end searches, cancel all of them and change whatever else
it depends on.  A search for neighbours begins one search and ends it, so it leaves nothing behind: once it is done, the
searches under way are those that others left.
-/

namespace CallGraph

/-! ### A search among the deeds of others -/

section

variable {σ α β : Type}

/-- A request that neither makes a token nor begins or ends a search. -/
def Request.IsBystander : Request → Prop
  | .freshToken | .enter _ | .leave _ => False
  | _ => True

/-- A search that neither makes tokens nor begins or ends searches. -/
def Search.IsBystander : Search α → Prop
  | .done _ => True
  | .wait q next => q.IsBystander ∧ ∀ reply, (next reply).IsBystander

namespace Search

theorem IsBystander.bind {s : Search α} {f : α → Search β} (h : s.IsBystander) (hf : ∀ a, (f a).IsBystander) :
  (s >>= f).IsBystander
  := by
  induction s with
  | done a => exact hf a
  | wait q next ih => exact ⟨h.1, fun reply => ih reply (h.2 reply)⟩

theorem Heeds.isBystander {c : Conduct} {stop : α → Prop} {s : Search α} (h : s.Heeds c stop) :
  s.IsBystander
  := by
  induction s with
  | done a => trivial
  | wait q next ih =>
    refine ⟨?_, fun reply => ih reply (h.2 reply)⟩
    cases q with
    | freshToken | enter _ | leave _ => exact h.1
    | _ => trivial

theorem isBystander_report (e : ProviderError) (context : String) :
  (report e context).IsBystander
  :=
  (heeds_report (c := ⟨fun _ => False, fun _ => False, False⟩) e context).isBystander

theorem isBystander_nodes (vs : List Vertex) :
  (nodes vs).IsBystander
  := by
  induction vs with
  | nil => trivial
  | cons v vs ih => exact ⟨trivial, fun _ => ih.bind fun _ => trivial⟩

end Search

/-- A search run among the deeds of others, who may change everything else as well and the provider's mind, so that it
may be answered anything. -/
inductive Workspace.RunsAmong : Search α → Workspace σ → List Deed → α → Workspace σ → Prop
  | done (a : α) (w : Workspace σ) : RunsAmong (.done a) w [] a w
  | perform {q : Request} {next : q.Reply → Search α} {w w' : Workspace σ} {others : List Deed} {a : α}
    (h : RunsAmong (next (w.perform q).1) (w.perform q).2 others a w') : RunsAmong (.wait q next) w others a w'
  | beside {s : Search α} {w w' : Workspace σ} {d : Deed} {others : List Deed} {a : α}
    (h : RunsAmong s { w with searches := w.searches.act d } others a w') : RunsAmong s w (d :: others) a w'
  | elsewhere {s : Search α} {w u w' : Workspace σ} {others : List Deed} {a : α} (hsearches : u.searches = w.searches)
    (hp : u.provider.LeavesSearches) (h : RunsAmong s u others a w') : RunsAmong s w others a w'

namespace Workspace

variable {w w' : Workspace σ} {others : List Deed}

theorem searches_perform_bystander (hp : w.provider.LeavesSearches) {q : Request} (hq : q.IsBystander) :
  (w.perform q).2.searches = w.searches
  := by
  cases q with
  | pose q => exact hp.pose q ⟨w.analysis, w.searches⟩
  | await q token => exact hp.answer w.files q token ⟨w.analysis, w.searches⟩
  | freshToken | enter _ | leave _ => cases hq
  | _ => rfl

namespace RunsAmong

/-- A search that waits has its reply after some deeds of others. -/
theorem of_wait {q : Request} {next : q.Reply → Search α} {a : α} (h : RunsAmong (.wait q next) w others a w')
    (hp : w.provider.LeavesSearches) :
  ∃ before after, ∃ u : Workspace σ, others = before ++ after ∧ u.searches = w.searches.acts before ∧
    u.provider.LeavesSearches ∧ RunsAmong (next (u.perform q).1) (u.perform q).2 after a w'
  := by
  generalize hs : Search.wait q next = s at h
  induction h with
  | done => cases hs
  | perform h ih =>
    cases hs
    exact ⟨[], _, _, rfl, rfl, hp, h⟩
  | @beside s w w' d others a h ih =>
    obtain ⟨before, after, u, rfl, hsearches, hu, hrest⟩ := ih hp hs
    exact ⟨d :: before, after, u, rfl, hsearches, hu, hrest⟩
  | elsewhere hsearches hp' h ih =>
    obtain ⟨before, after, u, rfl, hsearches', hu, hrest⟩ := ih hp' hs
    exact ⟨before, after, u, rfl, hsearches ▸ hsearches', hu, hrest⟩

/-- One search after the other. -/
theorem of_bind {s : Search α} {f : α → Search β} {b : β} (h : RunsAmong (s >>= f) w others b w') :
  ∃ before after a u, others = before ++ after ∧ RunsAmong s w before a u ∧ RunsAmong (f a) u after b w'
  := by
  generalize ht : (s >>= f) = t at h
  induction h generalizing s with
  | done b w =>
    cases s with
    | done a =>
      have hrest : f a = .done b := ht
      exact ⟨[], [], a, w, rfl, .done a w, hrest ▸ .done b w⟩
    | wait q next => cases ht
  | @perform q next w w' others b h ih =>
    cases s with
    | done a =>
      have hrest : f a = .wait q next := ht
      exact ⟨[], others, a, w, rfl, .done a w, hrest ▸ .perform h⟩
    | wait q' next' =>
      cases ht
      obtain ⟨before, after, a, u, rfl, hfirst, hrest⟩ := ih rfl
      exact ⟨before, after, a, u, rfl, .perform hfirst, hrest⟩
  | beside h ih =>
    obtain ⟨before, after, a, u, rfl, hfirst, hrest⟩ := ih ht
    exact ⟨_ :: before, after, a, u, rfl, .beside hfirst, hrest⟩
  | elsewhere hsearches hp h ih =>
    obtain ⟨before, after, a, u, rfl, hfirst, hrest⟩ := ih ht
    exact ⟨before, after, a, u, rfl, .elsewhere hsearches hp hfirst, hrest⟩

/-- A search that does nothing to the searches leaves them as others do. -/
theorem of_bystander {s : Search α} {a : α} (h : RunsAmong s w others a w') (hs : s.IsBystander)
    (hp : w.provider.LeavesSearches) :
  w'.searches = w.searches.acts others ∧ w'.provider.LeavesSearches
  := by
  induction h with
  | done => exact ⟨rfl, hp⟩
  | perform h ih =>
    rw [← searches_perform_bystander hp hs.1]
    exact ih (hs.2 _) (by rwa [perform_provider])
  | beside h ih => exact ih hs hp
  | elsewhere hsearches hp' h ih =>
    rw [← hsearches]
    exact ih hs hp'

/-- Left alone, a search runs to its end. -/
theorem run (s : Search α) (w : Workspace σ) :
  RunsAmong s w [] (w.run s).1 (w.run s).2
  := by
  induction s generalizing w with
  | done a => exact .done a w
  | wait q next ih => exact .perform (ih _ _)

end RunsAmong

end Workspace

end

/-! ### Searches for neighbours -/

/-- Among the deeds of others a search was begun for a caller and ended.  Its entry is gone, and the others are those
that would be left had it not ended. -/
def Searches.Hosts (c : Searches) (caller : Token) (others : List Deed) (c' : Searches) : Prop :=
  ∃ before during after search, others = before ++ (during ++ after) ∧
    ((c.acts before).enter caller).1 = search ∧
    c' = c.acts (before ++ .enter caller :: (during ++ .leave search :: after)) ∧
    c'.live = (c.acts (before ++ .enter caller :: (during ++ after))).live.filter (· != search)

namespace Searches

variable {c c' : Searches}

theorem acts_append (c : Searches) (before after : List Deed) :
  c.acts (before ++ after) = (c.acts before).acts after
  :=
  List.foldl_append

theorem acts_cons (c : Searches) (d : Deed) (deeds : List Deed) :
  c.acts (d :: deeds) = (c.act d).acts deeds
  :=
  rfl

theorem next_le_acts (c : Searches) (deeds : List Deed) :
  c.signals.next ≤ (c.acts deeds).signals.next
  := by
  induction deeds generalizing c with
  | nil => exact Nat.le_refl _
  | cons d deeds ih => exact Nat.le_trans (c.next_le_act d) (ih _)

/-- What is done after a search ended does not depend on whether it did, as far as the other entries go. -/
theorem live_acts_of_left {caller : Token} {number : Nat} (hnumber : number < c.signals.next)
    (hnext : c'.signals.next = c.signals.next) (hlive : c'.live = c.live.filter (· != .under caller number))
    (deeds : List Deed) :
  (c'.acts deeds).live = (c.acts deeds).live.filter (· != .under caller number)
  := by
  induction deeds generalizing c c' with
  | nil => exact hlive
  | cons d deeds ih =>
    apply ih (Nat.lt_of_lt_of_le hnumber (c.next_le_act d))
    · rw [next_act, next_act, hnext]
    · cases d with
      | enter upper =>
        have hnew : (Token.under upper c.signals.next != .under caller number) = true := by
          rw [bne_iff_ne]
          rintro ⟨⟩
          exact Nat.lt_irrefl _ hnumber
        have hother : [Token.under upper c.signals.next] =
            [Token.under upper c.signals.next].filter (· != .under caller number) :=
          (List.filter_eq_self.mpr fun t ht => List.mem_singleton.mp ht ▸ hnew).symm
        have hentered : (c'.act (.enter upper)).live = c'.live ++ [.under upper c'.signals.next] := rfl
        rw [hentered, hnext, hlive, hother, ← List.filter_append]
        rfl
      | leave search =>
        have hleft : (c'.act (.leave search)).live = c'.live.filter (· != search) := rfl
        rw [hleft, hlive, List.filter_comm]
        rfl
      | _ => exact hlive

/-- A search that is begun and ended among the deeds of others takes its own entry away with it. -/
theorem hosts (c : Searches) (caller : Token) (before during after : List Deed) :
  c.Hosts caller (before ++ (during ++ after))
    (c.acts (before ++ .enter caller :: (during ++ .leave ((c.acts before).enter caller).1 :: after)))
  := by
  refine ⟨before, during, after, _, rfl, rfl, rfl, ?_⟩
  simp only [acts_append, acts_cons]
  have hnumber : (c.acts before).signals.next < (((c.acts before).act (.enter caller)).acts during).signals.next :=
    next_le_acts ((c.acts before).act (.enter caller)) during
  generalize ((c.acts before).act (.enter caller)).acts during = held at hnumber ⊢
  have hleft : (held.act (.leave ((c.acts before).enter caller).1)).signals.next = held.signals.next := rfl
  exact live_acts_of_left hnumber hleft rfl after

/-- More deeds of others after a search ended. -/
theorem Hosts.more {caller : Token} {others : List Deed} (h : c.Hosts caller others c') (more : List Deed) :
  c.Hosts caller (others ++ more) (c'.acts more)
  := by
  obtain ⟨before, during, after, _, rfl, rfl, rfl, -⟩ := h
  have hhosts := c.hosts caller before during (after ++ more)
  rwa [← acts_append, List.append_assoc, List.append_assoc, List.append_assoc, List.cons_append, List.append_assoc,
    List.cons_append]

end Searches

namespace Workspace.RunsAmong

variable {σ : Type} {w w' : Workspace σ} {caller : Token} {others : List Deed}

/-- A search that ends with its result. -/
theorem of_leaving {search : Token} {found vs : List Vertex}
    (h : RunsAmong (.wait (.leave search) fun _ => .done found) w others vs w') (hp : w.provider.LeavesSearches) :
  ∃ before after, others = before ++ after ∧ w'.searches = w.searches.acts (before ++ .leave search :: after) ∧
    w'.provider.LeavesSearches
  := by
  obtain ⟨before, after, u, rfl, hbefore, hu, hdone⟩ := h.of_wait hp
  obtain ⟨hafter, hw'⟩ := hdone.of_bystander trivial hu
  have hleft : (u.perform (.leave search)).2.searches = u.searches.act (.leave search) := rfl
  refine ⟨before, after, rfl, ?_, hw'⟩
  rw [hafter, hleft, hbefore, Searches.acts_append]
  rfl

/-- Whatever a search for neighbours found, it ends. -/
theorem of_closing {search : Token} {context : String} {result : Except ProviderError (List Vertex)} {vs : List Vertex}
    (h : RunsAmong (Search.closing search context result) w others vs w') (hp : w.provider.LeavesSearches) :
  ∃ before after, others = before ++ after ∧ w'.searches = w.searches.acts (before ++ .leave search :: after) ∧
    w'.provider.LeavesSearches
  := by
  cases result with
  | ok found => exact of_leaving h hp
  | error e =>
    obtain ⟨reporting, rest, _, u, rfl, hreport, hrest⟩ := of_bind h
    obtain ⟨hreported, hu⟩ := hreport.of_bystander (Search.isBystander_report e context) hp
    obtain ⟨before, after, rfl, hleft, hw'⟩ := of_leaving hrest hu
    refine ⟨reporting ++ before, after, (List.append_assoc _ _ _).symm, ?_, hw'⟩
    rw [hleft, hreported, ← Searches.acts_append, List.append_assoc]

theorem of_neighbours {context : String} {find : Token → Finding (List Vertex)} {vs : List Vertex}
    (h : RunsAmong (Search.neighbours caller context find) w others vs w')
    (hfind : ∀ search, (find search).run.IsBystander) (hp : w.provider.LeavesSearches) :
  w.searches.Hosts caller others w'.searches ∧ w'.provider.LeavesSearches
  := by
  obtain ⟨before, rest, u, rfl, hbefore, hu, hbegun⟩ := h.of_wait hp
  replace hbegun : RunsAmong (Search.begun (u.perform (.enter caller)).1 context (find (u.perform (.enter caller)).1))
    (u.perform (.enter caller)).2 rest vs w' := hbegun
  rw [Search.begun_eq] at hbegun
  obtain ⟨finding, closing, result, u', rfl, hfound, hclosing⟩ := of_bind hbegun
  obtain ⟨hfinding, hu'⟩ := hfound.of_bystander (hfind _) hu
  obtain ⟨reporting, after, rfl, hleft, hw'⟩ := hclosing.of_closing hu'
  have hentered : (u.perform (.enter caller)).2.searches = (w.searches.acts before).act (.enter caller) :=
    congrArg (·.act (.enter caller)) hbefore
  have hsearch : (u.perform (.enter caller)).1 = ((w.searches.acts before).enter caller).1 :=
    congrArg (fun c => (Searches.enter c caller).1) hbefore
  have hhosts := w.searches.hosts caller before (finding ++ reporting) after
  have hdeeds : w'.searches = w.searches.acts (before ++ .enter caller :: (finding ++ reporting ++
      .leave ((w.searches.acts before).enter caller).1 :: after)) := by
    rw [hleft, hfinding, hentered, hsearch]
    simp only [Searches.acts_append, Searches.acts_cons]
  rw [hdeeds, ← List.append_assoc finding]
  exact ⟨hhosts, hw'⟩

theorem of_nodes {vs : List Vertex} {ns : List Node} (h : RunsAmong (Search.nodes vs) w others ns w')
    (hp : w.provider.LeavesSearches) :
  w'.searches = w.searches.acts others
  :=
  (h.of_bystander (Search.isBystander_nodes vs) hp).1

end Workspace.RunsAmong

/-- What a search for neighbours of a node does to the searches among the deeds of others.  An organizer has its
neighbours at hand. -/
def Node.IsHosted (n : Node) (caller : Token) (c : Searches) (others : List Deed) (c' : Searches) : Prop :=
  match n with
  | .analyzed _ _ => c.Hosts caller others c'
  | .organizer _ _ _ _ => c' = c.acts others

namespace Workspace.RunsAmong

variable {σ : Type} {w w' : Workspace σ} {caller : Token} {others : List Deed} {ns : List Node}

/-- The neighbours of a vertex that were found become nodes. -/
theorem of_neighbours_nodes {context : String} {find : Token → Finding (List Vertex)}
    (h : RunsAmong (Search.neighbours caller context find >>= Search.nodes) w others ns w')
    (hfind : ∀ search, (find search).run.IsBystander) (hp : w.provider.LeavesSearches) :
  w.searches.Hosts caller others w'.searches
  := by
  obtain ⟨before, after, vs, u, rfl, hfound, hnodes⟩ := of_bind h
  obtain ⟨hhosts, hu⟩ := hfound.of_neighbours hfind hp
  rw [hnodes.of_nodes hu]
  exact hhosts.more after

theorem children {n : Node} (h : RunsAmong (n.children caller) w others ns w') (hp : w.provider.LeavesSearches) :
  n.IsHosted caller w.searches others w'.searches
  := by
  cases n with
  | analyzed number v => exact of_neighbours_nodes h (fun search => (Finding.heeds_children v search).isBystander) hp
  | organizer number element parents children => exact (h.of_bystander trivial hp).1

theorem parents {n : Node} (h : RunsAmong (n.parents caller) w others ns w') (hp : w.provider.LeavesSearches) :
  n.IsHosted caller w.searches others w'.searches
  := by
  cases n with
  | analyzed number v => exact of_neighbours_nodes h (fun search => (Finding.heeds_parents v search).isBystander) hp
  | organizer number element parents children => exact (h.of_bystander trivial hp).1

end Workspace.RunsAmong

/-- Whatever callers and searches do, as many searches are under way as have begun and not ended.  The token of a search
is cancelled exactly when that of its caller is, or when all searches were cancelled before it ended; cancelling all
searches cancels neither a token that a caller made nor a search that begins later.  Once the neighbours of a node are
found, or not, the entry of the search is gone and the others are as they would be with it, whatever others do
meanwhile. -/
theorem Register.account_exact :
  (∀ deeds r, Reached deeds r →
    r.searches.inFlight = (r.guards.filter fun g => .leave g.search ∉ deeds).length ∧
    (∀ g ∈ r.guards, r.searches.isCancelled g.search = true ↔
      r.searches.isCancelled g.caller = true ∨ WasSwept deeds g) ∧
    (∀ t ∈ r.made, (r.searches.isCancelled t = true ↔ ∃ u, .cancel u ∈ deeds ∧ u.Covers t) ∧
      r.searches.cancelAll.isCancelled t = r.searches.isCancelled t) ∧
    ∀ later r', Reached (deeds ++ .cancelAll :: later) r' → .cancelAll ∉ later →
      ∀ g ∈ r'.guards, g ∉ r.guards → r'.searches.isCancelled g.search = r'.searches.isCancelled g.caller) ∧
  ∀ (σ : Type) (w w' : Workspace σ) (n : Node) (caller : Token) (others : List Deed) (ns : List Node),
    w.provider.LeavesSearches →
    (w.RunsAmong (n.children caller) others ns w' ∨ w.RunsAmong (n.parents caller) others ns w') →
    n.IsHosted caller w.searches others w'.searches
  := by
  refine ⟨fun deeds r h => ⟨h.accounts.inFlight, fun g hg => h.accounts.isCancelled_search h hg, ?_, ?_⟩, ?_⟩
  · exact fun t ht => ⟨h.accounts.isCancelled_made h ht, h.isCancelled_cancelAll ht⟩
  · exact fun later r' h' hlater g hg hnew => h.isCancelled_later h' hlater hg hnew
  · rintro σ w w' n caller others ns hp (h | h)
    · exact h.children hp
    · exact h.parents hp

/-! ### A sweep -/

/-- Two searches begin for one caller, and one of them ends before all are cancelled. -/
def sweepingDeeds : List Deed :=
  [.make, .enter (.root 0), .enter (.root 0), .leave (.under (.root 0) 1), .cancelAll]

/-- What comes of it. -/
def sweptRegister : Register :=
  sweepingDeeds.foldl Register.act {}

theorem Register.reached_swept :
  Reached sweepingDeeds sweptRegister
  := by
  have hmade := Reached.start.deed (d := .make) trivial
  have hfirst := hmade.deed (d := .enter (.root 0)) (by decide)
  have hsecond := hfirst.deed (d := .enter (.root 0)) (by decide)
  have hleft := hsecond.deed (d := .leave (.under (.root 0) 1)) (by decide)
  exact hleft.deed (d := .cancelAll) trivial

/-- One search is left, and it is cancelled because it was swept, since its caller is not.  A search that begins after
the next sweep is as little cancelled as its caller.  A search for children that is swept as soon as it began leaves no
entry behind. -/
theorem Register.account_exact_swept :
  Reached sweepingDeeds sweptRegister ∧ sweptRegister.searches.inFlight = 1 ∧
    sweptRegister.searches.isCancelled (.root 0) = false ∧ WasSwept sweepingDeeds ⟨.under (.root 0) 2, .root 0⟩ ∧
    ((sweptRegister.act .cancelAll).act (.enter (.root 0))).searches.isCancelled (.under (.root 0) 3) = false ∧
    ∃ w' ns, { Workspace.fixed usedAnswers with searches := sweptRegister.searches }.RunsAmong
        (usedFunction.children (.root 0)) [.cancelAll] ns w' ∧
      sweptRegister.searches.Hosts (.root 0) [.cancelAll] w'.searches
  := by
  obtain ⟨hinFlight, hcancelled, -, hlater⟩ := account_exact.1 _ _ reached_swept
  have hcaller : sweptRegister.searches.isCancelled (.root 0) = false := rfl
  have hswept : WasSwept sweepingDeeds ⟨.under (.root 0) 2, .root 0⟩ :=
    ((hcancelled _ (.tail _ (.head _))).mp rfl).resolve_left (by rw [hcaller]; exact Bool.false_ne_true)
  have hnext : Reached (sweepingDeeds ++ .cancelAll :: [.enter (.root 0)]) _ :=
    (reached_swept.deed (d := .cancelAll) trivial).deed (d := .enter (.root 0)) (by decide)
  have hbegun := hlater _ _ hnext (by decide) ⟨.under (.root 0) 3, .root 0⟩ (.tail _ (.tail _ (.head _))) (by decide)
  let w : Workspace Unit := { Workspace.fixed usedAnswers with searches := sweptRegister.searches }
  have hruns : w.RunsAmong (usedFunction.children (.root 0)) [.cancelAll] _ _ := .perform (.beside (.run _ _))
  exact ⟨reached_swept, hinFlight, hcaller, hswept, hbegun, _, _, hruns,
    account_exact.2 _ w _ usedFunction _ _ _ (Provider.fixed_leavesSearches _) (.inl hruns)⟩

end CallGraph
