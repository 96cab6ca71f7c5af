import CallGraph.Proofs.Search.Consulting
import CallGraph.Proofs.Source.Usages

/-!
# Parents found with an index

In a workspace whose provider answers from an index, the search for parents that is not cancelled goes through
all usages.  If one of them stands at a stretch, and the scope around every usage there is the same definition,
then this definition is among the parents, at this stretch, unless it is the module in which the vertex
itself is defined there.
-/

namespace CallGraph

open Source

variable {files : FileTree} {searchPath : List Path} {token : Token}

namespace Workspace

/-- A step of a search that has a result is followed by the next one. -/
theorem run_bind_ok {σ α β : Type} {s : Finding α} {f : α → Finding β} {w w' : Workspace σ} {a : α}
    (h : w.run s.run = (.ok a, w')) :
  w.run (s >>= f).run = w'.run (f a).run
  := by
  have hbind : (s >>= f).run = s.run >>= ExceptT.bindCont f := rfl
  rw [hbind, run_bind, h]
  rfl

/-- A step that cannot fail is followed by the next one. -/
theorem run_lift_bind {σ α β : Type} {s : Search α} {f : α → Finding β} {w w' : Workspace σ} {a : α}
    (h : w.run s = (a, w')) :
  w.run (ExceptT.lift s >>= f).run = w'.run (f a).run
  := by
  apply run_bind_ok
  have hlift : (ExceptT.lift s : Finding α).run = s >>= fun a => pure (.ok a) := rfl
  rw [hlift, run_bind, h]
  rfl

theorem run_bind_of_ok {σ α β : Type} {s : Finding α} {f : α → Finding β} {w : Workspace σ} {a : α}
    (h : (w.run s.run).1 = .ok a) :
  w.run (s >>= f).run = (w.run s.run).2.run (f a).run
  :=
  run_bind_ok (Prod.ext h rfl)

/-- A search in two steps has a result only behind one of the first step. -/
theorem exists_of_run_bind {σ α β : Type} {s : Finding α} {f : α → Finding β} {w : Workspace σ} {b : β}
    (h : (w.run (s >>= f).run).1 = .ok b) :
  ∃ a, (w.run s.run).1 = .ok a ∧ ((w.run s.run).2.run (f a).run).1 = .ok b
  := by
  have hbind : (s >>= f).run = s.run >>= ExceptT.bindCont f := rfl
  rw [hbind, run_bind] at h
  generalize w.run s.run = ran at h ⊢
  obtain ⟨result, w₁⟩ := ran
  cases result with
  | ok a => exact ⟨a, rfl, h⟩
  | error e => cases h

theorem run_bind_lift {σ α β : Type} (s : Search α) (f : α → Finding β) (w : Workspace σ) :
  w.run (ExceptT.lift s >>= f).run = (w.run s).2.run (f (w.run s).1).run
  :=
  run_lift_bind rfl

theorem run_request {σ : Type} (w : Workspace σ) (r : Request) :
  w.run (Search.request r) = w.perform r
  :=
  rfl

/-- A search that was not cancelled goes on. -/
theorem run_checkpoint {σ : Type} {w : Workspace σ} (h : w.searches.isCancelled token = false) :
  w.run (Finding.checkpoint token).run = (.ok (), w)
  := by
  unfold Finding.checkpoint Finding.request
  rw [run_lift_bind (run_request w (.isCancelled token))]
  rw [h]
  rfl

variable [Parser]

/-- A workspace whose provider answers from an index over files, for a search that was not cancelled. -/
structure Indexes (w : Workspace Index) (files : FileTree) (searchPath : List Path) (token : Token) : Prop where
  analysis : w.analysis.Reached files
  provider : w.provider = Index.provider
  files : w.files = files
  searchPath : w.analysis.searchPath = searchPath
  live : w.searches.isCancelled token = false

namespace Indexes

variable {w : Workspace Index} (h : w.Indexes files searchPath token)

include h

theorem run_checkpoint :
  w.run (Finding.checkpoint token).run = (.ok (), w)
  :=
  Workspace.run_checkpoint h.live

theorem run_log (line : LogLine) :
  ∃ w', w.run (Search.log line) = ((), w') ∧ w'.Indexes files searchPath token
  :=
  ⟨w.note line, rfl, h.analysis, h.provider, h.files, h.searchPath, h.live⟩

theorem run_report (e : ProviderError) (context : String) :
  ∃ w', w.run (Search.report e context) = ((), w') ∧ w'.Indexes files searchPath token
  := by
  unfold Search.report
  split
  · exact h.run_log _
  · have hconfig : w.getConfig.2.Indexes files searchPath token :=
      ⟨h.analysis, h.provider, h.files, h.searchPath, h.live⟩
    rw [run_bind, run_request]
    change ∃ w', w.getConfig.2.run (if w.getConfig.1.verboseErrors then _ else _) = ((), w') ∧ _
    split
    · exact hconfig.run_log _
    · exact hconfig.run_log _

/-- A question about one search path is answered by the index. -/
theorem run_ask {q : Question} (hq : ∀ x : Index, x.prepared q = x) (search : Option Token)
    (hsearch : ∀ t ∈ search, t = token) :
  ∃ w', w.run (Search.ask q search) = ((Index.answer files q w.analysis).1, w') ∧
    w'.Indexes files searchPath token
  := by
  have hw : w.Consults files := ⟨h.analysis, h.provider, h.files⟩
  have hlive : Provider.Desk.isCancelled ⟨w.analysis, w.searches⟩ search = false := by
    cases search with
    | none => rfl
    | some t =>
      rw [hsearch t rfl]
      exact h.live
  have hserves := (h.analysis.isCurrent.answer q).2
  rw [hq] at hserves
  refine ⟨{ w with analysis := (Index.answer files q w.analysis).2 }, ?_,
    ⟨h.analysis.answer q, h.provider, h.files, hserves.searchPath.trans h.searchPath, h.live⟩⟩
  rw [Search.ask, run_bind, run_request, hw.perform_pose]
  change w.perform (.await q search) = _
  rw [hw.perform_await, hlive]
  rfl

/-- A question whose failure goes no further, if it has an answer. -/
theorem run_askContained {q : Question} (hq : ∀ x : Index, x.prepared q = x) {answer : q.Answer}
    (hanswer : (Index.answer files q w.analysis).1 = .ok answer) (default : q.Answer) (context : String) :
  ∃ w', w.run (Finding.askContained q token default context).run = (.ok answer, w') ∧
    w'.Indexes files searchPath token
  := by
  obtain ⟨w', hask, hw'⟩ := h.run_ask hq (some token) (by rintro _ ⟨⟩; rfl)
  refine ⟨w', ?_, hw'⟩
  unfold Finding.askContained
  rw [run_lift_bind hask, hanswer]
  rfl

end Indexes

end Workspace

namespace Finding

/-- Whether a vertex shows a definition as a parent at a stretch. -/
def ShowsParent (p : Vertex) (e : Definition) (c : CallPosition) : Prop :=
  p.element.role = .parent ∧ (p.element.callPosition == c) = true ∧ ∃ d, p.definition = some d ∧ (d == e) = true

/-- The parent of a vertex that a scope around a usage is, unless the vertex is defined there. -/
def parentOf? (v : Vertex) (u : Usage) (d : Definition) : Option Vertex :=
  if v.isDefinedAt (Vertex.ofDefinition .parent u.position d).element then none
  else some (Vertex.ofDefinition .parent u.position d)

theorem contains_congr {c c' : CallPosition} (h : (c == c') = true) (seen : List CallPosition) :
  seen.contains c = seen.contains c'
  := by
  induction seen with
  | nil => rfl
  | cons first seen ih => rw [List.contains_cons, List.contains_cons, ih, BEq.congr_left h]

theorem isDefinedAt_congr (v : Vertex) {c c' : CallPosition} {d d' : Definition} (hc : (c == c') = true)
    (hd : (d == d') = true) :
  v.isDefinedAt (Vertex.ofDefinition .parent c d).element = v.isDefinedAt (Vertex.ofDefinition .parent c' d').element
  := by
  obtain ⟨hpath, hstart, _⟩ := CallPosition.beq_iff.mp hc
  obtain ⟨_, _, hkind, _⟩ := Definition.beq_iff.mp hd
  change ((c.path == v.element.path && c.start == v.element.start) && d.kind == Kind.moduleKind) =
    ((c'.path == v.element.path && c'.start == v.element.start) && d'.kind == Kind.moduleKind)
  rw [BEq.congr_left hpath, hstart, hkind]

variable [Parser] {w : Workspace Index}

/-- The scope around every usage at a stretch is found, and it is the same definition. -/
def EnclosesAt (files : FileTree) (searchPath : List Path) (us : List Usage) (c : CallPosition)
    (e : Definition) : Prop :=
  ∀ u ∈ us, (u.position == c) = true →
    ∃ d, (fresh files searchPath).answer (.enclosing u) = .ok d ∧ (d == e) = true

/-- The scope around a usage is what the index answers, if it has an answer. -/
theorem run_enclosing? (h : w.Indexes files searchPath token) (u : Usage) :
  ∃ w', w.run (enclosing? u).run = (.ok (Index.answer files (.enclosing u) w.analysis).1.toOption, w') ∧
    w'.Indexes files searchPath token
  := by
  obtain ⟨w', hask, hw'⟩ := h.run_ask (q := .enclosing u) (fun _ => rfl) none (by rintro _ ⟨⟩)
  have hcancelled : (Index.answer files (.enclosing u) w.analysis).1 ≠ .error .cancelled :=
    h.analysis.answer_ne_cancelled fun _ => uncancelled_enclosing u
  unfold enclosing?
  rw [Workspace.run_lift_bind hask]
  generalize (Index.answer files (.enclosing u) w.analysis).1 = answer at hcancelled ⊢
  cases answer with
  | ok d => exact ⟨w', rfl, hw'⟩
  | error e =>
    obtain ⟨w'', hreport, hw''⟩ :=
      hw'.run_report e s!"while finding the scope enclosing {u.name} at {u.position.text}"
    refine ⟨w'', ?_, hw''⟩
    cases e <;> first | exact absurd rfl hcancelled | (
      dsimp only
      rw [Workspace.run_lift_bind hreport]
      rfl)

/-- A parent that is left out with a note, or not. -/
theorem run_unless (h : w.Indexes files searchPath token) (skipped : Bool) (line : LogLine) (p : Vertex) :
  ∃ w', w.run (if skipped then do
      ExceptT.lift (Search.log line)
      pure none
    else pure (some p) : Finding (Option Vertex)).run = (.ok (if skipped then none else some p), w') ∧
    w'.Indexes files searchPath token
  := by
  cases skipped with
  | false => exact ⟨w, rfl, h⟩
  | true =>
    obtain ⟨w', hlog, hw'⟩ := h.run_log line
    refine ⟨w', ?_, hw'⟩
    rw [if_pos rfl, Workspace.run_lift_bind hlog]
    rfl

/-- The parent that a usage gives, if any. -/
theorem run_parentAt? (h : w.Indexes files searchPath token) (v : Vertex) (u : Usage) :
  ∃ w', w.run (parentAt? v u).run =
      (.ok ((Index.answer files (.enclosing u) w.analysis).1.toOption.bind (parentOf? v u)), w') ∧
    w'.Indexes files searchPath token
  := by
  obtain ⟨w₁, hrun, hw₁⟩ := run_enclosing? h u
  unfold parentAt?
  rw [Workspace.run_bind_ok hrun]
  generalize (Index.answer files (.enclosing u) w.analysis).1.toOption = enclosing
  cases enclosing with
  | none => exact ⟨w₁, rfl, hw₁⟩
  | some d =>
    dsimp only
    cases d.path with
    | none => exact run_unless hw₁ _ _ _
    | some file =>
      have hw₂ : Workspace.Indexes { w₁ with scope := w₁.scope.insert file } files searchPath token :=
        ⟨hw₁.analysis, hw₁.provider, hw₁.files, hw₁.searchPath, hw₁.live⟩
      exact run_unless hw₂ _ _ _

/-- Going through the usages, a parent is found at each stretch where the scope around is always the same,
unless one was found there before. -/
theorem run_parentsAt (h : w.Indexes files searchPath token) {v : Vertex} {c : CallPosition} {e : Definition}
    (hother : v.isDefinedAt (Vertex.ofDefinition .parent c e).element = false) (seen : List CallPosition)
    {us : List Usage} (hencloses : EnclosesAt files searchPath us c e) :
  ∃ ps w', w.run (parentsAt v token seen us).run = (.ok ps, w') ∧ w'.Indexes files searchPath token ∧
    ((∃ u ∈ us, (u.position == c) = true) → seen.contains c = false → ∃ p ∈ ps, ShowsParent p e c)
  := by
  induction us generalizing w seen with
  | nil => exact ⟨[], w, rfl, h, by rintro ⟨u, ⟨⟩, _⟩⟩
  | cons u us ih =>
    have htail_encloses : EnclosesAt files searchPath us c e := fun u' hu' =>
      hencloses u' (List.mem_cons_of_mem _ hu')
    unfold parentsAt
    rw [Workspace.run_bind_ok h.run_checkpoint]
    split
    · rename_i hseen
      obtain ⟨ps, w', hrun, hw', himp⟩ := ih h seen htail_encloses
      refine ⟨ps, w', hrun, hw', ?_⟩
      rintro ⟨u', hu', hposition⟩ hunseen
      rcases List.mem_cons.mp hu' with rfl | hu'
      · rw [Bool.and_eq_true, contains_congr hposition, hunseen] at hseen
        cases hseen.2
      · exact himp ⟨u', hu', hposition⟩ hunseen
    · rename_i hseen
      obtain ⟨w₁, hfirst, hw₁⟩ := run_parentAt? h v u
      generalize hfound : (Index.answer files (.enclosing u) w.analysis).1.toOption.bind (parentOf? v u) = found
        at hfirst
      obtain ⟨ps, w', hrun, hw', himp⟩ := ih hw₁ (if u.position.isUnknown then seen else u.position :: seen)
        htail_encloses
      refine ⟨found.toList ++ ps, w', ?_, hw', ?_⟩
      · rw [Workspace.run_bind_ok hfirst, Workspace.run_bind_ok hrun]
        rfl
      · rintro ⟨u', hu', hposition⟩ hunseen
        by_cases hhere : (u.position == c) = true
        · obtain ⟨d, hd, hde⟩ := hencloses u List.mem_cons_self hhere
          rw [← h.searchPath] at hd
          obtain ⟨d', hd', hdd'⟩ := h.analysis.answer_of_fresh (q := .enclosing u) hd
          have hequal : (d' == e) = true := BEq.trans hdd'.beq hde
          have hparent : found = some (Vertex.ofDefinition .parent u.position d') := by
            rw [← hfound, hd']
            change parentOf? v u d' = _
            rw [parentOf?, (isDefinedAt_congr v hhere hequal).trans hother]
            rfl
          refine ⟨Vertex.ofDefinition .parent u.position d', ?_, rfl, hhere, d', rfl, hequal⟩
          rw [hparent]
          exact List.mem_cons_self
        · have htail : ∃ u' ∈ us, (u'.position == c) = true := by
            rcases List.mem_cons.mp hu' with rfl | hu'
            · exact absurd hposition hhere
            · exact ⟨u', hu', hposition⟩
          have hstill : (if u.position.isUnknown then seen else u.position :: seen).contains c = false := by
            split
            · exact hunseen
            · rw [List.contains_cons, hunseen, Bool.or_false, Bool.eq_false_iff]
              exact fun hc => hhere (BEq.symm hc)
          obtain ⟨p, hp, hshows⟩ := himp htail hstill
          exact ⟨p, List.mem_append_right _ hp, hshows⟩

/-- The scope around a usage of the definition of a vertex is found among its parents. -/
theorem run_parents (h : w.Indexes files searchPath token) {v : Vertex} {d : Definition}
    (hd : v.definition = some d) (hpath : d.path.isSome = true) {us : List Usage}
    (hus : (Index.answer files (.usages (.definition d) w.scope.snapshot) w.analysis).1 = .ok us)
    {c : CallPosition} (hc : ∃ u ∈ us, (u.position == c) = true) {e : Definition}
    (hencloses : EnclosesAt files searchPath us c e)
    (hother : v.isDefinedAt (Vertex.ofDefinition .parent c e).element = false) :
  ∃ ps, (w.run (parents v token).run).1 = .ok ps ∧ ∃ p ∈ ps, ShowsParent p e c
  := by
  have hanchor : v.anchor? = some (.definition d) := by
    rw [Vertex.anchor?, hd]
    simp [hpath]
  have hscope : w.run (request .searchedFiles : Finding (List Path)).run = (.ok w.scope.snapshot, w) := rfl
  obtain ⟨w₁, hask, hw₁⟩ := h.run_askContained (q := .usages (.definition d) w.scope.snapshot)
    (fun _ => rfl) hus [] s!"while finding usages of {v.element.name}"
  obtain ⟨ps, w', hrun, _, himp⟩ := run_parentsAt hw₁ hother [] hencloses
  refine ⟨ps, ?_, himp hc rfl⟩
  unfold parents
  rw [Workspace.run_bind_ok h.run_checkpoint, Workspace.run_bind_ok hscope, hanchor]
  dsimp only
  rw [Workspace.run_bind_ok hask, Workspace.run_bind_ok hw₁.run_checkpoint]
  exact congrArg Prod.fst hrun

end Finding

end CallGraph
