import CallGraph.CommandLine.Printout
import CallGraph.Proofs.Files.Lookup
import CallGraph.Proofs.Frontier.Worker
import CallGraph.Proofs.Recency.History

/-!
# Printing what is highlighted

Rows are highlighted one after another and a `SourcePrinter` prints the lines.  A highlighter remembers which file
it had rendered last and does not send its text again; the printer loses its text whenever it is reset.  The text
that the printer has is therefore the right one, but it may be missing: the highlighter forgets the file if it
cannot be read, and does not if a row has no place, or if a highlight is cancelled while its text is loaded.  What is
printed is a part of what would be printed if every text were sent, and all of it as long as no highlight ends in
one of these two ways.
-/

namespace CallGraph

/-- An element that is to be highlighted. -/
structure Showing where
  element : Element
  /-- The highlight is cancelled before it begins. -/
  skipped : Bool := false
  /-- The highlight is cancelled after it began, before the last check. -/
  interrupted : Bool := false

namespace Showing

/-- What a sink is told that is sent every text. -/
def sent (files : FileTree) (s : Showing) : List SinkEvent :=
  if s.skipped then []
  else if s.interrupted then [.reset]
  else
    match s.element.callPosition.path with
    | none => [.reset]
    | some path =>
      match files.readText path with
      | .ok text => [.render false text s.element.callPosition]
      | .error _ => [.reset]

/-- The path of an element, if it has one, does not ask for a directory. -/
def IsPlain (s : Showing) : Prop :=
  ∀ path, s.element.callPosition.path = some path → path.asksForDirectory = false

/-- The element has a place, and its highlight is not cancelled once it has begun. -/
def IsKept (s : Showing) : Prop :=
  s.element.callPosition.path ≠ none ∧ s.interrupted = false

end Showing

namespace Highlighter

/-- Highlights an element; gives what the sink is told. -/
def highlight (h : Highlighter) (files : FileTree) (s : Showing) : List SinkEvent × Highlighter :=
  if s.skipped then ([], h)
  else
    let (event, h, _) := h.load files s.element
    let event := check s.interrupted event
    ([event], h.deliver event)

/-- Highlights elements one after another. -/
def highlightAll (h : Highlighter) (files : FileTree) : List Showing → List SinkEvent × Highlighter
  | [] => ([], h)
  | s :: rest =>
    let (events, h) := h.highlight files s
    let (later, h) := highlightAll h files rest
    (events ++ later, h)

end Highlighter

/-! ### What a printer is told -/

namespace SourcePrinter

/-- The printer after some events. -/
def after (p : SourcePrinter) (events : List SinkEvent) : SourcePrinter :=
  events.foldl (fun p event => (p.take event).2) p

theorem lines_cons (p : SourcePrinter) (event : SinkEvent) (later : List SinkEvent) :
  p.lines (event :: later) = (p.take event).1 ++ (p.take event).2.lines later
  :=
  rfl

/-- What is printed later depends only on the text that the printer has by then. -/
theorem lines_append (p : SourcePrinter) (events later : List SinkEvent) :
  p.lines (events ++ later) = p.lines events ++ (p.after events).lines later
  := by
  induction events generalizing p with
  | nil => rfl
  | cons event events ih =>
    rw [List.cons_append, lines_cons, lines_cons, ih, List.append_assoc]
    rfl

/-- A printer that is told to reuse its text keeps it. -/
theorem after_reused (p : SourcePrinter) (text : String) (span : CallPosition) :
  p.after [.render true text span] = p
  := by
  rw [after, List.foldl_cons, List.foldl_nil, take]
  cases p with
  | mk text => cases text <;> rfl

/-- A printer that has lost its text prints nothing of it. -/
theorem lines_reused_of_none {p : SourcePrinter} (hp : p.text = none) (text : String) (span : CallPosition) :
  p.lines [.render true text span] = []
  := by
  simp only [lines, take, if_true, hp, List.append_nil]

/-- A printer that has a text prints what it would if the text were sent. -/
theorem lines_reused_of_some {p : SourcePrinter} {text : String} (hp : p.text = some text) (unsent : String)
    (span : CallPosition) :
  p.lines [.render true unsent span] = p.lines [.render false text span]
  := by
  simp only [lines, take, if_true, hp, List.append_nil, Bool.false_eq_true, if_false]

/-- What is printed of a text that is sent does not depend on what was printed before. -/
theorem lines_sent (p q : SourcePrinter) (files : FileTree) (s : Showing) :
  p.lines (s.sent files) = q.lines (s.sent files)
  := by
  rw [Showing.sent]
  repeat' split
  all_goals rfl

/-- What is printed of texts that are sent does not depend on what was printed before. -/
theorem lines_sentAll (p q : SourcePrinter) (files : FileTree) (showings : List Showing) :
  p.lines (showings.flatMap (Showing.sent files)) = q.lines (showings.flatMap (Showing.sent files))
  := by
  induction showings generalizing p q with
  | nil => rfl
  | cons s rest ih =>
    rw [List.flatMap_cons, lines_append, lines_append, lines_sent p q, ih (p.after _) (q.after _)]

end SourcePrinter

/-! ### Highlighter and printer -/

/-- Whether a text is that of a file, under some spelling of its path. -/
def FileTree.Reads (files : FileTree) (path : Path) (text : String) : Prop :=
  ∃ spelling, (spelling == path) = true ∧ files.readText spelling = .ok text

namespace Highlighter

variable {files : FileTree} {h : Highlighter} {p : SourcePrinter} {s : Showing}

/-- A highlighter keeps texts of the files, and the printer has no other text than that of the file which the
highlighter takes for rendered. -/
structure Agrees (files : FileTree) (h : Highlighter) (p : SourcePrinter) : Prop where
  cached : h.cache.Holds files.Reads
  rendered : ∀ path, h.rendered = some path →
    ∃ text, files.Reads path text ∧ (p.text = none ∨ p.text = some text)

/-- The printer has a text if the highlighter takes one for rendered. -/
def IsCurrent (h : Highlighter) (p : SourcePrinter) : Prop :=
  ∀ path, h.rendered = some path → p.text ≠ none

theorem agrees_empty (files : FileTree) (capacity : Nat) :
  Agrees files (.empty capacity) {}
  :=
  ⟨Recency.holds_empty _ _, nofun⟩

/-- What a highlighter may tell a sink of an element: there is no place, the file is the one rendered last, its
text is read, or it cannot be. -/
inductive Loads (files : FileTree) (h : Highlighter) (e : Element) : SinkEvent × Highlighter → Prop where
  | placeless (hpath : e.callPosition.path = none) :
    Loads files h e (.reset, h)
  | reused {path last : Path} (hpath : e.callPosition.path = some path) (hlast : h.rendered = some last)
      (heq : (last == path) = true) :
    Loads files h e (.render true "" e.callPosition, h)
  | read {path : Path} {text : String} {cache : TextCache} (hpath : e.callPosition.path = some path)
      (hreads : files.Reads path text) (hcache : cache.Holds files.Reads) :
    Loads files h e (.render false text e.callPosition, { h with cache })
  | unreadable {path : Path} {cause : FileError} {cache : TextCache} (hpath : e.callPosition.path = some path)
      (hfails : files.readText path = .error cause) (hcache : cache.Holds files.Reads) :
    Loads files h e (.reset, { cache, rendered := none })

theorem loads_load (hagrees : Agrees files h p) (e : Element) :
  Loads files h e ((h.load files e).1, (h.load files e).2.1)
  := by
  rw [load]
  split
  · rename_i hpath
    exact .placeless hpath
  rename_i path hpath
  split
  · rename_i hlast
    cases hrendered : h.rendered with
    | none =>
      rw [hrendered] at hlast
      cases hlast
    | some last =>
      rw [hrendered] at hlast
      exact .reused hpath hrendered hlast
  · have hcongr (k : Path) (text : String) (hk : (k == path) = true) (hreads : files.Reads k text) :
        files.Reads path text := by
      obtain ⟨spelling, hspelling, htext⟩ := hreads
      exact ⟨spelling, BEq.trans hspelling hk, htext⟩
    have hload (text : String) (htext : files.readText path = .ok text) : files.Reads path text :=
      ⟨path, BEq.rfl, htext⟩
    obtain ⟨hvalue, hholds⟩ := hagrees.cached.getOrLoad hcongr hload
    split
    · rename_i text cache hread
      rw [TextCache.read] at hread
      rw [hread] at hvalue hholds
      exact .read hpath (hvalue text rfl) hholds
    · rename_i cause cache hread
      rw [TextCache.read] at hread
      have hfails := Recency.error_of_getOrLoad hagrees.cached (congrArg Prod.fst hread)
      rw [hread] at hholds
      exact .unreadable hpath hfails hholds

/-- A text of a file is the one that is read under a plain spelling. -/
theorem readText_of_reads {path : Path} {text : String} (hreads : files.Reads path text)
    (hplain : path.asksForDirectory = false) :
  files.readText path = .ok text
  := by
  obtain ⟨spelling, heq, htext⟩ := hreads
  exact FileTree.readText_of_equal htext heq hplain

/-- What a highlighter has loaded is right for a printer that was reset. -/
theorem Loads.agrees_reset {e : Element} {event : SinkEvent} {after : Highlighter}
    (hloads : Loads files h e (event, after)) (hagrees : Agrees files h p) :
  Agrees files after {}
  := by
  have hrendered (path : Path) (hpath : h.rendered = some path) :
      ∃ text, files.Reads path text ∧ (({} : SourcePrinter).text = none ∨ ({} : SourcePrinter).text = some text) := by
    obtain ⟨text, hreads, -⟩ := hagrees.rendered path hpath
    exact ⟨text, hreads, .inl rfl⟩
  cases hloads with
  | placeless => exact ⟨hagrees.cached, hrendered⟩
  | reused => exact ⟨hagrees.cached, hrendered⟩
  | read _ _ hcache => exact ⟨hcache, hrendered⟩
  | unreadable _ _ hcache => exact ⟨hcache, nofun⟩

/-- What is told of an element, and what is printed of it: the text of a file that was sent before is missing at
worst, and is there if the printer has one whenever the highlighter relies on it. -/
theorem Agrees.highlight (hagrees : Agrees files h p) (hplain : s.IsPlain) :
  Agrees files (h.highlight files s).2 (p.after (h.highlight files s).1) ∧
    (p.lines (h.highlight files s).1).Sublist (p.lines (s.sent files)) ∧
    (IsCurrent h p → s.IsKept →
      p.lines (h.highlight files s).1 = p.lines (s.sent files) ∧
        IsCurrent (h.highlight files s).2 (p.after (h.highlight files s).1))
  := by
  cases hskipped : s.skipped with
  | true =>
    simp only [Highlighter.highlight, Showing.sent, hskipped, if_true]
    exact ⟨hagrees, .refl _, fun hcurrent _ => ⟨trivial, hcurrent⟩⟩
  | false =>
  have hloads := loads_load hagrees s.element
  simp only [Highlighter.highlight, Showing.sent, hskipped, Bool.false_eq_true, if_false]
  generalize (h.load files s.element).1 = event at hloads ⊢
  generalize (h.load files s.element).2.1 = after at hloads ⊢
  cases hinterrupted : s.interrupted with
  | true =>
    have hlost : ¬ s.IsKept := fun hkept => absurd hkept.2 (ne_false_of_eq_true hinterrupted)
    exact ⟨hloads.agrees_reset hagrees, .refl _, fun _ hkept => absurd hkept hlost⟩
  | false =>
    simp only [check, Bool.false_eq_true, if_false]
    have hcleared := hloads.agrees_reset hagrees
    cases hloads with
    | placeless hpath =>
      simp only [hpath]
      exact ⟨hcleared, .refl _, fun _ hkept => absurd hpath hkept.1⟩
    | reused hpath hlast heq =>
      obtain ⟨text, ⟨spelling, hspelling, htext⟩, hprinter⟩ := hagrees.rendered _ hlast
      have hreads : files.Reads _ text := ⟨spelling, BEq.trans hspelling heq, htext⟩
      simp only [hpath, readText_of_reads hreads (hplain _ hpath), SourcePrinter.after_reused]
      refine ⟨⟨hagrees.cached, fun path hrendered => ?_⟩, ?_, fun hcurrent _ => ⟨?_, fun _ _ => hcurrent _ hlast⟩⟩
      · cases hpath.symm.trans hrendered
        exact ⟨text, hreads, hprinter⟩
      · rcases hprinter with hnone | hsome
        · rw [SourcePrinter.lines_reused_of_none hnone]
          exact List.nil_sublist _
        · rw [SourcePrinter.lines_reused_of_some hsome]
      · exact SourcePrinter.lines_reused_of_some (hprinter.resolve_left (hcurrent _ hlast)) _ _
    | read hpath hreads hcache =>
      simp only [hpath, readText_of_reads hreads (hplain _ hpath)]
      refine ⟨⟨hcache, fun path hrendered => ?_⟩, .refl _, fun _ _ => ⟨trivial, fun _ _ => Option.some_ne_none _⟩⟩
      cases hpath.symm.trans hrendered
      exact ⟨_, hreads, .inr rfl⟩
    | unreadable hpath hfails hcache =>
      simp only [hpath, hfails]
      exact ⟨hcleared, .refl _, fun _ _ => ⟨trivial, nofun⟩⟩

/-- What is told of elements one after another, and what is printed of them. -/
theorem Agrees.highlightAll (hagrees : Agrees files h p) {showings : List Showing}
    (hplain : ∀ s ∈ showings, s.IsPlain) :
  (p.lines (h.highlightAll files showings).1).Sublist (p.lines (showings.flatMap (Showing.sent files))) ∧
    (IsCurrent h p → (∀ s ∈ showings, s.IsKept) →
      p.lines (h.highlightAll files showings).1 = p.lines (showings.flatMap (Showing.sent files)))
  := by
  induction showings generalizing h p with
  | nil => exact ⟨.refl _, fun _ _ => rfl⟩
  | cons s rest ih =>
    obtain ⟨hagrees', hsublist, hequal⟩ := hagrees.highlight (hplain s List.mem_cons_self)
    obtain ⟨hrest, hrest_equal⟩ := ih hagrees' fun t ht => hplain t (List.mem_cons_of_mem _ ht)
    have hlater : (p.after (s.sent files)).lines (rest.flatMap (Showing.sent files)) =
        (p.after (h.highlight files s).1).lines (rest.flatMap (Showing.sent files)) :=
      SourcePrinter.lines_sentAll _ _ files rest
    simp only [Highlighter.highlightAll, List.flatMap_cons, SourcePrinter.lines_append, hlater]
    refine ⟨hsublist.append hrest, fun hcurrent hkept => ?_⟩
    obtain ⟨hfirst, hcurrent'⟩ := hequal hcurrent (hkept s List.mem_cons_self)
    rw [hfirst, hrest_equal hcurrent' fun t ht => hkept t (List.mem_cons_of_mem _ ht)]

/-- What highlights print, if their paths do not ask for directories: a part of what is printed if every text is
sent, and all of it if no highlight is cancelled once it has begun and every element has a place. -/
theorem prints_sent (files : FileTree) (capacity : Nat) {showings : List Showing}
    (hplain : ∀ s ∈ showings, s.IsPlain) :
  (SourcePrinter.lines {} ((empty capacity).highlightAll files showings).1).Sublist
      (SourcePrinter.lines {} (showings.flatMap (Showing.sent files))) ∧
    ((∀ s ∈ showings, s.IsKept) →
      SourcePrinter.lines {} ((empty capacity).highlightAll files showings).1 =
        SourcePrinter.lines {} (showings.flatMap (Showing.sent files)))
  := by
  obtain ⟨hsublist, hequal⟩ := (agrees_empty files capacity).highlightAll hplain
  exact ⟨hsublist, hequal nofun⟩

/-- A file of two calls. -/
def twoCalls : FileTree :=
  { entries := [(["tmp"], .directory), (["tmp", "w"], .directory),
      (["tmp", "w", "a.py"], .file "f()\ng()\n".toUTF8 1)] }

/-- A call in a line of the file. -/
def callIn (line : UInt32) : Element :=
  { name := "f", kind := "function", module := "m", role := .child
    path := some ⟨"/tmp/w/m.py"⟩
    callPosition := ⟨some ⟨"/tmp/w/a.py"⟩, ⟨some line, some 0⟩, ⟨some line, some 1⟩⟩
    start := ⟨some 1, some 0⟩, stop := ⟨some 2, some 0⟩ }

/-- Both calls are highlighted, and in between a highlight of the first that is cancelled before it begins. -/
def bothCalls : List Showing :=
  [⟨callIn 1, false, false⟩, ⟨callIn 1, true, false⟩, ⟨callIn 2, false, false⟩]

/-- The text of the two calls is sent once, and both are printed as if it were sent for each. -/
theorem prints_sent_bothCalls :
  ((empty 2).highlightAll twoCalls bothCalls).1 ==
      [.render false "f()\ng()\n" (callIn 1).callPosition, .render true "" (callIn 2).callPosition] ∧
    (∀ s ∈ bothCalls, s.IsPlain) ∧ (∀ s ∈ bothCalls, s.IsKept) ∧
    SourcePrinter.lines {} ((empty 2).highlightAll twoCalls bothCalls).1 =
      SourcePrinter.lines {} (bothCalls.flatMap (Showing.sent twoCalls))
  := by
  have hplaces : ∀ s ∈ bothCalls,
      s.element.callPosition.path = some ⟨"/tmp/w/a.py"⟩ ∧ s.interrupted = false := by
    simp [bothCalls, callIn]
  have hplain : ∀ s ∈ bothCalls, s.IsPlain := by
    intro s hs path hpath
    cases (hplaces s hs).1.symm.trans hpath
    decide
  have hkept : ∀ s ∈ bothCalls, s.IsKept := fun s hs =>
    ⟨ne_of_eq_of_ne (hplaces s hs).1 (Option.some_ne_none _), (hplaces s hs).2⟩
  exact ⟨by decide +kernel, hplain, hkept, (prints_sent twoCalls 2 hplain).2 hkept⟩

/-- A call is highlighted before and after an element that has no place. -/
def callsAround : List Showing :=
  [⟨callIn 1, false, false⟩, ⟨{ callIn 1 with callPosition := .unknown }, false, false⟩, ⟨callIn 1, false, false⟩]

/-- After an element that has no place, the printer is told to reuse a text that it has lost. -/
theorem not_prints_sent_callsAround :
  ((empty 2).highlightAll twoCalls callsAround).1 ==
      [.render false "f()\ng()\n" (callIn 1).callPosition, .reset, .render true "" (callIn 1).callPosition] ∧
    SourcePrinter.lines {} ((empty 2).highlightAll twoCalls callsAround).1 ≠
      SourcePrinter.lines {} (callsAround.flatMap (Showing.sent twoCalls))
  := by
  decide +kernel

end Highlighter

end CallGraph
