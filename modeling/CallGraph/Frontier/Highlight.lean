import CallGraph.Element
import CallGraph.Log
import CallGraph.Signals
import CallGraph.TextCache

/-!
# Showing source text

A `Highlighter` shows the source of the selected row: it sends the text of the row's file and the stretch to
mark to a sink.  A text that the sink already has is not sent again.  A highlight is loaded, checked once
more for cancellation, and delivered; a row without readable source resets the sink.
-/

namespace CallGraph

/-- What a sink is told. -/
inductive SinkEvent where
  /-- To mark a stretch, in the text given or, with `reuse`, in the one it has. -/
  | render (reuse : Bool) (text : String) (span : CallPosition)
  /-- To show nothing. -/
  | reset
  deriving BEq

/-- How far a highlight has come. -/
inductive Highlight.Stage where
  | queued
  /-- What is to be told to the sink is known. -/
  | loaded (event : SinkEvent)
  /-- The highlight was not cancelled in the meantime, or else resets the sink. -/
  | checked (event : SinkEvent)

/-- A row's source on its way to the sink. -/
structure Highlight where
  element : Element
  stage : Highlight.Stage := .queued

/-- The texts read and the file that the sink shows. -/
structure Highlighter where
  cache : TextCache
  rendered : Option Path := none

namespace Highlighter

/-- A highlighter that keeps some texts. -/
def empty (capacity : Nat) : Highlighter :=
  { cache := Recency.empty capacity }

/-- What to tell the sink of an element. -/
def load (h : Highlighter) (files : FileTree) (e : Element) : SinkEvent × Highlighter × List LogLine :=
  match e.callPosition.path with
  | none => (.reset, h, [])
  | some path =>
    if h.rendered == some path then (.render true "" e.callPosition, h, [])
    else
      match TextCache.read h.cache files path with
      | (.ok text, cache) => (.render false text e.callPosition, { h with cache }, [])
      | (.error cause, cache) =>
        (.reset, { cache, rendered := none }, [.warn s!"Cannot show source of {path}: {cause.message}"])

/-- The event of a highlight that may have been cancelled in the meantime. -/
def check (cancelled : Bool) (event : SinkEvent) : SinkEvent :=
  if cancelled then .reset else event

/-- The highlighter after an event.  Only a text that was shown counts as the sink's. -/
def deliver (h : Highlighter) : SinkEvent → Highlighter
  | .render _ _ span => { h with rendered := span.path }
  | .reset => h

end Highlighter

end CallGraph
