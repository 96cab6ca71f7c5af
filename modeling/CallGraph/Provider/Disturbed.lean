import CallGraph.Provider.Basic

/-!
# Disturbed providers

A provider may be disturbed at one of the questions it is asked: a token or all searches are cancelled
before or after it works on the question, or the question is refused without it being asked at all.
-/

namespace CallGraph

/-- What happens at a question. -/
inductive Mishap where
  | cancelToken (token : Token)
  | cancelSearches
  | refuse (e : ProviderError)

/-- A mishap at the `nth` question of some sort. -/
structure Disturbance where
  mishap : Mishap
  isMeant : Question → Bool
  nth : Nat := 1
  /-- Whether it happens after the question is answered, not before. -/
  afterwards : Bool := false
  /-- How many questions of the sort were asked. -/
  seen : Nat := 0
  /-- Whether it is to happen as soon as the question is answered. -/
  due : Bool := false

/-- The state of a provider and what is going to disturb it. -/
structure Disturbed (σ : Type) where
  inner : σ
  disturbance : Option Disturbance := none

namespace Disturbed

variable {σ : Type}

/-- What a mishap does to the searches. -/
def strike (m : Mishap) (c : Searches) : Searches :=
  match m with
  | .cancelToken token => c.cancel token
  | .cancelSearches => c.cancelAll
  | .refuse _ => c

/-- Lets the provider itself work. -/
def within {α : Type} (work : StateM (Provider.Desk σ) α) (d : Provider.Desk (Disturbed σ)) :
    α × Provider.Desk (Disturbed σ) :=
  let (a, inner) := work ⟨d.state.inner, d.searches⟩
  (a, ⟨{ d.state with inner := inner.state }, inner.searches⟩)

/-- Counts a question; gives what is to happen before it. -/
def count (x : Disturbed σ) (q : Question) : Option Mishap × Disturbed σ :=
  match x.disturbance with
  | none => (none, x)
  | some t =>
    if t.isMeant q then
      let t := { t with seen := t.seen + 1 }
      if t.seen = t.nth then
        match t.mishap, t.afterwards with
        | .refuse e, _ => (some (.refuse e), { x with disturbance := some t })
        | _, true => (none, { x with disturbance := some { t with due := true } })
        | m, false => (some m, { x with disturbance := some t })
      else (none, { x with disturbance := some t })
    else (none, x)

/-- Lets happen what is due after a question. -/
def settle (d : Provider.Desk (Disturbed σ)) : Provider.Desk (Disturbed σ) :=
  match d.state.disturbance with
  | some t =>
    if t.due then
      ⟨{ d.state with disturbance := some { t with due := false } }, strike t.mishap d.searches⟩
    else d
  | none => d

/-- The provider with what disturbs it. -/
def provider (p : Provider σ) : Provider (Disturbed σ) where
  name := p.name
  pose q := fun d =>
    match d.state.count q with
    | (some (.refuse e), state) => (.error e, { d with state })
    | (mishap, state) =>
      let searches := match mishap with
        | some m => strike m d.searches
        | none => d.searches
      match within (p.pose q) ⟨state, searches⟩ with
      | (.ok (), d) => (.ok (), d)
      | (.error e, d) => (.error e, settle d)
  ready q x := p.ready q x.inner
  answer files q token := fun d =>
    let (a, d) := within (p.answer files q token) d
    (a, settle d)

end Disturbed

end CallGraph
