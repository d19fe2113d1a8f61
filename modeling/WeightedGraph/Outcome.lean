import WeightedGraph.Error
import WeightedGraph.Event

/-!
# Outcomes

What an operation comes to: its result, or the error that stopped it, together with the events it reported.
The events that were reported before an error stay reported, so an `Outcome` is not an `Except` around a list
of events.
-/

namespace WeightedGraph

/-- A result or an error, and the events reported on the way, in order. -/
structure Outcome (α : Type) where
  result : Except GraphError α
  events : List Event

namespace Outcome

variable {α β : Type}

def ok (a : α) : Outcome α := ⟨.ok a, []⟩

def fail (e : GraphError) : Outcome α := ⟨.error e, []⟩

def report (a : α) (e : Event) : Outcome α := ⟨.ok a, [e]⟩

/-- Goes on with the result, if there is one, and adds the events of the continuation. -/
def bind (x : Outcome α) (f : α → Outcome β) : Outcome β :=
  match x.result with
  | .error e => ⟨.error e, x.events⟩
  | .ok a =>
    let y := f a
    ⟨y.result, x.events ++ y.events⟩

instance : Monad Outcome where
  pure := ok
  bind := bind

@[simp] theorem pure_def (a : α) : (pure a : Outcome α) = ok a := rfl

@[simp] theorem bind_def (x : Outcome α) (f : α → Outcome β) : x >>= f = x.bind f := rfl

@[simp] theorem bind_fail (e : GraphError) (f : α → Outcome β) : (fail e : Outcome α).bind f = fail e := rfl

theorem result_bind (x : Outcome α) (f : α → Outcome β) :
    (x.bind f).result = x.result.bind fun a => (f a).result := by
  unfold bind
  cases h : x.result <;> simp [Except.bind]

end Outcome

end WeightedGraph
