import Pgw.Lib.TransitionSystem

/-!
# Edge-triggered consumers

A producer appends to a queue, and every item raises an edge. A consumer waits for an
edge, lowers it, and takes items in order until it has found the queue empty; only then
does it wait again. An edge that is lowered early would leave items behind that nobody
comes for. The discipline that prevents this is to wait on an empty queue only.

## Main definitions

* `Channel` — the queue, the edge, the consumer, and what has gone in and out.
* `Step` — an item, the end of a wait, an item taken, a wait begun.

## Main results

* `fair_of_reachable` — no item waits without an edge, and items leave in the order they
  came.
-/
namespace EdgeTriggered
open TransitionSystem

universe u
variable {α : Type u}

structure Channel (α : Type u) where
  queue : List α
  edge : Bool
  waiting : Bool
  produced : List α
  consumed : List α

inductive Act (α : Type u) where
  | produce (a : α)
  | wake
  | take (a : α)
  /-- The queue has been found empty; the consumer waits. -/
  | rest

inductive Step : Channel α → Act α → Channel α → Prop where
  | produce {c : Channel α} (a : α) : Step c (.produce a)
      { c with queue := c.queue ++ [a], edge := true, produced := c.produced ++ [a] }
  | wake {c : Channel α} (hwaiting : c.waiting = true) (hedge : c.edge = true) :
      Step c .wake { c with edge := false, waiting := false }
  | take {c : Channel α} {a : α} {queue : List α} (hwaiting : c.waiting = false)
      (hqueue : c.queue = a :: queue) :
      Step c (.take a) { c with queue := queue, consumed := c.consumed ++ [a] }
  | rest {c : Channel α} (hwaiting : c.waiting = false) (hempty : c.queue = []) :
      Step c .rest { c with waiting := true }

/-- Nothing has been taken, the consumer waits, and what is there has raised its edge. -/
structure Channel.Initial (c : Channel α) : Prop where
  waiting : c.waiting = true
  edge : c.edge = true ∨ c.queue = []
  produced : c.produced = c.queue
  consumed : c.consumed = []

/-- Items leave in the order they came and none is lost, and while items are there a wait
will end. -/
structure Fair (c : Channel α) : Prop where
  ordered : c.produced = c.consumed ++ c.queue
  edge : c.waiting = true → c.edge = true ∨ c.queue = []

theorem Fair.initial {c : Channel α} (h : c.Initial) : Fair c where
  ordered := by rw [h.produced, h.consumed, List.nil_append]
  edge _ := h.edge

theorem Fair.step {c c' : Channel α} {act : Act α} (hc : Fair c) (h : Step c act c') : Fair c' := by
  cases h with
  | produce a => exact ⟨by simp [hc.ordered], fun _ => Or.inl rfl⟩
  | wake _ _ => exact ⟨hc.ordered, fun h => by cases h⟩
  | take hwaiting hqueue =>
      refine ⟨by simp [hc.ordered, hqueue], fun h => ?_⟩
      rw [show (_ : Bool) = true from h] at hwaiting
      cases hwaiting
  | rest _ hempty => exact ⟨hc.ordered, fun _ => Or.inr hempty⟩

theorem fair_of_reachable {c : Channel α} (h : Reachable Channel.Initial Step c) : Fair c :=
  h.invariant (fun _ h => Fair.initial h) fun _ _ _ hc hstep => hc.step hstep

end EdgeTriggered
