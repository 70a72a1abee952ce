import Mathlib.Data.List.Nodup
import Mathlib.Order.Basic
import Pgw.Lib.TransitionSystem

/-!
# Linearizability, by the clock

Threads call the operations of a shared object, and what an observer sees is the
history of the invocations and responses, each with the instant that the object's
clock then showed. The history is linearizable when every answered call can be given
one instant between its invocation and its response at which it took effect alone.
Unanswered calls may have taken effect or not.

The object is a relation, so it may be nondeterministic, and it may move by itself
between two operations, but its clock does not go back: what it does by itself between
two effects, it does between their instants. A call is identified by the place of its
invocation in the history.

## Main definitions

* `Object` — what an operation does when nothing else runs, and the clock.
* `Linearization` — an order of the calls of a history that explains it.
* `Machine`, `Step` — threads whose operations take effect in one step.
* `Simulates`, `Refines` — every step of a system is a run of the machine that shows the same,
  along a relation or seen through a function.

## Main results

* `linearizable_of_run` — whatever the machine shows is linearizable.
* `Simulates.linearizable`, `Refines.linearizable` — so is whatever such a system shows.
-/
namespace Linearizability
open TransitionSystem

universe u v w x y z c
variable {ι : Type u} {ω : Type v} {ρ : Type w} {σ : Type x} {δ : Type c}

/-! ## Objects -/

/-- An object by its sequential behaviour. -/
structure Object (ω : Type v) (ρ : Type w) (σ : Type x) (δ : Type c) [Preorder δ] where
  init : σ → Prop
  clock : σ → δ
  /-- What an operation that was called at some instant does now. -/
  apply : ω → δ → σ → ρ → σ → Prop
  /-- What the object does by itself. -/
  internal : σ → σ → Prop
  clock_apply : ∀ {op since s r t}, apply op since s r t → clock s ≤ clock t
  clock_internal : ∀ {s t}, internal s t → clock s ≤ clock t

/-- A call that was made at an instant and took effect at another. -/
structure Served (ω : Type v) (ρ : Type w) (δ : Type c) where
  op : ω
  since : δ
  instant : δ
  result : ρ

section Orders
variable [Preorder δ]

/-- Calls with their results, one after the other, from one state to another, each at the
instant that the clock shows. -/
inductive Object.Legal (obj : Object ω ρ σ δ) (s : σ) : List (Served ω ρ δ) → σ → Prop where
  | nil : Legal obj s [] s
  | internal {calls : List (Served ω ρ δ)} {t t' : σ} (hcalls : Legal obj s calls t)
      (hmove : obj.internal t t') : Legal obj s calls t'
  | concat {calls : List (Served ω ρ δ)} {t t' : σ} {op : ω} {since : δ} {r : ρ}
      (hcalls : Legal obj s calls t) (hop : obj.apply op since t r t') :
      Legal obj s (calls ++ [⟨op, since, obj.clock t, r⟩]) t'

end Orders

/-! ## Histories -/

inductive Event (ι : Type u) (ω : Type v) (ρ : Type w) (δ : Type c) where
  | invoke (i : ι) (op : ω) (since : δ)
  | respond (i : ι) (r : ρ) (ended : δ)
  deriving DecidableEq

def Event.thread : Event ι ω ρ δ → ι
  | .invoke i _ _ => i
  | .respond i _ _ => i

/-- The call at place `p` is answered at place `q`, by the next event of its thread. -/
structure Answered (history : List (Event ι ω ρ δ)) (p q : ℕ) (i : ι) (op : ω) (since : δ) (r : ρ)
    (ended : δ) : Prop where
  later : p < q
  invocation : history[p]? = some (.invoke i op since)
  response : history[q]? = some (.respond i r ended)
  between : ∀ m e, p < m → m < q → history[m]? = some e → e.thread ≠ i

/-- A call by the place of its invocation. -/
structure Effect (ω : Type v) (ρ : Type w) (δ : Type c) extends Served ω ρ δ where
  place : ℕ

/-- The call at place `p` is answered before place `p'`. -/
def Precedes (history : List (Event ι ω ρ δ)) (p p' : ℕ) : Prop :=
  ∃ q i op since r ended, Answered history p q i op since r ended ∧ q < p'

section Orders
variable [Preorder δ]

/-- **An order of calls that explains a history.** It is legal for the object, holds
calls of the history only, each once, holds every answered call with its answer, and
never puts a call before one that was answered before it was made. Every call takes
effect at an instant that is no earlier than its invocation and no later than its
response. -/
structure Linearization (obj : Object ω ρ σ δ) (history : List (Event ι ω ρ δ))
    (order : List (Effect ω ρ δ)) : Prop where
  legal : ∃ s t, obj.init s ∧ obj.Legal s (order.map Effect.toServed) t
  once : (order.map Effect.place).Nodup
  called : ∀ e ∈ order, ∃ i, history[e.place]? = some (.invoke i e.op e.since) ∧
    e.since ≤ e.instant
  answered : ∀ q i r ended, history[q]? = some (.respond i r ended) →
    ∃ e ∈ order, e.result = r ∧ e.instant ≤ ended ∧
      Answered history e.place q i e.op e.since r ended
  realTime : order.Pairwise fun e e' => ¬ Precedes history e'.place e.place

def Linearizable (obj : Object ω ρ σ δ) (history : List (Event ι ω ρ δ)) : Prop :=
  ∃ order, Linearization obj history order

end Orders

/-! ## One event more -/

section Snoc
variable {history : List (Event ι ω ρ δ)} {e : Event ι ω ρ δ} {p q : ℕ} {i : ι} {op : ω}
  {since ended : δ} {r : ρ}

/-- An event of a longer history is the new one or was there. -/
theorem getElem?_snoc {e' : Event ι ω ρ δ} (h : (history ++ [e])[q]? = some e') :
    q < history.length ∧ history[q]? = some e' ∨ q = history.length ∧ e' = e := by
  rcases Nat.lt_trichotomy q history.length with hlt | heq | hgt
  · rw [List.getElem?_append_left hlt] at h
    exact Or.inl ⟨hlt, h⟩
  · subst heq
    simp only [List.getElem?_concat_length, Option.some.injEq] at h
    exact Or.inr ⟨rfl, h.symm⟩
  · have hlength : (history ++ [e]).length ≤ q := by simp; omega
    rw [List.getElem?_eq_none hlength] at h
    cases h

theorem getElem?_snoc_of_some {e' : Event ι ω ρ δ} (h : history[q]? = some e') :
    (history ++ [e])[q]? = some e' := by
  have hlt : q < history.length := (List.getElem?_eq_some_iff.mp h).1
  rw [List.getElem?_append_left hlt, h]

theorem Answered.snoc (h : Answered history p q i op since r ended) :
    Answered (history ++ [e]) p q i op since r ended where
  later := h.later
  invocation := getElem?_snoc_of_some h.invocation
  response := getElem?_snoc_of_some h.response
  between m e' hp hq he' := by
    have hlt : q < history.length := (List.getElem?_eq_some_iff.mp h.response).1
    rcases getElem?_snoc he' with ⟨_, hold⟩ | ⟨heq, _⟩
    · exact h.between m e' hp hq hold
    · omega

/-- An answer at an old place is an old answer. -/
theorem Answered.of_snoc (h : Answered (history ++ [e]) p q i op since r ended)
    (hq : q < history.length) : Answered history p q i op since r ended where
  later := h.later
  invocation := by
    have hlater := h.later
    rcases getElem?_snoc h.invocation with ⟨_, hold⟩ | ⟨heq, _⟩
    · exact hold
    · omega
  response := by
    rcases getElem?_snoc h.response with ⟨_, hold⟩ | ⟨heq, _⟩
    · exact hold
    · omega
  between m e' hp hm he' := h.between m e' hp hm (getElem?_snoc_of_some he')

/-- One event more changes nothing in the real-time order of the calls that are there. -/
theorem Precedes.of_snoc {p' : ℕ} (h : Precedes (history ++ [e]) p p')
    (hp' : p' ≤ history.length) : Precedes history p p' := by
  obtain ⟨q, j, op, since, r, ended, hanswered, hq⟩ := h
  exact ⟨q, j, op, since, r, ended, hanswered.of_snoc (by omega), hq⟩

/-- The call of thread `i` at place `p` is its last event: it is not answered yet. -/
structure Pending (history : List (Event ι ω ρ δ)) (i : ι) (op : ω) (since : δ) (p : ℕ) :
    Prop where
  invocation : history[p]? = some (.invoke i op since)
  last : ∀ m e, p < m → history[m]? = some e → e.thread ≠ i

theorem Pending.lt_length (h : Pending history i op since p) : p < history.length :=
  (List.getElem?_eq_some_iff.mp h.invocation).1

/-- The events of other threads leave a call pending. -/
theorem Pending.snoc (h : Pending history i op since p) (he : e.thread ≠ i) :
    Pending (history ++ [e]) i op since p where
  invocation := getElem?_snoc_of_some h.invocation
  last m e' hm he' := by
    rcases getElem?_snoc he' with ⟨_, hold⟩ | ⟨_, rfl⟩
    · exact h.last m e' hm hold
    · exact he

theorem Pending.thread_unique {j : ι} {op' : ω} {since' : δ} (h : Pending history i op since p)
    (h' : Pending history j op' since' p) : i = j := by
  have hsame := h.invocation.symm.trans h'.invocation
  rw [Option.some.injEq, Event.invoke.injEq] at hsame
  exact hsame.1

/-- A fresh invocation is pending. -/
theorem Pending.fresh (history : List (Event ι ω ρ δ)) (i : ι) (op : ω) (since : δ) :
    Pending (history ++ [.invoke i op since]) i op since history.length where
  invocation := by simp
  last m e' hm he' := by
    rcases getElem?_snoc he' with ⟨hlt, _⟩ | ⟨heq, _⟩ <;> omega

/-- Its thread's next response answers a pending call. -/
theorem Pending.answered (h : Pending history i op since p) (r : ρ) (ended : δ) :
    Answered (history ++ [.respond i r ended]) p history.length i op since r ended where
  later := h.lt_length
  invocation := getElem?_snoc_of_some h.invocation
  response := by simp
  between m e' hp hm he' := by
    rcases getElem?_snoc he' with ⟨_, hold⟩ | ⟨heq, _⟩
    · exact h.last m e' hp hold
    · omega

/-- A pending call precedes nothing. -/
theorem Pending.not_precedes (h : Pending history i op since p) (p' : ℕ) :
    ¬ Precedes history p p' := by
  rintro ⟨q, j, op', since', r, ended, hanswered, _⟩
  have hsame := hanswered.invocation.symm.trans h.invocation
  rw [Option.some.injEq, Event.invoke.injEq] at hsame
  have hthread : j = i := hsame.1
  exact h.last q _ hanswered.later hanswered.response hthread

end Snoc

/-! ## The atomic machine -/

/-- Where a thread stands: outside, before its operation took effect, or after. -/
inductive Phase (ω : Type v) (ρ : Type w) (δ : Type c) where
  | idle
  | called (op : ω) (since : δ)
  | done (op : ω) (r : ρ)

structure Machine (ι : Type u) (ω : Type v) (ρ : Type w) (σ : Type x) (δ : Type c) where
  object : σ
  phases : ι → Phase ω ρ δ

inductive Move (ι : Type u) (ω : Type v) (ρ : Type w) (δ : Type c) where
  | invoke (i : ι) (op : ω) (since : δ)
  | effect (i : ι)
  | respond (i : ι) (r : ρ) (ended : δ)
  | internal

/-- What an observer sees of a move. -/
def Move.shows : Move ι ω ρ δ → List (Event ι ω ρ δ)
  | .invoke i op since => [.invoke i op since]
  | .respond i r ended => [.respond i r ended]
  | _ => []

/-- What the history and the order know of a thread in each phase. -/
def Standing (history : List (Event ι ω ρ δ)) (order : List (Effect ω ρ δ)) (i : ι) :
    Phase ω ρ δ → Prop
  | .idle => True
  | .called op since => ∃ p, Pending history i op since p ∧ p ∉ order.map Effect.place
  | .done op r => ∃ since p instant, Pending history i op since p ∧
      ⟨⟨op, since, instant, r⟩, p⟩ ∈ order

variable [Preorder δ]

/-- Invocations and responses are stamped with what the clock shows. -/
inductive Step [DecidableEq ι] (obj : Object ω ρ σ δ) :
    Machine ι ω ρ σ δ → Move ι ω ρ δ → Machine ι ω ρ σ δ → Prop where
  | invoke {m : Machine ι ω ρ σ δ} (i : ι) (op : ω) (hidle : m.phases i = .idle) :
      Step obj m (.invoke i op (obj.clock m.object))
        { m with phases := Function.update m.phases i (.called op (obj.clock m.object)) }
  | effect {m : Machine ι ω ρ σ δ} {i : ι} {op : ω} {since : δ} {r : ρ} {t : σ}
      (hcalled : m.phases i = .called op since) (happly : obj.apply op since m.object r t) :
      Step obj m (.effect i) ⟨t, Function.update m.phases i (.done op r)⟩
  | respond {m : Machine ι ω ρ σ δ} {i : ι} {op : ω} {r : ρ} (hdone : m.phases i = .done op r) :
      Step obj m (.respond i r (obj.clock m.object))
        { m with phases := Function.update m.phases i .idle }
  | internal {m : Machine ι ω ρ σ δ} {t : σ} (hmove : obj.internal m.object t) :
      Step obj m .internal { m with object := t }

def Machine.Initial (obj : Object ω ρ σ δ) (m : Machine ι ω ρ σ δ) : Prop :=
  obj.init m.object ∧ ∀ i, m.phases i = .idle

/-- The effects so far, in the order in which they happened, explain the history so
far, and nothing is later than the clock. -/
structure Recorded (obj : Object ω ρ σ δ) (s₀ : σ) (m : Machine ι ω ρ σ δ)
    (history : List (Event ι ω ρ δ)) (order : List (Effect ω ρ δ)) : Prop where
  legal : obj.Legal s₀ (order.map Effect.toServed) m.object
  once : (order.map Effect.place).Nodup
  called : ∀ e ∈ order, ∃ i, history[e.place]? = some (.invoke i e.op e.since) ∧
    e.since ≤ e.instant
  answered : ∀ q i r ended, history[q]? = some (.respond i r ended) →
    ∃ e ∈ order, e.result = r ∧ e.instant ≤ ended ∧
      Answered history e.place q i e.op e.since r ended
  realTime : order.Pairwise fun e e' => ¬ Precedes history e'.place e.place
  standing : ∀ i, Standing history order i (m.phases i)
  past : ∀ e ∈ order, e.instant ≤ obj.clock m.object
  begun : ∀ i op since, m.phases i = .called op since → since ≤ obj.clock m.object

namespace Recorded
variable {obj : Object ω ρ σ δ} {s₀ : σ} {m : Machine ι ω ρ σ δ}
  {history : List (Event ι ω ρ δ)} {order : List (Effect ω ρ δ)}

theorem initial (h : m.Initial obj) : Recorded obj m.object m [] [] where
  legal := .nil
  once := List.nodup_nil
  called e he := by cases he
  answered q i r ended hq := by simp at hq
  realTime := List.Pairwise.nil
  standing i := by rw [h.2 i]; trivial
  past e he := by cases he
  begun i op since hcalled := by
    rw [h.2 i] at hcalled
    cases hcalled

theorem place_lt (h : Recorded obj s₀ m history order) {e : Effect ω ρ δ} (he : e ∈ order) :
    e.place < history.length := by
  obtain ⟨i, hi, _⟩ := h.called e he
  exact (List.getElem?_eq_some_iff.mp hi).1

theorem linearization (h : Recorded obj s₀ m history order) (hinit : obj.init s₀) :
    Linearization obj history order where
  legal := ⟨s₀, m.object, hinit, h.legal⟩
  once := h.once
  called := h.called
  answered := h.answered
  realTime := h.realTime

/-- An event that answers nothing new leaves the order as it is. -/
theorem snoc (h : Recorded obj s₀ m history order) {e : Event ι ω ρ δ}
    {m' : Machine ι ω ρ σ δ} (hobject : m'.object = m.object)
    (hnew : ∀ i r ended, e = .respond i r ended →
      ∃ e' ∈ order, e'.result = r ∧ e'.instant ≤ ended ∧
        Answered (history ++ [e]) e'.place history.length i e'.op e'.since r ended)
    (hstanding : ∀ i, Standing (history ++ [e]) order i (m'.phases i))
    (hbegun : ∀ i op since, m'.phases i = .called op since → since ≤ obj.clock m.object) :
    Recorded obj s₀ m' (history ++ [e]) order where
  legal := hobject ▸ h.legal
  once := h.once
  called e' he' := by
    obtain ⟨i, hi, hle⟩ := h.called e' he'
    exact ⟨i, getElem?_snoc_of_some hi, hle⟩
  answered q i r ended hq := by
    rcases getElem?_snoc hq with ⟨_, hold⟩ | ⟨rfl, heq⟩
    · obtain ⟨e', hmem, hresult, hle, hanswered⟩ := h.answered q i r ended hold
      exact ⟨e', hmem, hresult, hle, hanswered.snoc⟩
    · exact hnew i r ended heq.symm
  realTime := by
    refine h.realTime.imp_of_mem fun {e₁ e₂} he₁ _ hnot hprecedes => ?_
    exact hnot (hprecedes.of_snoc (Nat.le_of_lt (h.place_lt he₁)))
  standing := hstanding
  past := hobject ▸ h.past
  begun := hobject ▸ hbegun

omit [Preorder δ] in
/-- A thread that does not move stands as before, whatever another one shows. -/
theorem standing_snoc {i : ι} {phase : Phase ω ρ δ} {e : Event ι ω ρ δ} (he : e.thread ≠ i)
    (h : Standing history order i phase) : Standing (history ++ [e]) order i phase := by
  cases phase with
  | idle => trivial
  | called op since =>
      obtain ⟨p, hpending, hp⟩ := h
      exact ⟨p, hpending.snoc he, hp⟩
  | done op r =>
      obtain ⟨since, p, instant, hpending, hp⟩ := h
      exact ⟨since, p, instant, hpending.snoc he, hp⟩

omit [Preorder δ] in
/-- Nor does the effect of another call matter to it. -/
theorem standing_concat {i : ι} {phase : Phase ω ρ δ} {e : Effect ω ρ δ}
    (he : ∀ op since p, Pending history i op since p → p ≠ e.place)
    (h : Standing history order i phase) : Standing history (order ++ [e]) i phase := by
  cases phase with
  | idle => trivial
  | called op since =>
      obtain ⟨p, hpending, hp⟩ := h
      refine ⟨p, hpending, ?_⟩
      rw [List.map_append, List.map_singleton, List.mem_append, List.mem_singleton]
      exact not_or.mpr ⟨hp, he op since p hpending⟩
  | done op r =>
      obtain ⟨since, p, instant, hpending, hp⟩ := h
      exact ⟨since, p, instant, hpending, List.mem_append_left _ hp⟩

variable [DecidableEq ι]

theorem invoke (h : Recorded obj s₀ m history order) (i : ι) (op : ω) :
    Recorded obj s₀
      { m with phases := Function.update m.phases i (.called op (obj.clock m.object)) }
      (history ++ [.invoke i op (obj.clock m.object)]) order := by
  refine h.snoc rfl (fun _ _ _ heq => by cases heq) (fun j => ?_) fun j op' since hcalled => ?_
  · by_cases hj : j = i
    · subst hj
      simp only [Function.update_self]
      refine ⟨history.length, .fresh history j op _, fun hmem => ?_⟩
      obtain ⟨e, he, hplace⟩ := List.mem_map.mp hmem
      have hlt := h.place_lt he
      omega
    · simp only [Function.update_of_ne hj]
      exact standing_snoc (Ne.symm hj) (h.standing j)
  · by_cases hj : j = i
    · subst hj
      simp only [Function.update_self, Phase.called.injEq] at hcalled
      exact hcalled.2 ▸ le_refl _
    · simp only [Function.update_of_ne hj] at hcalled
      exact h.begun j op' since hcalled

theorem respond (h : Recorded obj s₀ m history order) {i : ι} {op : ω} {r : ρ}
    (hdone : m.phases i = .done op r) :
    Recorded obj s₀ { m with phases := Function.update m.phases i .idle }
      (history ++ [.respond i r (obj.clock m.object)]) order := by
  have hi := h.standing i
  rw [hdone] at hi
  obtain ⟨since, p, instant, hpending, hmem⟩ := hi
  refine h.snoc rfl (fun j r' ended heq => ?_) (fun j => ?_) fun j op' since' hcalled => ?_
  · cases heq
    exact ⟨_, hmem, rfl, h.past _ hmem, hpending.answered r _⟩
  · by_cases hj : j = i
    · subst hj
      simp only [Function.update_self]
      trivial
    · simp only [Function.update_of_ne hj]
      exact standing_snoc (Ne.symm hj) (h.standing j)
  · by_cases hj : j = i
    · subst hj
      simp at hcalled
    · simp only [Function.update_of_ne hj] at hcalled
      exact h.begun j op' since' hcalled

/-- A call whose operation takes effect has one place in the order, the last: it is
still pending, and its instant is now. -/
theorem effect (h : Recorded obj s₀ m history order) {i : ι} {op : ω} {since : δ} {r : ρ} {t : σ}
    (hcalled : m.phases i = .called op since) (happly : obj.apply op since m.object r t) :
    ∃ e, Recorded obj s₀ ⟨t, Function.update m.phases i (.done op r)⟩ history (order ++ [e]) := by
  have hi := h.standing i
  rw [hcalled] at hi
  obtain ⟨p, hpending, hfresh⟩ := hi
  have hclock := obj.clock_apply happly
  refine ⟨⟨⟨op, since, obj.clock m.object, r⟩, p⟩, ?_, ?_, ?_, ?_, ?_, ?_, ?_, ?_⟩
  · rw [List.map_append]
    exact h.legal.concat happly
  · rw [List.map_append, List.map_singleton]
    rw [← List.concat_eq_append]
    exact List.Nodup.concat hfresh h.once
  · intro e he
    rcases List.mem_append.mp he with hold | hnew
    · exact h.called e hold
    · rw [List.mem_singleton.mp hnew]
      exact ⟨i, hpending.invocation, h.begun i op since hcalled⟩
  · intro q j r' ended hq
    obtain ⟨e, hmem, hanswered⟩ := h.answered q j r' ended hq
    exact ⟨e, List.mem_append_left _ hmem, hanswered⟩
  · rw [List.pairwise_append]
    refine ⟨h.realTime, List.pairwise_singleton _ _, fun e _ e' he' => ?_⟩
    rw [List.mem_singleton.mp he']
    exact hpending.not_precedes e.place
  · intro j
    by_cases hj : j = i
    · subst hj
      simp only [Function.update_self]
      exact ⟨since, p, obj.clock m.object, hpending, by simp⟩
    · simp only [Function.update_of_ne hj]
      refine standing_concat (fun op' since' p' hpending' hplace => ?_) (h.standing j)
      rw [hplace] at hpending'
      exact hj (hpending'.thread_unique hpending)
  · intro e he
    rcases List.mem_append.mp he with hold | hnew
    · exact (h.past e hold).trans hclock
    · rw [List.mem_singleton.mp hnew]
      exact hclock
  · intro j op' since' hcalled'
    by_cases hj : j = i
    · subst hj
      simp at hcalled'
    · simp only [Function.update_of_ne hj] at hcalled'
      exact (h.begun j op' since' hcalled').trans hclock

/-- One move of the machine, recorded. -/
theorem step (h : Recorded obj s₀ m history order) {move : Move ι ω ρ δ} {m' : Machine ι ω ρ σ δ}
    (hstep : Step obj m move m') :
    ∃ order', Recorded obj s₀ m' (history ++ move.shows) order' := by
  cases hstep with
  | invoke i op _ => exact ⟨order, h.invoke i op⟩
  | respond hdone => exact ⟨order, h.respond hdone⟩
  | effect hcalled happly =>
      obtain ⟨e, he⟩ := h.effect hcalled happly
      exact ⟨order ++ [e], by simpa [Move.shows] using he⟩
  | internal hmove =>
      refine ⟨order, ?_⟩
      rw [show (Move.internal : Move ι ω ρ δ).shows = [] from rfl, List.append_nil]
      have hclock := obj.clock_internal hmove
      exact { h with
        legal := h.legal.internal hmove
        past := fun e he => (h.past e he).trans hclock
        begun := fun i op since hcalled => (h.begun i op since hcalled).trans hclock }

theorem run {tr : List (Move ι ω ρ δ)} {m' : Machine ι ω ρ σ δ} (h : m.Initial obj)
    (hrun : Run (Step obj) m tr m') :
    ∃ order, Recorded obj m.object m' (tr.flatMap Move.shows) order := by
  induction hrun with
  | nil => exact ⟨[], .initial h⟩
  | snoc _ hlast ih =>
      obtain ⟨order, hrecorded⟩ := ih
      obtain ⟨order', hnext⟩ := hrecorded.step hlast
      exact ⟨order', by simpa [List.flatMap_append] using hnext⟩

end Recorded

variable [DecidableEq ι] {obj : Object ω ρ σ δ}

/-- **Whatever the machine shows is linearizable**, with every call at its effect. -/
theorem linearizable_of_run {m m' : Machine ι ω ρ σ δ} {tr : List (Move ι ω ρ δ)}
    (h : m.Initial obj) (hrun : Run (Step obj) m tr m') :
    Linearizable obj (tr.flatMap Move.shows) := by
  obtain ⟨order, hrecorded⟩ := Recorded.run h hrun
  exact ⟨order, hrecorded.linearization h.1⟩

/-! ## Refinements of the machine -/

/-- The machine can go from one state to another and show just these events. -/
def Performs (obj : Object ω ρ σ δ) (m : Machine ι ω ρ σ δ) (events : List (Event ι ω ρ δ))
    (m' : Machine ι ω ρ σ δ) : Prop :=
  ∃ tr, Run (Step obj) m tr m' ∧ tr.flatMap Move.shows = events

namespace Performs
variable {m m' m'' : Machine ι ω ρ σ δ} {events events' : List (Event ι ω ρ δ)}

theorem of_eq (h : m' = m) : Performs obj m [] m' := ⟨[], h ▸ Run.nil m', rfl⟩

theorem of_step {move : Move ι ω ρ δ} (h : Step obj m move m') : Performs obj m move.shows m' :=
  ⟨[move], Run.single h, by simp⟩

theorem append (h : Performs obj m events m') (h' : Performs obj m' events' m'') :
    Performs obj m (events ++ events') m'' := by
  obtain ⟨tr, hrun, hshown⟩ := h
  obtain ⟨tr', hrun', hshown'⟩ := h'
  exact ⟨tr ++ tr', hrun.append hrun', by rw [List.flatMap_append, hshown, hshown']⟩

/-- What the object does by itself is not seen. -/
theorem internals {t : σ} (h : Relation.ReflTransGen obj.internal m.object t) :
    Performs obj m [] { m with object := t } := by
  induction h with
  | refl => exact of_eq rfl
  | tail _ hlast ih => exact ih.append (of_step (.internal hlast))

/-- Neither is the instant at which a call takes effect. -/
theorem effect {i : ι} {op : ω} {since : δ} {r : ρ} {t : σ}
    (hcalled : m.phases i = .called op since) (happly : obj.apply op since m.object r t) :
    Performs obj m [] ⟨t, Function.update m.phases i (.done op r)⟩ :=
  of_step (.effect hcalled happly)

end Performs

section Refinement
variable {τ : Type y} {α : Type z} {next : α → τ → Option τ} {C : τ → α → Prop}

/-- Every step of a system is, along `R`, some moves of the machine that show what the step
shows. -/
structure Simulates (obj : Object ω ρ σ δ) (init : τ → Prop) (step : τ → α → τ → Prop)
    (shows : τ → α → List (Event ι ω ρ δ)) (R : τ → Machine ι ω ρ σ δ → Prop) : Prop where
  starts : ∀ s, init s → ∃ m, m.Initial obj ∧ R s m
  follows : ∀ s a t m, Reachable init step s → R s m → step s a t →
    ∃ m', Performs obj m (shows s a) m' ∧ R t m'

namespace Simulates
variable {init : τ → Prop} {step : τ → α → τ → Prop} {shows : τ → α → List (Event ι ω ρ δ)}
  {R : τ → Machine ι ω ρ σ δ → Prop}

theorem run (hsim : Simulates obj init step shows R)
    (hnext : ∀ s a t, step s a t → next a s = some t) {s t : τ} {m : Machine ι ω ρ σ δ}
    {tr : List α} (hs : init s) (hm : R s m) (h : Run step s tr t) :
    ∃ m', Performs obj m (observed next shows tr s) m' ∧ R t m' := by
  induction h with
  | nil => exact ⟨m, .of_eq rfl, hm⟩
  | snoc hrun hlast ih =>
      obtain ⟨m', hperforms, hm'⟩ := ih
      obtain ⟨m'', hfollows, hm''⟩ := hsim.follows _ _ _ m' ⟨_, _, hs, hrun⟩ hm' hlast
      rw [(hrun.mono hnext).observed_snoc]
      exact ⟨m'', hperforms.append hfollows, hm''⟩

/-- **What simulates the machine shows linearizable histories only.** -/
theorem linearizable (hsim : Simulates obj init step shows R)
    (hnext : ∀ s a t, step s a t → next a s = some t) {s t : τ} {tr : List α} (hs : init s)
    (h : Run step s tr t) : Linearizable obj (observed next shows tr s) := by
  obtain ⟨m, hinitial, hm⟩ := hsim.starts s hs
  obtain ⟨_, ⟨moves, hmoves, hshown⟩, _⟩ := hsim.run hnext hs hm h
  rw [← hshown]
  exact linearizable_of_run hinitial hmoves

end Simulates

/-- Every step of a system, seen through `view`, is some moves of the machine that show
what the step shows. Invariants of the system may be used. -/
structure Refines (obj : Object ω ρ σ δ) (init : τ → Prop) (next : α → τ → Option τ)
    (C : τ → α → Prop) (shows : τ → α → List (Event ι ω ρ δ)) (view : τ → Machine ι ω ρ σ δ) :
    Prop where
  starts : ∀ s, init s → (view s).Initial obj
  follows : ∀ s a t, Reachable init (only (fun s a t => next a s = some t) C) s →
    only (fun s a t => next a s = some t) C s a t →
    Performs obj (view s) (shows s a) (view t)

namespace Refines
variable {init : τ → Prop} {shows : τ → α → List (Event ι ω ρ δ)} {view : τ → Machine ι ω ρ σ δ}

/-- A view is a simulation along its graph. -/
theorem simulates (href : Refines obj init next C shows view) :
    Simulates obj init (only (fun s a t => next a s = some t) C) shows
      (fun s m => m = view s) where
  starts s hs := ⟨view s, href.starts s hs, rfl⟩
  follows s a t m hreach hm hstep := by
    subst hm
    exact ⟨view t, href.follows s a t hreach hstep, rfl⟩

/-- **Whatever a refinement of the machine shows is linearizable.** -/
theorem linearizable (href : Refines obj init next C shows view) {s t : τ} {tr : List α}
    (hs : init s) (h : Run (only (fun s a t => next a s = some t) C) s tr t) :
    Linearizable obj (observed next shows tr s) :=
  href.simulates.linearizable (fun _ _ _ hstep => hstep.1) hs h

end Refines
end Refinement

end Linearizability
