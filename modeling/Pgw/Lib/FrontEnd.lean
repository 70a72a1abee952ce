import Pgw.Lib.Linearizability

/-!
# A front end of a shared object

A front end takes requests. It makes at most one call on an object for each, and answers
with what it makes of the result; some requests it may answer without a call. By what queues
and hands a request gets to the thread that makes the call is the system's affair. Here a
request is waiting, inside the call of a thread, or finished.

Seen from outside, the front end is an object too: a request takes effect when its call
does. The call is made at or after the instant at which the request came.

## Main definitions

* `FrontEnd`, `FrontEnd.serve` — the object that the clients of a front end see.
* `Status`, `FrontEnd.view` — where the requests stand, as a machine for that object.
* `Attended` — every busy thread is busy with exactly one request.

## Main results

* `Attended.performs` — what happens inside the calls happens to the requests.
* `view_enter`, `view_leave` — that a thread takes a request up or gives it back is not seen.
-/
namespace Linearizability
open TransitionSystem

universe u v w x y z z' c
variable {ι : Type u} {ω : Type v} {ρ : Type w} {σ : Type x} {κ : Type y} {α : Type z}
  {β : Type z'} {δ : Type c}

structure FrontEnd (α : Type z) (β : Type z') (ω : Type v) (ρ : Type w) where
  /-- The call that a request asks for, if it asks for one. -/
  call : α → Option ω
  /-- The answer to a request whose call has come to an end. -/
  reply : α → ρ → β
  /-- The answers that a request may be given without a call. -/
  direct : α → β → Prop

/-- Where a request stands, and since when as long as it has no answer. -/
inductive Status (ι : Type u) (α : Type z) (β : Type z') (δ : Type c) where
  | idle
  | waiting (a : α) (since : δ)
  | inside (a : α) (since : δ) (i : ι)
  | finished (a : α) (b : β)

namespace FrontEnd

/-- **The object that the clients see.** -/
def serve [Preorder δ] (f : FrontEnd α β ω ρ) (obj : Object ω ρ σ δ) : Object α β σ δ where
  init := obj.init
  clock := obj.clock
  apply a since s b t :=
    (∃ op called r, f.call a = some op ∧ since ≤ called ∧ obj.apply op called s r t ∧
      b = f.reply a r) ∨ f.direct a b ∧ t = s
  internal := obj.internal
  clock_apply := by
    rintro a since s b t (⟨op, called, r, _, _, happly, _⟩ | ⟨_, rfl⟩)
    · exact obj.clock_apply happly
    · exact le_refl _
  clock_internal := obj.clock_internal

/-- A request inside a call, by the phase of the call. -/
def attend (f : FrontEnd α β ω ρ) (a : α) (since : δ) : Phase ω ρ δ → Phase α β δ
  | .done _ r => .done a (f.reply a r)
  | _ => .called a since

def phaseOf (f : FrontEnd α β ω ρ) (m : Machine ι ω ρ σ δ) : Status ι α β δ → Phase α β δ
  | .idle => .idle
  | .waiting a since => .called a since
  | .inside a since i => f.attend a since (m.phases i)
  | .finished a b => .done a b

/-- The threads and the requests, as a machine whose threads are the requests. -/
def view (f : FrontEnd α β ω ρ) (m : Machine ι ω ρ σ δ) (st : κ → Status ι α β δ) :
    Machine κ α β σ δ where
  object := m.object
  phases k := f.phaseOf m (st k)

end FrontEnd

/-- Every busy thread is inside the call of one request, and of no other, that it has made
at or after the coming of the request. -/
structure Attended [Preorder δ] (f : FrontEnd α β ω ρ) (m : Machine ι ω ρ σ δ)
    (st : κ → Status ι α β δ) : Prop where
  alone : ∀ k k' a a' since since' i, st k = .inside a since i → st k' = .inside a' since' i →
    k = k'
  calls : ∀ k a since i, st k = .inside a since i → ∃ op, f.call a = some op ∧
    ((∃ called, since ≤ called ∧ m.phases i = .called op called) ∨ ∃ r, m.phases i = .done op r)
  busy : ∀ i, m.phases i ≠ .idle → ∃ k a since, st k = .inside a since i

variable [Preorder δ] {f : FrontEnd α β ω ρ} {obj : Object ω ρ σ δ} {m m' : Machine ι ω ρ σ δ}
  {st : κ → Status ι α β δ} {k : κ} {a : α} {b : β} {since : δ} {i : ι} {op : ω} {r : ρ}

theorem Attended.initial (f : FrontEnd α β ω ρ) (h : ∀ i, m.phases i = .idle) :
    Attended f m (fun _ : κ => .idle) where
  alone k k' a a' since since' i hk := by cases hk
  calls k a since i hk := by cases hk
  busy i hbusy := absurd (h i) hbusy

/-- An idle thread is inside no call. -/
theorem Attended.free (h : Attended f m st) (hidle : m.phases i = .idle) (k : κ) (a : α)
    (since : δ) : st k ≠ .inside a since i := by
  intro hk
  obtain ⟨op, _, ⟨called, _, hcalled⟩ | ⟨r, hdone⟩⟩ := h.calls k a since i hk
  · rw [hidle] at hcalled
    cases hcalled
  · rw [hidle] at hdone
    cases hdone

/-- A busy thread's call is the one that its request asks for, and no earlier. -/
theorem Attended.call_eq (h : Attended f m st) (hk : st k = .inside a since i) {called : δ}
    (hcalled : m.phases i = .called op called) : f.call a = some op ∧ since ≤ called := by
  obtain ⟨op', hcall, ⟨called', hle, hcalled'⟩ | ⟨r, hdone⟩⟩ := h.calls k a since i hk
  · rw [hcalled, Phase.called.injEq] at hcalled'
    obtain ⟨rfl, rfl⟩ := hcalled'
    exact ⟨hcall, hle⟩
  · rw [hcalled] at hdone
    cases hdone

/-! ## Requests that no thread is at -/

section Requests
variable [DecidableEq κ]

omit [Preorder δ] in
theorem view_update (f : FrontEnd α β ω ρ) (m : Machine ι ω ρ σ δ) (st : κ → Status ι α β δ)
    (k : κ) (status : Status ι α β δ) : f.view m (Function.update st k status) =
      { f.view m st with
        phases := Function.update (f.view m st).phases k (f.phaseOf m status) } := by
  simp only [FrontEnd.view, Machine.mk.injEq, true_and]
  funext k'
  by_cases hk : k' = k
  · subst hk
    simp
  · simp [hk]

/-- A request that is at no thread goes where it is at none. -/
theorem Attended.update (h : Attended f m st) {status : Status ι α β δ}
    (hold : ∀ a since i, st k ≠ .inside a since i)
    (hnew : ∀ a since i, status ≠ .inside a since i) :
    Attended f m (Function.update st k status) := by
  have hsame : ∀ {k' a since i}, Function.update st k status k' = .inside a since i →
      st k' = .inside a since i := by
    intro k' a since i hk'
    by_cases hkk : k' = k
    · subst hkk
      rw [Function.update_self] at hk'
      exact absurd hk' (hnew a since i)
    · rwa [Function.update_of_ne hkk] at hk'
  constructor
  · intro k₁ k₂ a₁ a₂ since₁ since₂ i h₁ h₂
    exact h.alone k₁ k₂ a₁ a₂ since₁ since₂ i (hsame h₁) (hsame h₂)
  · intro k' a since i hk'
    exact h.calls k' a since i (hsame hk')
  · intro i hbusy
    obtain ⟨k', a, since, hk'⟩ := h.busy i hbusy
    have hne : k' ≠ k := by
      rintro rfl
      exact hold a since i hk'
    exact ⟨k', a, since, by rw [Function.update_of_ne hne, hk']⟩

theorem performs_arrive (hidle : st k = .idle) (a : α) :
    Performs (f.serve obj) (f.view m st) [.invoke k a (obj.clock m.object)]
      (f.view m (Function.update st k (.waiting a (obj.clock m.object)))) := by
  have hphase : (f.view m st).phases k = .idle := by simp [FrontEnd.view, hidle, FrontEnd.phaseOf]
  rw [view_update]
  exact .of_step (.invoke k a hphase)

theorem performs_respond (hfinished : st k = .finished a b) :
    Performs (f.serve obj) (f.view m st) [.respond k b (obj.clock m.object)]
      (f.view m (Function.update st k .idle)) := by
  have hphase : (f.view m st).phases k = .done a b := by
    simp [FrontEnd.view, hfinished, FrontEnd.phaseOf]
  rw [view_update]
  exact .of_step (.respond hphase)

/-- An answer as soon as the request is finished. -/
theorem performs_respond_finished (m : Machine ι ω ρ σ δ) (st : κ → Status ι α β δ) (k : κ)
    (a : α) (b : β) : Performs (f.serve obj) (f.view m (Function.update st k (.finished a b)))
      [.respond k b (obj.clock m.object)] (f.view m (Function.update st k .idle)) := by
  rw [← Function.update_idem (.finished a b) .idle st]
  exact performs_respond (Function.update_self ..)

/-- An answer without a call. -/
theorem performs_dismiss (hwaiting : st k = .waiting a since) (hdirect : f.direct a b) :
    Performs (f.serve obj) (f.view m st) [.respond k b (obj.clock m.object)]
      (f.view m (Function.update st k .idle)) := by
  have hphase : (f.view m st).phases k = .called a since := by
    simp [FrontEnd.view, hwaiting, FrontEnd.phaseOf]
  have htaken : Performs (f.serve obj) (f.view m st) []
      (f.view m (Function.update st k (.finished a b))) := by
    rw [view_update]
    exact .effect hphase (Or.inr ⟨hdirect, rfl⟩)
  exact htaken.append (performs_respond_finished m st k a b)

end Requests

/-! ## Threads that take requests up and give them back -/

section Threads
variable [DecidableEq ι] [DecidableEq κ]

/-- A thread takes a request up: it makes the call. -/
theorem Attended.enter (h : Attended f m st) (houtside : ∀ a since i, st k ≠ .inside a since i)
    (hcall : f.call a = some op) {called : δ} (hle : since ≤ called) (hidle : m.phases i = .idle) :
    Attended f { m with phases := Function.update m.phases i (.called op called) }
      (Function.update st k (.inside a since i)) := by
  have hfree := h.free hidle
  constructor
  · intro k₁ k₂ a₁ a₂ since₁ since₂ j h₁ h₂
    by_cases hk₁ : k₁ = k <;> by_cases hk₂ : k₂ = k
    · rw [hk₁, hk₂]
    · simp only [hk₁, Function.update_self, Status.inside.injEq] at h₁
      rw [Function.update_of_ne hk₂, ← h₁.2.2] at h₂
      exact absurd h₂ (hfree k₂ a₂ since₂)
    · simp only [hk₂, Function.update_self, Status.inside.injEq] at h₂
      rw [Function.update_of_ne hk₁, ← h₂.2.2] at h₁
      exact absurd h₁ (hfree k₁ a₁ since₁)
    · rw [Function.update_of_ne hk₁] at h₁
      rw [Function.update_of_ne hk₂] at h₂
      exact h.alone k₁ k₂ a₁ a₂ since₁ since₂ j h₁ h₂
  · intro k' a' since' j hk'
    by_cases hkk : k' = k
    · simp only [hkk, Function.update_self, Status.inside.injEq] at hk'
      obtain ⟨rfl, rfl, rfl⟩ := hk'
      exact ⟨op, hcall, Or.inl ⟨called, hle, by simp⟩⟩
    · rw [Function.update_of_ne hkk] at hk'
      have hji : j ≠ i := by
        rintro rfl
        exact hfree k' a' since' hk'
      simpa [hji] using h.calls k' a' since' j hk'
  · intro j hbusy
    by_cases hji : j = i
    · exact ⟨k, a, since, by rw [Function.update_self, hji]⟩
    · simp only [Function.update_of_ne hji] at hbusy
      obtain ⟨k', a', since', hk'⟩ := h.busy j hbusy
      have hkk : k' ≠ k := by
        rintro rfl
        exact houtside a' since' j hk'
      exact ⟨k', a', since', by rw [Function.update_of_ne hkk, hk']⟩

/-- A request that a thread takes up might as well wait. -/
theorem view_enter (h : Attended f m st) (called : δ) (hidle : m.phases i = .idle) :
    f.view { m with phases := Function.update m.phases i (.called op called) }
        (Function.update st k (.inside a since i)) =
      f.view m (Function.update st k (.waiting a since)) := by
  simp only [FrontEnd.view, Machine.mk.injEq, true_and]
  funext k'
  by_cases hkk : k' = k
  · subst hkk
    simp [FrontEnd.phaseOf, FrontEnd.attend]
  · rw [Function.update_of_ne hkk, Function.update_of_ne hkk]
    cases hk' : st k' with
    | inside a' since' j =>
        have hji : j ≠ i := by
          rintro rfl
          exact h.free hidle k' a' since' hk'
        simp [FrontEnd.phaseOf, hji]
    | _ => rfl

/-- A thread gives its request back: the call has come to an end. -/
theorem Attended.leave (h : Attended f m st) (hinside : st k = .inside a since i)
    {status : Status ι α β δ} (hstatus : ∀ a since i, status ≠ .inside a since i) :
    Attended f { m with phases := Function.update m.phases i .idle }
      (Function.update st k status) := by
  have hothers : ∀ {k' a' since' j}, Function.update st k status k' = .inside a' since' j →
      st k' = .inside a' since' j ∧ j ≠ i := by
    intro k' a' since' j hk'
    by_cases hkk : k' = k
    · rw [hkk, Function.update_self] at hk'
      exact absurd hk' (hstatus a' since' j)
    · rw [Function.update_of_ne hkk] at hk'
      refine ⟨hk', ?_⟩
      rintro rfl
      exact hkk (h.alone k' k a' a since' since j hk' hinside)
  constructor
  · intro k₁ k₂ a₁ a₂ since₁ since₂ j h₁ h₂
    exact h.alone k₁ k₂ a₁ a₂ since₁ since₂ j (hothers h₁).1 (hothers h₂).1
  · intro k' a' since' j hk'
    obtain ⟨hold, hji⟩ := hothers hk'
    simpa [hji] using h.calls k' a' since' j hold
  · intro j hbusy
    have hji : j ≠ i := by
      rintro rfl
      simp at hbusy
    simp only [Function.update_of_ne hji] at hbusy
    obtain ⟨k', a', since', hk'⟩ := h.busy j hbusy
    have hkk : k' ≠ k := by
      rintro rfl
      rw [hinside, Status.inside.injEq] at hk'
      exact hji hk'.2.2.symm
    exact ⟨k', a', since', by rw [Function.update_of_ne hkk, hk']⟩

/-- A request that is given back might as well be inside. -/
theorem view_leave (h : Attended f m st) (hinside : st k = .inside a since i)
    (hdone : m.phases i = .done op r) :
    f.view { m with phases := Function.update m.phases i .idle }
      (Function.update st k (.finished a (f.reply a r))) = f.view m st := by
  simp only [FrontEnd.view, Machine.mk.injEq, true_and]
  funext k'
  by_cases hkk : k' = k
  · subst hkk
    simp [hinside, FrontEnd.phaseOf, FrontEnd.attend, hdone]
  · rw [Function.update_of_ne hkk]
    cases hk' : st k' with
    | inside a' since' j =>
        have hji : j ≠ i := by
          rintro rfl
          exact hkk (h.alone k' k a' a since' since j hk' hinside)
        simp [FrontEnd.phaseOf, hji]
    | _ => rfl

/-- A thread answers its request as soon as the call has come to an end. -/
theorem Attended.performs_return (h : Attended f m st) (hinside : st k = .inside a since i)
    (hdone : m.phases i = .done op r) :
    Performs (f.serve obj) (f.view m st) [.respond k (f.reply a r) (obj.clock m.object)]
      (f.view { m with phases := Function.update m.phases i .idle }
        (Function.update st k .idle)) := by
  rw [← view_leave h hinside hdone]
  exact performs_respond_finished _ st k a (f.reply a r)

end Threads

/-! ## Inside the calls -/

section Calls
variable [DecidableEq ι]

/-- A call takes effect, and so does the request that the thread is at. -/
theorem Attended.effect [DecidableEq κ] (h : Attended f m st) {called : δ}
    (hcalled : m.phases i = .called op called) {t : σ} (happly : obj.apply op called m.object r t) :
    Performs (f.serve obj) (f.view m st) []
        (f.view ⟨t, Function.update m.phases i (.done op r)⟩ st) ∧
      Attended f ⟨t, Function.update m.phases i (.done op r)⟩ st := by
  obtain ⟨k, a, since, hk⟩ := h.busy i (by simp [hcalled])
  obtain ⟨hcall, hle⟩ := h.call_eq hk hcalled
  have hphase : (f.view m st).phases k = .called a since := by
    simp [FrontEnd.view, hk, FrontEnd.phaseOf, FrontEnd.attend, hcalled]
  have hview : f.view ⟨t, Function.update m.phases i (.done op r)⟩ st =
      ⟨t, Function.update (f.view m st).phases k (.done a (f.reply a r))⟩ := by
    simp only [FrontEnd.view, Machine.mk.injEq, true_and]
    funext k'
    by_cases hkk : k' = k
    · subst hkk
      simp [hk, FrontEnd.phaseOf, FrontEnd.attend]
    · rw [Function.update_of_ne hkk]
      cases hk' : st k' with
      | inside a' since' j =>
          have hji : j ≠ i := by
            rintro rfl
            exact hkk (h.alone k' k a' a since' since j hk' hk)
          simp [FrontEnd.phaseOf, hji]
      | _ => rfl
  constructor
  · rw [hview]
    exact .effect hphase (Or.inl ⟨op, called, r, hcall, hle, happly, rfl⟩)
  · constructor
    · exact h.alone
    · intro k' a' since' j hk'
      by_cases hji : j = i
      · subst hji
        have hkk : k' = k := h.alone k' k a' a since' since j hk' hk
        subst hkk
        rw [hk, Status.inside.injEq] at hk'
        exact ⟨op, hk'.1 ▸ hcall, Or.inr ⟨r, by simp⟩⟩
      · simpa [hji] using h.calls k' a' since' j hk'
    · intro j hbusy
      by_cases hji : j = i
      · exact ⟨k, a, since, hji ▸ hk⟩
      · simp only [Function.update_of_ne hji] at hbusy
        exact h.busy j hbusy

/-- **What happens inside the calls happens to the requests.** -/
theorem Attended.performs [DecidableEq κ] (h : Attended f m st) (hperforms : Performs obj m [] m') :
    Performs (f.serve obj) (f.view m st) [] (f.view m' st) ∧ Attended f m' st := by
  obtain ⟨tr, hrun, hshown⟩ := hperforms
  induction hrun with
  | nil => exact ⟨.of_eq rfl, h⟩
  | @snoc m₁ _ _ _ hbefore hlast ih =>
      rw [List.flatMap_append, List.append_eq_nil_iff] at hshown
      obtain ⟨hearlier, hattended⟩ := ih hshown.1
      have hnothing := hshown.2
      cases hlast with
      | invoke i op => cases hnothing
      | respond => cases hnothing
      | effect hcalled happly =>
          obtain ⟨hlater, hattended'⟩ := hattended.effect hcalled happly
          exact ⟨hearlier.append hlater, hattended'⟩
      | @internal t hmove =>
          have hlater : Performs (f.serve obj) (f.view m₁ st) []
              { f.view m₁ st with object := t } := .internals (.single hmove)
          refine ⟨hearlier.append hlater, ?_⟩
          exact ⟨hattended.alone, hattended.calls, hattended.busy⟩

end Calls

end Linearizability
