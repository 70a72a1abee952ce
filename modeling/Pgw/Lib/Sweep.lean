import Mathlib.Data.Finmap

/-!
# Filtering a map in two phases

The keys to drop are chosen on one version of a map and erased from a later one.
`sweep` looks every candidate up again and erases it only if its value still has
to go. This is the filter of the whole later map, provided the candidates still
cover it: every entry that has to go is among them.

## Main definitions

* `keep p m` — the entries of `m` whose value satisfies `p`, all at once.
* `sweep q ks m` — erase the candidates `ks` whose value satisfies `q`, one by one.
* `Covers q ks m` — no entry of `m` that satisfies `q` is missing from `ks`.
-/
namespace Sweep

universe u v
variable {κ : Type u} {β : Type v} [DecidableEq κ]

/-- The atomic filter. -/
def keep (p : β → Prop) [DecidablePred p] (m : Finmap fun _ : κ => β) : Finmap fun _ : κ => β :=
  Finmap.keysLookupEquiv.symm
    ⟨(m.keys.filter fun k => ((m.lookup k).filter (p ·)).isSome,
        fun k => (m.lookup k).filter (p ·)), by
      intro k
      rw [Finset.mem_filter, Finmap.mem_keys, ← Finmap.lookup_isSome]
      refine ⟨fun hkept => ⟨?_, hkept⟩, And.right⟩
      exact Option.isSome_of_isSome_filter _ _ hkept⟩

@[simp] theorem lookup_keep (p : β → Prop) [DecidablePred p] (m : Finmap fun _ : κ => β) (k : κ) :
    (keep p m).lookup k = (m.lookup k).filter (p ·) := by
  simp [keep]

variable (q : β → Prop)

/-- Erase the candidates that still have to go, and say which these were. -/
def sweep [DecidablePred q] : List κ → (Finmap fun _ : κ => β) → List κ × Finmap fun _ : κ => β
  | [], m => ([], m)
  | k :: ks, m =>
      match m.lookup k with
      | some v =>
          if q v then (k :: (sweep ks (m.erase k)).1, (sweep ks (m.erase k)).2)
          else sweep ks m
      | none => sweep ks m

def Covers (ks : List κ) (m : Finmap fun _ : κ => β) : Prop :=
  ∀ k v, m.lookup k = some v → q v → k ∈ ks

variable {q} {k : κ} {ks : List κ} {m m' : Finmap fun _ : κ => β}

/-- Candidates stay complete while only entries that may stay are added. -/
theorem Covers.of_lookup (h : Covers q ks m)
    (hnew : ∀ k v, m'.lookup k = some v → m.lookup k = some v ∨ ¬ q v) : Covers q ks m' := by
  intro k v hlookup hv
  rcases hnew k v hlookup with hold | hstays
  · exact h k v hold hv
  · exact absurd hv hstays

theorem Covers.tail_erase (h : Covers q (k :: ks) m) : Covers q ks (m.erase k) := by
  intro x v hlookup hv
  have hne : x ≠ k := by
    intro heq
    rw [heq, Finmap.lookup_erase] at hlookup
    cases hlookup
  rw [Finmap.lookup_erase_ne hne] at hlookup
  exact (List.mem_cons.mp (h x v hlookup hv)).resolve_left hne

/-- A candidate that may stay can be left out. -/
theorem Covers.tail_of_stays (h : Covers q (k :: ks) m) (hk : ∀ v, m.lookup k = some v → ¬ q v) :
    Covers q ks m := by
  intro x v hlookup hv
  rcases List.mem_cons.mp (h x v hlookup hv) with rfl | hmem
  · exact absurd hv (hk v hlookup)
  · exact hmem

variable [DecidablePred q]

theorem sweep_cons_of_goes {v : β} (hlookup : m.lookup k = some v) (hv : q v) :
    sweep q (k :: ks) m = (k :: (sweep q ks (m.erase k)).1, (sweep q ks (m.erase k)).2) := by
  rw [sweep, hlookup]
  exact if_pos hv

theorem sweep_cons_of_stays (h : ∀ v, m.lookup k = some v → ¬ q v) :
    sweep q (k :: ks) m = sweep q ks m := by
  rw [sweep]
  cases hlookup : m.lookup k with
  | none => rfl
  | some v => exact if_neg (h v hlookup)

/-- **A sweep of covering candidates is the filter of the whole map.** -/
theorem sweep_eq_keep (h : Covers q ks m) : (sweep q ks m).2 = keep (fun v => ¬ q v) m := by
  induction ks generalizing m with
  | nil =>
      apply Finmap.ext_lookup
      intro x
      rw [lookup_keep, sweep]
      cases hlookup : m.lookup x with
      | none => rfl
      | some v =>
          have hstays : ¬ q v := fun hv => absurd (h x v hlookup hv) List.not_mem_nil
          exact (if_pos (decide_eq_true hstays)).symm
  | cons k ks ih =>
      by_cases hgoes : ∃ v, m.lookup k = some v ∧ q v
      · obtain ⟨v, hlookup, hv⟩ := hgoes
        rw [sweep_cons_of_goes hlookup hv, ih h.tail_erase]
        apply Finmap.ext_lookup
        intro x
        rw [lookup_keep, lookup_keep]
        by_cases hx : x = k
        · subst hx
          rw [Finmap.lookup_erase, hlookup]
          exact (if_neg (by simpa using hv)).symm
        · rw [Finmap.lookup_erase_ne hx]
      · have hstays : ∀ v, m.lookup k = some v → ¬ q v := fun v hlookup hv =>
          hgoes ⟨v, hlookup, hv⟩
        rw [sweep_cons_of_stays hstays, ih (h.tail_of_stays hstays)]

/-- The swept keys are those of the entries that had to go. -/
theorem mem_swept (h : Covers q ks m) (x : κ) :
    x ∈ (sweep q ks m).1 ↔ ∃ v, m.lookup x = some v ∧ q v := by
  induction ks generalizing m with
  | nil =>
      constructor
      · intro hx
        cases hx
      · rintro ⟨v, hlookup, hv⟩
        exact h x v hlookup hv
  | cons k ks ih =>
      by_cases hgoes : ∃ v, m.lookup k = some v ∧ q v
      · obtain ⟨v, hlookup, hv⟩ := hgoes
        rw [sweep_cons_of_goes hlookup hv, List.mem_cons, ih h.tail_erase]
        by_cases hx : x = k
        · subst hx
          exact iff_of_true (Or.inl rfl) ⟨v, hlookup, hv⟩
        · simp [hx, Finmap.lookup_erase_ne hx]
      · have hstays : ∀ v, m.lookup k = some v → ¬ q v := fun v hlookup hv =>
          hgoes ⟨v, hlookup, hv⟩
        rw [sweep_cons_of_stays hstays, ih (h.tail_of_stays hstays)]

/-- A swept key was in the map. -/
theorem mem_of_mem_swept (ks : List κ) (m : Finmap fun _ : κ => β) {x : κ}
    (hx : x ∈ (sweep q ks m).1) : x ∈ m := by
  induction ks generalizing m with
  | nil => cases hx
  | cons k ks ih =>
      by_cases hgoes : ∃ v, m.lookup k = some v ∧ q v
      · obtain ⟨v, hlookup, hv⟩ := hgoes
        rw [sweep_cons_of_goes hlookup hv] at hx
        rcases List.mem_cons.mp hx with rfl | hrest
        · exact Finmap.mem_of_lookup_eq_some hlookup
        · exact (Finmap.mem_erase.mp (ih _ hrest)).2
      · rw [sweep_cons_of_stays fun v hlookup hv => hgoes ⟨v, hlookup, hv⟩] at hx
        exact ih m hx

/-- Nothing comes into the map by a sweep. -/
theorem mem_of_mem_sweep (ks : List κ) (m : Finmap fun _ : κ => β) {x : κ}
    (hx : x ∈ (sweep q ks m).2) : x ∈ m := by
  induction ks generalizing m with
  | nil => exact hx
  | cons k ks ih =>
      by_cases hgoes : ∃ v, m.lookup k = some v ∧ q v
      · obtain ⟨v, hlookup, hv⟩ := hgoes
        rw [sweep_cons_of_goes hlookup hv] at hx
        exact (Finmap.mem_erase.mp (ih _ hx)).2
      · rw [sweep_cons_of_stays fun v hlookup hv => hgoes ⟨v, hlookup, hv⟩] at hx
        exact ih m hx

/-- A candidate that has to go is gone, whether or not the candidates cover the map. -/
theorem not_mem_sweep {v : β} {x : κ} (hx : x ∈ ks) (hlookup : m.lookup x = some v)
    (hv : q v) : x ∉ (sweep q ks m).2 := by
  induction ks generalizing m with
  | nil => cases hx
  | cons k ks ih =>
      by_cases heq : x = k
      · subst heq
        rw [sweep_cons_of_goes hlookup hv]
        exact fun hmem => Finmap.notMem_erase_self (mem_of_mem_sweep ks _ hmem)
      · have hrest : x ∈ ks := (List.mem_cons.mp hx).resolve_left heq
        by_cases hgoes : ∃ w, m.lookup k = some w ∧ q w
        · obtain ⟨w, hlookup', hw⟩ := hgoes
          rw [sweep_cons_of_goes hlookup' hw]
          exact ih hrest ((Finmap.lookup_erase_ne heq).trans hlookup)
        · rw [sweep_cons_of_stays fun w hlookup' hw => hgoes ⟨w, hlookup', hw⟩]
          exact ih hrest hlookup

/-- No key is swept twice, even if it is a candidate twice. -/
theorem nodup_swept (ks : List κ) (m : Finmap fun _ : κ => β) : (sweep q ks m).1.Nodup := by
  induction ks generalizing m with
  | nil => exact List.nodup_nil
  | cons k ks ih =>
      by_cases hgoes : ∃ v, m.lookup k = some v ∧ q v
      · obtain ⟨v, hlookup, hv⟩ := hgoes
        rw [sweep_cons_of_goes hlookup hv]
        refine List.nodup_cons.mpr ⟨fun hk => ?_, ih _⟩
        exact Finmap.notMem_erase_self (mem_of_mem_swept ks _ hk)
      · rw [sweep_cons_of_stays fun v hlookup hv => hgoes ⟨v, hlookup, hv⟩]
        exact ih m

end Sweep
