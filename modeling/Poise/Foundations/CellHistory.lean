import Mathlib.Tactic

/-!
# Foundations: the history of a cell

A machine takes one step for each event.  A cell of its state is written by some
steps and kept by the others, and what a step writes may depend on the state it
starts from.  The steps of a run are therefore recorded with their states, and
the content of the cell is the last value written in that record.
-/

namespace Foundations

universe u v w

section CellHistory

variable {σ : Type u}
variable {ε : Type v}
variable {β : Type w}

/-- The states in which the events of a run are processed, with the events. -/
def trace (step : σ → ε → σ) : σ → List ε → List (σ × ε)
  | _, [] => []
  | s, e :: es => (s, e) :: trace step (step s e) es

@[simp] theorem trace_nil
    (step : σ → ε → σ)
    (s : σ) :
    trace step s [] = [] := by
  rfl

@[simp] theorem trace_cons
    (step : σ → ε → σ)
    (s : σ)
    (e : ε)
    (es : List ε) :
    trace step s (e :: es) = (s, e) :: trace step (step s e) es := by
  rfl

/-- The record of a run is the record of its first part and of the rest. -/
theorem trace_append
    (step : σ → ε → σ)
    (s : σ)
    (xs ys : List ε) :
    trace step s (xs ++ ys) =
      trace step s xs ++ trace step (xs.foldl step s) ys := by
  induction xs generalizing s with
  | nil =>
      rfl
  | cons e xs ih =>
      simp [ih]

/-- An event of the record splits the run at the point where it is processed. -/
theorem mem_trace_iff
    {step : σ → ε → σ} {s t : σ} {e : ε} {es : List ε} :
    (t, e) ∈ trace step s es ↔
      ∃ before after, es = before ++ e :: after ∧ t = before.foldl step s := by
  induction es generalizing s with
  | nil =>
      simp
  | cons d es ih =>
      rw [trace_cons, List.mem_cons, ih]
      constructor
      · rintro (heq | ⟨before, after, rfl, rfl⟩)
        · cases heq
          exact ⟨[], es, rfl, rfl⟩
        · exact ⟨d :: before, after, rfl, rfl⟩
      · rintro ⟨before, after, hes, rfl⟩
        cases before with
        | nil =>
            cases hes
            exact Or.inl rfl
        | cons b before =>
            cases hes
            exact Or.inr ⟨before, after, rfl, rfl⟩

/-- The last recorded event a test selects. -/
def lastEvent (test : σ × ε → Bool) (record : List (σ × ε)) : Option (σ × ε) :=
  (record.filter test).getLast?

/-- A cell holds what the last writing event left, and its start value when there was none. -/
theorem cell_foldl_eq_lastEvent
    (cell : σ → β)
    (writes : σ × ε → Bool)
    (value : σ × ε → β)
    {step : σ → ε → σ}
    (hstep : ∀ s e,
      cell (step s e) = if writes (s, e) then value (s, e) else cell s)
    (s : σ)
    (es : List ε) :
    cell (es.foldl step s) =
      ((lastEvent writes (trace step s es)).map value).getD (cell s) := by
  induction es generalizing s with
  | nil =>
      rfl
  | cons e es ih =>
      rw [List.foldl_cons, ih, hstep]
      unfold lastEvent
      rw [trace_cons]
      cases hw : writes (s, e) with
      | true =>
          rw [List.filter_cons_of_pos hw, List.getLast?_cons]
          cases ((trace step (step s e) es).filter writes).getLast? with
          | none =>
              rfl
          | some q =>
              rfl
      | false =>
          rw [List.filter_cons_of_neg (by simp [hw])]
          rfl

/-- The last event of a wide selection is the last of a narrow one when it belongs to it. -/
theorem lastEvent_of_imp
    {p q : σ × ε → Bool} {l : List (σ × ε)} {x : σ × ε}
    (himp : ∀ a, p a = true → q a = true)
    (hlast : lastEvent q l = some x)
    (hx : p x = true) :
    lastEvent p l = some x := by
  unfold lastEvent at hlast ⊢
  obtain ⟨init, hinit⟩ := List.getLast?_eq_some_iff.mp hlast
  have hnarrow : (l.filter q).filter p = l.filter p := by
    rw [List.filter_filter]
    apply List.filter_congr
    intro a _
    cases hp : p a with
    | true =>
        simp [himp a hp]
    | false =>
        simp
  rw [← hnarrow, hinit, List.filter_append]
  simp [hx]

/-- A predicate that steps preserve holds at the end of every run. -/
theorem foldl_invariant
    {step : σ → ε → σ} {P : σ → Prop}
    (hstep : ∀ s e, P s → P (step s e))
    {s : σ}
    (hs : P s)
    (es : List ε) :
    P (es.foldl step s) := by
  induction es generalizing s with
  | nil =>
      exact hs
  | cons e es ih =>
      exact ih (hstep s e hs)

/--
In a run whose steps all preserve a predicate on the record and the state, it
holds in every state reached.  Each step is considered where the run takes it.
-/
theorem trace_invariant_of_steps
    {step : σ → ε → σ} {P : List (σ × ε) → σ → Prop} {s : σ} {es : List ε}
    (hs : P [] s)
    (hstep : ∀ before e after,
      es = before ++ e :: after →
        P (trace step s before) (before.foldl step s) →
          P (trace step s before ++ [(before.foldl step s, e)])
            (step (before.foldl step s) e)) :
    ∀ before after, es = before ++ after → P (trace step s before) (before.foldl step s) := by
  intro before
  induction before using List.reverseRecOn with
  | nil =>
      intro _ _
      exact hs
  | append_singleton before e ih =>
      intro after hes
      have hsplit : es = before ++ e :: after := by
        rw [hes, List.append_assoc]
        rfl
      rw [List.foldl_append, trace_append]
      exact hstep before e after hsplit (ih (e :: after) hsplit)

/-- The same for a predicate on the state alone. -/
theorem foldl_invariant_of_steps
    {step : σ → ε → σ} {P : σ → Prop} {s : σ} {es : List ε}
    (hs : P s)
    (hstep : ∀ before e after,
      es = before ++ e :: after →
        P (before.foldl step s) → P (step (before.foldl step s) e)) :
    ∀ before after, es = before ++ after → P (before.foldl step s) :=
  trace_invariant_of_steps (P := fun _ => P) hs hstep

end CellHistory

end Foundations
