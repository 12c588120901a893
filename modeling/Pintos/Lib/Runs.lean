import Mathlib.Logic.Function.Basic

/-!
# Guarded runs of an event-driven system

A system is given by a relation `step s e s'`: in state `s` the event `e` may
lead to `s'`. A *guard* `ok s e` says which steps a run is allowed to take. It
only reads the state before the step and the event.

* `Runs step ok s es s'`: the events `es`, taken one after another and each
  meeting the guard, lead from `s` to `s'`.
* `Runs.invariant`: a property kept by every guarded step holds at the end of
  every guarded run.
* `Runs.simulate`: a relation to an abstract state that is updated by a
  function, kept by every guarded step, holds at the end of every guarded run.
* `Always R h`: every event of the history `h` meets the rule `R`, which may
  look at what happened before it.
-/

namespace Lib

variable {σ ε τ : Type}

/-- The runs of `step` all of whose steps meet the guard `ok`. -/
inductive Runs (step : σ → ε → σ → Prop) (ok : σ → ε → Prop) : σ → List ε → σ → Prop
  | nil (s : σ) : Runs step ok s [] s
  | cons {s s' s'' : σ} {e : ε} {es : List ε} :
      ok s e → step s e s' → Runs step ok s' es s'' → Runs step ok s (e :: es) s''

namespace Runs

variable {step : σ → ε → σ → Prop} {ok ok' : σ → ε → Prop} {s s' s'' : σ} {es es' : List ε}

theorem invariant {I : σ → Prop}
    (keep : ∀ {s e s'}, I s → ok s e → step s e s' → I s')
    (h : Runs step ok s es s') : I s → I s' := by
  induction h with
  | nil s => exact id
  | cons hok hstep _ ih => exact fun hi => ih (keep hi hok hstep)

/-- The simulation rule: `f` is the abstract system's own update. -/
theorem simulate {R : σ → τ → Prop} {f : τ → ε → τ}
    (keep : ∀ {s a e s'}, R s a → ok s e → step s e s' → R s' (f a e))
    (h : Runs step ok s es s') : ∀ {a : τ}, R s a → R s' (es.foldl f a) := by
  induction h with
  | nil s => exact fun hr => hr
  | cons hok hstep _ ih => exact fun hr => ih (keep hr hok hstep)

theorem guard {I : σ → Prop} (keep : ∀ {s e s'}, I s → ok s e → step s e s' → I s')
    (himp : ∀ {s e}, I s → ok s e → ok' s e) (h : Runs step ok s es s') :
    I s → Runs step ok' s es s' := by
  induction h with
  | nil s => exact fun _ => nil s
  | cons hok hstep _ ih => exact fun hi => cons (himp hi hok) hstep (ih (keep hi hok hstep))

theorem append (h : Runs step ok s es s') (h' : Runs step ok s' es' s'') :
    Runs step ok s (es ++ es') s'' := by
  induction h with
  | nil s => exact h'
  | cons hok hstep _ ih => exact cons hok hstep (ih h')

end Runs

/-! ## Systems that compute -/

section Compute

variable {f : σ → ε → Option σ}

/-- A call that is possible and does not fail. -/
theorem ite_toOption_eq_some {c : Bool} {r : Except ε σ} {s : σ} :
    (if c then r.toOption else none) = some s ↔ c = true ∧ r = .ok s := by
  cases c <;> cases r <;> simp [Except.toOption]

/-- The state after an event; an event that cannot happen changes nothing. -/
def after (f : σ → ε → Option σ) (s : σ) (e : ε) : σ := (f s e).getD s

theorem after_eq_some {s : σ} {e : ε} (h : (f s e).isSome = true) : f s e = some (after f s e) := by
  obtain ⟨s', hs'⟩ := Option.isSome_iff_exists.mp h
  rw [after, hs', Option.getD_some]

/-- The events can happen one after another, each meeting `ok`. -/
def allows (f : σ → ε → Option σ) (ok : σ → ε → Bool) : σ → List ε → Bool
  | _, [] => true
  | s, e :: es => ok s e && (f s e).isSome && allows f ok (after f s e) es

theorem runs_of_allows {P : σ → ε → Prop} (ok : σ → ε → Bool) (hok : ∀ s e, ok s e = true → P s e)
    {s : σ} {es : List ε} (h : allows f ok s es = true) :
    Runs (fun s e s' => f s e = some s') P s es (es.foldl (after f) s) := by
  induction es generalizing s with
  | nil => exact .nil s
  | cons e es ih =>
    simp only [allows, Bool.and_eq_true] at h
    obtain ⟨⟨hp, hsome⟩, hrest⟩ := h
    exact .cons (hok s e hp) (after_eq_some hsome) (ih hrest)

end Compute

/-! ## Histories -/

/-- Every event of a history, the latest first, meets the rule. -/
def Always (R : List ε → ε → Prop) : List ε → Prop
  | [] => True
  | e :: old => R old e ∧ Always R old

theorem Always.rule {R : List ε → ε → Prop} {new old : List ε} {e : ε}
    (h : Always R (new ++ e :: old)) : R old e := by
  induction new with
  | nil => exact h.1
  | cons _ _ ih => exact ih h.2

end Lib
