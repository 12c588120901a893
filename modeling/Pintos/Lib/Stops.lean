import Mathlib.Logic.Basic

/-!
# Programs that may stop

A program changes a state and returns a value, or stops for some reason. `Avoids bad m s`: from the
state `s` the program `m` does not stop for a bad reason. `Guarded I bad m`: it does not from any
state of the invariant `I`, which it keeps. The rules take a program apart.
-/

namespace Lib

variable {σ ε α β : Type} {bad : ε → Prop} {m : StateT σ (Except ε) α}
  {f : α → StateT σ (Except ε) β} {s s' : σ} {a : α} {e : ε}

/-- From `s` the program does not stop for a bad reason. -/
def Avoids (bad : ε → Prop) (m : StateT σ (Except ε) α) (s : σ) : Prop :=
  ∀ e, m s = .error e → ¬ bad e

theorem bind_ok (h : m s = .ok (a, s')) : (m >>= f) s = f a s' := by
  show (m s >>= fun p => f p.1 p.2) = _
  rw [h]
  rfl

theorem bind_error (h : m s = .error e) : (m >>= f) s = .error e := by
  show (m s >>= fun p => f p.1 p.2) = _
  rw [h]
  rfl

theorem bind_eq_ok {r : β × σ} :
    (m >>= f) s = .ok r ↔ ∃ a s', m s = .ok (a, s') ∧ f a s' = .ok r := by
  constructor
  · intro h
    cases hm : m s with
    | error e =>
      rw [bind_error hm] at h
      cases h
    | ok p =>
      rw [bind_ok hm] at h
      exact ⟨p.1, p.2, rfl, h⟩
  · rintro ⟨a, s', hm, hf⟩
    rw [bind_ok hm]
    exact hf

theorem avoids_of_ok (h : m s = .ok (a, s')) : Avoids bad m s := by
  intro e he
  rw [h] at he
  cases he

theorem avoids_of_error (h : m s = .error e) : Avoids bad m s ↔ ¬ bad e := by
  constructor
  · intro hm
    exact hm e h
  · intro hgood e' he'
    rw [h] at he'
    cases he'
    exact hgood

@[simp] theorem avoids_pure : Avoids bad (pure a : StateT σ (Except ε) α) s := by
  intro e he
  cases he

theorem avoids_bind :
    Avoids bad (m >>= f) s ↔
      Avoids bad m s ∧ ∀ a s', m s = .ok (a, s') → Avoids bad (f a) s' := by
  cases hm : m s with
  | error e =>
    rw [avoids_of_error (bind_error hm), avoids_of_error hm]
    simp
  | ok p =>
    obtain ⟨a, s'⟩ := p
    have hbind : Avoids bad (m >>= f) s ↔ Avoids bad (f a) s' := by
      unfold Avoids
      rw [bind_ok hm]
    rw [hbind]
    constructor
    · intro hf
      refine ⟨avoids_of_ok hm, fun a₁ s₁ h₁ => ?_⟩
      cases h₁
      exact hf
    · rintro ⟨-, hf⟩
      exact hf a s' rfl

variable {I : σ → Prop}

/-- From the states of `I` the program does not stop for a bad reason, and where it returns it leaves
such a state. -/
def Guarded (I : σ → Prop) (bad : ε → Prop) (m : StateT σ (Except ε) α) : Prop :=
  ∀ s, I s → Avoids bad m s ∧ ∀ a s', m s = .ok (a, s') → I s'

theorem guarded_pure : Guarded I bad (pure a : StateT σ (Except ε) α) := by
  refine fun s hs => ⟨avoids_pure, fun a' s' h => ?_⟩
  cases h
  exact hs

theorem guarded_error {m : StateT σ (Except ε) α} (h : ∀ s, m s = .error e) (he : ¬ bad e) :
    Guarded I bad m := by
  refine fun s _ => ⟨(avoids_of_error (h s)).mpr he, fun a s' hok => ?_⟩
  rw [h s] at hok
  cases hok

theorem Guarded.bind (hm : Guarded I bad m) (hf : ∀ a, Guarded I bad (f a)) :
    Guarded I bad (m >>= f) := by
  intro s hs
  refine ⟨avoids_bind.mpr ⟨(hm s hs).1, fun a s' h => (hf a s' ((hm s hs).2 a s' h)).1⟩, ?_⟩
  intro b s' h
  obtain ⟨a, s₁, ha, hb⟩ := bind_eq_ok.mp h
  exact (hf a s₁ ((hm s hs).2 a s₁ ha)).2 b s' hb

theorem Guarded.ite {c : Prop} [Decidable c] {m' : StateT σ (Except ε) α} (h : Guarded I bad m)
    (h' : Guarded I bad m') : Guarded I bad (if c then m else m') := by
  split
  · exact h
  · exact h'

end Lib
