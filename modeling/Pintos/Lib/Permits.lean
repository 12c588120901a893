import Mathlib.Data.List.Count

/-!
# A semaphore and the threads that have passed it

`Permits holds value ts n`: what a semaphore has left and the threads that hold a permit make up `n`.
`down` and `up` of a thread keep it, and with one permit at most one thread holds it.
-/

namespace Lib

open List

variable {τ : Type} {holds : τ → Bool} {value n i : Nat} {ts : List τ} {x x' : τ}

theorem countP_change {p q : τ → Bool} (hnd : ts.Nodup) (hx : x ∈ ts)
    (hsame : ∀ y ∈ ts, y ≠ x → q y = p y) :
    ts.countP q + (if p x then 1 else 0) = ts.countP p + if q x then 1 else 0 := by
  induction ts with
  | nil => cases hx
  | cons y ts ih =>
    rw [nodup_cons] at hnd
    rw [countP_cons, countP_cons]
    by_cases hy : y = x
    · subst hy
      have hrest : ts.countP q = ts.countP p := by
        apply countP_congr
        intro z hz
        rw [hsame z (mem_cons_of_mem _ hz) fun heq => hnd.1 (heq ▸ hz)]
      omega
    · have hmem : x ∈ ts := (mem_cons.mp hx).resolve_left fun heq => hy heq.symm
      have := ih hnd.2 hmem fun z hz => hsame z (mem_cons_of_mem _ hz)
      rw [hsame y mem_cons_self hy]
      omega

/-- The permits that are left and those that are held make up `n`. -/
def Permits (holds : τ → Bool) (value : Nat) (ts : List τ) (n : Nat) : Prop :=
  value + ts.countP holds = n

namespace Permits

theorem countP_set_of_getElem? (p : τ → Bool) (hx : ts[i]? = some x) (x' : τ) :
    (ts.set i x').countP p + (if p x then 1 else 0) = ts.countP p + if p x' then 1 else 0 := by
  induction ts generalizing i with
  | nil => cases hx
  | cons y ts ih =>
    cases i with
    | zero =>
      cases Option.some.inj hx
      rw [set_cons_zero, countP_cons, countP_cons]
      omega
    | succ i =>
      have hrest := ih hx
      rw [set_cons_succ, countP_cons, countP_cons]
      omega

section

variable (h : Permits holds value ts n) (hx : ts[i]? = some x)
include h hx

theorem down (hpos : 0 < value) (hold : holds x = false) (hnew : holds x' = true) :
    Permits holds (value - 1) (ts.set i x') n := by
  have hcount := countP_set_of_getElem? holds hx x'
  rw [hold, hnew] at hcount
  simp only [Bool.false_eq_true, if_false, if_true] at hcount
  unfold Permits at h ⊢
  omega

theorem up (hold : holds x = true) (hnew : holds x' = false) :
    Permits holds (value + 1) (ts.set i x') n := by
  have hcount := countP_set_of_getElem? holds hx x'
  rw [hold, hnew] at hcount
  simp only [Bool.false_eq_true, if_false, if_true] at hcount
  unfold Permits at h ⊢
  omega

theorem set (hsame : holds x' = holds x) : Permits holds value (ts.set i x') n := by
  have hcount := countP_set_of_getElem? holds hx x'
  rw [hsame] at hcount
  unfold Permits at h ⊢
  omega

end

theorem push (h : Permits holds value ts n) (hnew : holds x = false) :
    Permits holds value (ts ++ [x]) n := by
  unfold Permits at h ⊢
  rw [countP_append, countP_cons, hnew, countP_nil]
  exact h

/-- Of one permit there is at most one holder. -/
theorem exclusive {j : Nat} {y : τ} (h : Permits holds value ts 1) (hx : ts[i]? = some x)
    (hy : ts[j]? = some y) (hi : holds x = true) (hj : holds y = true) : i = j := by
  unfold Permits at h
  induction ts generalizing i j value with
  | nil => cases hx
  | cons z ts ih =>
    rw [countP_cons] at h
    -- a holder in the rest of the list is counted there
    have hrest : ∀ {k w}, ts[k]? = some w → holds w = true → 0 < ts.countP holds :=
      fun hw hh => countP_pos_iff.mpr ⟨_, mem_of_getElem? hw, hh⟩
    cases i with
    | zero =>
      cases Option.some.inj hx
      cases j with
      | zero => rfl
      | succ j =>
        have hpos := hrest hy hj
        rw [hi] at h
        simp only [if_true] at h
        omega
    | succ i =>
      have hpos := hrest hx hi
      cases j with
      | zero =>
        cases Option.some.inj hy
        rw [hj] at h
        simp only [if_true] at h
        omega
      | succ j =>
        have hcount : value + (if holds z = true then 1 else 0) + ts.countP holds = 1 := by
          omega
        rw [ih hcount hx hy]

end Permits

end Lib
