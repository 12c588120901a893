import Mathlib.Logic.Basic

/-!
# Resources with at most one holder

`own h a` says that the holder `h` has the resource `a`; a holder may have several. `Owned` says that
no two holders have a resource in common and that everything held is in use. The lemmas are about
what a step may do: a holder gets resources that nobody has (`Owned.acquire`), they go from one holder to
another (`Owned.transfer`), are forgotten (`Owned.mono`) or given back (`Owned.release`).
-/

namespace Lib

variable {ι α : Type} {own own' : ι → α → Prop} {used used' : α → Prop}

/-- Each resource has at most one holder, and is in use if it has one. -/
structure Owned (own : ι → α → Prop) (used : α → Prop) : Prop where
  excl : ∀ {h h' a}, own h a → own h' a → h = h'
  used : ∀ {h a}, own h a → used a

namespace Owned

theorem mono (ho : Owned own used) (hown : ∀ {h a}, own' h a → own h a)
    (hused : ∀ {a}, used a → used' a) : Owned own' used' :=
  ⟨fun h h' => ho.excl (hown h) (hown h'), fun h => hused (ho.used (hown h))⟩

theorem acquire (ho : Owned own used) (k : ι) (A : α → Prop)
    (hown : ∀ {h a}, own' h a → own h a ∨ h = k ∧ A a) (hfree : ∀ {h a}, A a → ¬ own h a)
    (hused : ∀ {a}, used a ∨ A a → used' a) : Owned own' used' where
  excl {h h' a} ha ha' := by
    rcases hown ha with hold | ⟨rfl, hnew⟩ <;> rcases hown ha' with hold' | ⟨rfl, hnew'⟩
    · exact ho.excl hold hold'
    · exact absurd hold (hfree hnew')
    · exact absurd hold' (hfree hnew)
    · rfl
  used {h a} ha := hused ((hown ha).imp ho.used And.right)

theorem transfer (ho : Owned own used) (k k' : ι)
    (hown : ∀ {h a}, own' h a → h = k' ∧ own k a ∨ h ≠ k ∧ own h a)
    (hused : ∀ {a}, used a → used' a) : Owned own' used' where
  excl {h h' a} ha ha' := by
    rcases hown ha with ⟨rfl, hk⟩ | ⟨hne, hold⟩ <;> rcases hown ha' with ⟨rfl, hk'⟩ | ⟨hne', hold'⟩
    · rfl
    · exact absurd (ho.excl hold' hk) hne'
    · exact absurd (ho.excl hold hk') hne
    · exact ho.excl hold hold'
  used {h a} ha := hused ((hown ha).elim (fun h => ho.used h.2) fun h => ho.used h.2)

theorem release (ho : Owned own used) (k : ι) (A : α → Prop) (hA : ∀ {a}, A a → own k a)
    (hown : ∀ {h a}, own' h a → h ≠ k ∧ own h a)
    (hused : ∀ {a}, used a → ¬ A a → used' a) : Owned own' used' where
  excl h h' := ho.excl (hown h).2 (hown h').2
  used {h a} ha := by
    obtain ⟨hne, hold⟩ := hown ha
    exact hused (ho.used hold) fun h => hne (ho.excl hold (hA h))

end Owned

end Lib
