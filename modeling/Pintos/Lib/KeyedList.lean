import Mathlib.Data.Finmap
import Mathlib.Data.Finset.Card

/-!
# Lists of elements that carry their own key

A container keeps elements, not pairs: the key of an element is a function `cls` of it. A
list of elements with pairwise different keys stands for the finite map that takes a key to
the element with that key. `Represents cls l m` says so, and the lemmas below say how the
map changes when an element is put into the list or taken out of it. The order of the list
does not matter (`Represents.perm`).
-/

namespace Lib

open List

variable {α γ : Type} {cls : α → γ} {l l' : List α} {m : Finmap fun _ : γ => α} {x : α} {c : γ}

/-- The finite map from keys to elements that a list of elements stands for. -/
structure Represents [DecidableEq γ] (cls : α → γ) (l : List α) (m : Finmap fun _ : γ => α) :
    Prop where
  distinct : (l.map cls).Nodup
  lookup_iff : ∀ c x, m.lookup c = some x ↔ x ∈ l ∧ cls x = c

namespace Represents

variable [DecidableEq γ]

theorem empty : Represents cls [] ∅ := ⟨nodup_nil, by simp⟩

theorem perm (h : Represents cls l m) (hp : l.Perm l') : Represents cls l' m :=
  ⟨(hp.map cls).nodup_iff.mp h.distinct, fun c x => by rw [h.lookup_iff, hp.mem_iff]⟩

theorem lookup_eq_none (h : Represents cls l m) : m.lookup c = none ↔ ∀ x ∈ l, cls x ≠ c := by
  rw [Option.eq_none_iff_forall_ne_some]
  constructor
  · intro hnone x hx hc
    exact hnone x ((h.lookup_iff c x).mpr ⟨hx, hc⟩)
  · intro hall x hx
    obtain ⟨hmem, hc⟩ := (h.lookup_iff c x).mp hx
    exact hall x hmem hc

theorem cons (h : Represents cls l m) (hnew : m.lookup (cls x) = none) :
    Represents cls (x :: l) (m.insert (cls x) x) := by
  have hne := h.lookup_eq_none.mp hnew
  refine ⟨?_, fun c y => ?_⟩
  · rw [map_cons, nodup_cons]
    refine ⟨fun hmem => ?_, h.distinct⟩
    obtain ⟨y, hy, heq⟩ := mem_map.mp hmem
    exact hne y hy heq
  · by_cases hc : c = cls x
    · subst hc
      rw [Finmap.lookup_insert, mem_cons]
      constructor
      · intro heq
        cases heq
        exact ⟨.inl rfl, rfl⟩
      · rintro ⟨rfl | hy, heq⟩
        · rfl
        · exact absurd heq (hne y hy)
    · rw [Finmap.lookup_insert_of_ne _ hc, h.lookup_iff, mem_cons]
      constructor
      · exact fun ⟨hy, heq⟩ => ⟨.inr hy, heq⟩
      · rintro ⟨rfl | hy, heq⟩
        · exact absurd heq.symm hc
        · exact ⟨hy, heq⟩

theorem tail (h : Represents cls (x :: l) m) : Represents cls l (m.erase (cls x)) := by
  have hnd := h.distinct
  rw [map_cons, nodup_cons] at hnd
  refine ⟨hnd.2, fun c y => ?_⟩
  have hne : y ∈ l → cls y ≠ cls x := fun hy heq => hnd.1 (heq ▸ mem_map_of_mem hy)
  by_cases hc : c = cls x
  · subst hc
    rw [Finmap.lookup_erase]
    exact ⟨nofun, fun ⟨hy, heq⟩ => absurd heq (hne hy)⟩
  · rw [Finmap.lookup_erase_ne hc, h.lookup_iff, mem_cons]
    constructor
    · rintro ⟨rfl | hy, heq⟩
      · exact absurd heq.symm hc
      · exact ⟨hy, heq⟩
    · exact fun ⟨hy, heq⟩ => ⟨.inr hy, heq⟩

theorem card_keys (h : Represents cls l m) : m.keys.card = l.length := by
  have hkeys : m.keys = (l.map cls).toFinset := by
    ext c
    rw [Finmap.mem_keys, Finmap.mem_iff, mem_toFinset, mem_map]
    simp only [h.lookup_iff]
  rw [hkeys, toFinset_card_of_nodup h.distinct, length_map]

end Represents

end Lib
