import Mathlib.Algebra.BigOperators.Group.Finset.Piecewise

/-!
# Tables of optional values

A table is a function `f` from indices to optional values, of which a list `is` of indices without
duplicates is looked at. What the table holds is `is.filterMap f`.
-/

namespace Lib

open Function List

variable {ι α : Type} [DecidableEq ι] {is : List ι} {f : ι → Option α} {i : ι} {x : α}

theorem update_eq_some {j : ι} {y : α} (h : update f i (some x) j = some y) :
    j = i ∧ y = x ∨ j ≠ i ∧ f j = some y := by
  by_cases hj : j = i
  · subst hj
    rw [update_self] at h
    exact .inl ⟨rfl, (Option.some.inj h).symm⟩
  · rw [update_of_ne hj] at h
    exact .inr ⟨hj, h⟩

theorem update_none_eq_some {j : ι} {y : α} (h : update f i none j = some y) :
    j ≠ i ∧ f j = some y := by
  by_cases hj : j = i
  · subst hj
    rw [update_self] at h
    cases h
  · rw [update_of_ne hj] at h
    exact ⟨hj, h⟩

theorem filterMap_update (hnd : is.Nodup) (hi : i ∈ is) (hfree : f i = none) :
    (is.filterMap (update f i (some x))).Perm (x :: is.filterMap f) := by
  obtain ⟨l₁, l₂, rfl⟩ := append_of_mem hi
  rw [nodup_append] at hnd
  obtain ⟨-, hnd₂, hdisj⟩ := hnd
  have hsame : ∀ l : List ι, i ∉ l → l.filterMap (update f i (some x)) = l.filterMap f := by
    intro l hl
    refine filterMap_congr fun j hj => update_of_ne ?_ ..
    rintro rfl
    exact hl hj
  have h₁ := hsame l₁ fun hmem => hdisj i hmem i mem_cons_self rfl
  have h₂ := hsame l₂ (nodup_cons.mp hnd₂).1
  rw [filterMap_append, filterMap_append, filterMap_cons_none hfree,
    filterMap_cons_some (update_self ..), h₁, h₂]
  exact perm_middle

theorem filterMap_clear (hnd : is.Nodup) (hi : i ∈ is) (hx : f i = some x) :
    (is.filterMap f).Perm (x :: is.filterMap (update f i none)) := by
  have hupdate := @filterMap_update ι α _ is (update f i none) i x hnd hi
    (update_self ..)
  rw [update_idem, ← hx, update_eq_self] at hupdate
  exact hupdate

theorem sum_countP {l : List α} {n : Nat} (cls : α → Nat) (h : ∀ y ∈ l, cls y < n) :
    ∑ c ∈ Finset.range n, l.countP (fun y => cls y = c) = l.length := by
  induction l with
  | nil => simp
  | cons y l ih =>
    have hy : cls y ∈ Finset.range n := Finset.mem_range.mpr (h y mem_cons_self)
    simp only [countP_cons, decide_eq_true_eq, Finset.sum_add_distrib, length_cons,
      Finset.sum_ite_eq, if_pos hy, ih fun z hz => h z (mem_cons_of_mem y hz)]

theorem countP_getD_le {l : List α} {p : α → Bool} {d : α} (hd : p d = false) {places : List Nat}
    (hnd : places.Nodup) : places.countP (fun i => p (l.getD i d)) ≤ l.countP p := by
  have hall : (List.range l.length).map (fun i => l.getD i d) = l := by
    refine ext_getElem (by simp) fun i hi hi' => ?_
    simp [getD_eq_getElem?_getD, List.getElem?_eq_getElem hi']
  have hcount : l.countP p = ((List.range l.length).filter fun i => p (l.getD i d)).length := by
    rw [← countP_eq_length_filter]
    conv_lhs => rw [← hall, countP_map]
    rfl
  rw [hcount, countP_eq_length_filter]
  refine ((hnd.filter _).subperm fun i hi => ?_).length_le
  obtain ⟨-, hp⟩ := mem_filter.mp hi
  refine mem_filter.mpr ⟨mem_range.mpr ?_, hp⟩
  by_contra hge
  rw [getD_eq_getElem?_getD, List.getElem?_eq_none (Nat.not_lt.mp hge), Option.getD_none, hd] at hp
  cases hp

end Lib
