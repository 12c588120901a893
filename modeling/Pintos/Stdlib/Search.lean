import Mathlib.Tactic.IntervalCases
import Pintos.Lib.Bytes

/-!
# Searching arrays (`lib/stdlib.c`)

An array is its address, the size of its elements and their number. The code reaches an element by
its address and compares the bytes there.
-/

namespace Pintos

open Lib

/-- The arguments `array`, `cnt` and `size`, for an array in the 32-bit address space. -/
structure Arr where
  array : Nat
  cnt : Nat
  size : Nat
  fits : array + size * cnt < 4294967296

/-- The bytes of element `i`. -/
def Arr.elem (A : Arr) (m : Mem) (i : Nat) : List UInt8 :=
  (List.range A.size).map fun k => m (A.array + i * A.size + k)

/-- A result of type `strcmp`, for a total preorder. -/
structure Compares {α : Type} (compare : α → α → Int) : Prop where
  swap : ∀ a b, 0 < compare a b ↔ compare b a < 0
  trans : ∀ {a b c}, compare a b ≤ 0 → compare b c ≤ 0 → compare a c ≤ 0

theorem Compares.mono {α : Type} {compare : α → α → Int} (h : Compares compare) (key : α) {a b : α}
    (hab : compare a b ≤ 0) : (compare key a < 0 → compare key b < 0) ∧
      (0 < compare key b → 0 < compare key a) := by
  have ha := h.swap a key
  have hb := h.swap b key
  constructor
  · intro hneg
    by_contra hge
    have := h.trans hab (show compare b key ≤ 0 by omega)
    omega
  · intro hpos
    by_contra hle
    have := h.trans (show compare key a ≤ 0 by omega) hab
    omega

/-! ## The code -/

section Calls

variable {Aux : Type}

/-- The loop of `binary_search`, with the addresses that are handed to `compare`. -/
def searchLoop (compare : Nat → Int) (size : Nat) : Nat → Nat → Nat → Option (Option Nat × List Nat)
  | 0, _, _ => none
  | fuel + 1, first, last =>
    if first < last then
      let range := (last - first) / size
      let middle := first + range / 2 * size
      let cmp := compare middle
      let note := Prod.map id (List.cons middle)
      if cmp < 0 then (searchLoop compare size fuel first middle).map note
      else if 0 < cmp then (searchLoop compare size fuel (middle + size) last).map note
      else some (some middle, [middle])
    else some (none, [])

/-- `binary_search`; the first component of its result is the pointer that is returned. -/
def binarySearch (key : List UInt8) (A : Arr) (compare : List UInt8 → List UInt8 → Aux → Int)
    (aux : Aux) (m : Mem) : Option (Option Nat × List Nat) :=
  searchLoop (fun p => compare key ((List.range A.size).map fun k => m (p + k)) aux) A.size
    (A.cnt + 1) A.array (A.array + A.size * A.cnt)

/-- `compare_thunk`, whose auxiliary data is the function to be called. -/
def compareThunk (a b : List UInt8) (aux : List UInt8 → List UInt8 → Int) : Int := aux a b

def bsearch (key : List UInt8) (A : Arr) (compare : List UInt8 → List UInt8 → Int) (m : Mem) :
    Option (Option Nat × List Nat) :=
  binarySearch key A compareThunk compare m

end Calls

/-! ## The loop -/

section Searching

variable {compare : Nat → Int} {array cnt size : Nat}

/-- What the search has to find: an element that compares equal. -/
structure Found (compare : Nat → Int) (array cnt size : Nat) (r : Option Nat × List Nat) : Prop where
  reads : ∀ p ∈ r.2, ∃ i < cnt, p = array + i * size
  sound : ∀ p, r.1 = some p → ∃ i < cnt, p = array + i * size ∧ compare p = 0
  complete : r.1 = none → ∀ i < cnt, compare (array + i * size) ≠ 0

theorem searchLoop_ok (hsize : 0 < size)
    (hsorted : ∀ i j, i ≤ j → j < cnt →
      (compare (array + i * size) < 0 → compare (array + j * size) < 0) ∧
      (0 < compare (array + j * size) → 0 < compare (array + i * size)))
    {fuel i j : Nat} (hij : i ≤ j) (hj : j ≤ cnt) (hfuel : j < i + fuel)
    (hout : ∀ k < cnt, k < i ∨ j ≤ k → compare (array + k * size) ≠ 0) :
    ∃ r, searchLoop compare size fuel (array + i * size) (array + j * size) = some r ∧
      Found compare array cnt size r := by
  induction fuel generalizing i j with
  | zero => omega
  | succ fuel ih =>
    unfold searchLoop
    by_cases hlt : i < j
    · have hmul := Nat.mul_lt_mul_of_pos_right hlt hsize
      have hrange : (array + j * size - (array + i * size)) / size = j - i := by
        rw [Nat.add_sub_add_left, ← Nat.sub_mul, Nat.mul_div_cancel _ hsize]
      have hmiddle : array + i * size + (j - i) / 2 * size = array + (i + (j - i) / 2) * size := by
        rw [Nat.add_mul, Nat.add_assoc]
      have hmid : i + (j - i) / 2 < j := by omega
      simp only [hrange, hmiddle]
      have hlow : i ≤ i + (j - i) / 2 := Nat.le_add_right _ _
      generalize i + (j - i) / 2 = k at hmid hlow
      rw [if_pos (by omega)]
      -- the elements on the wrong side of the middle compare like the middle
      have hadd : ∀ {r : Option Nat × List Nat}, Found compare array cnt size r →
          Found compare array cnt size (Prod.map id (List.cons (array + k * size)) r) := by
        intro r hr
        refine ⟨fun p hp => ?_, hr.sound, hr.complete⟩
        rcases List.mem_cons.mp hp with rfl | hp
        · exact ⟨k, by omega, rfl⟩
        · exact hr.reads p hp
      by_cases hneg : compare (array + k * size) < 0
      · rw [if_pos hneg]
        obtain ⟨r, hloop, hr⟩ := ih (i := i) (j := k) hlow (by omega) (by omega) fun l hl hor => by
          by_cases hkl : k ≤ l
          · exact Int.ne_of_lt ((hsorted k l hkl hl).1 hneg)
          · exact hout l hl (by omega)
        exact ⟨_, by rw [hloop]; rfl, hadd hr⟩
      · rw [if_neg hneg]
        by_cases hpos : 0 < compare (array + k * size)
        · rw [if_pos hpos]
          have hnext : array + k * size + size = array + (k + 1) * size := by
            rw [Nat.succ_mul, Nat.add_assoc]
          rw [hnext]
          obtain ⟨r, hloop, hr⟩ := ih (i := k + 1) (j := j) (by omega) hj (by omega) fun l hl hor => by
            by_cases hkl : l ≤ k
            · exact Int.ne_of_gt ((hsorted l k hkl (by omega)).2 hpos)
            · exact hout l hl (by omega)
          exact ⟨_, by rw [hloop]; rfl, hadd hr⟩
        · rw [if_neg hpos]
          refine ⟨_, rfl, ⟨fun p hp => ?_, fun p hp => ?_, nofun⟩⟩
          · exact ⟨k, by omega, List.mem_singleton.mp hp⟩
          · cases hp
            exact ⟨k, by omega, rfl, by omega⟩
    · obtain rfl : i = j := by omega
      rw [if_neg (Nat.lt_irrefl _)]
      exact ⟨_, rfl, ⟨nofun, nofun, fun _ k hk => hout k hk (by omega)⟩⟩

end Searching

/-- Only elements of the array have been read, and one that compares equal to the key is returned if
there is one. -/
def Finds (key : List UInt8) (A : Arr) (compare : List UInt8 → List UInt8 → Int) (m : Mem)
    (r : Option Nat × List Nat) : Prop :=
  (∀ p ∈ r.2, ∃ i < A.cnt, p = A.array + i * A.size) ∧
  (∀ p, r.1 = some p → ∃ i < A.cnt, p = A.array + i * A.size ∧ compare key (A.elem m i) = 0) ∧
  (r.1 = none → ∀ i < A.cnt, compare key (A.elem m i) ≠ 0)

theorem binarySearch_finds {Aux : Type} {A : Arr} {compare : List UInt8 → List UInt8 → Aux → Int}
    {aux : Aux} {m : Mem} (key : List UInt8) (h : Compares (compare · · aux)) (hsize : 0 < A.size)
    (hsorted : ∀ i j, i ≤ j → j < A.cnt → compare (A.elem m i) (A.elem m j) aux ≤ 0) :
    ∃ r, binarySearch key A compare aux m = some r ∧ Finds key A (compare · · aux) m r := by
  obtain ⟨r, hloop, hr⟩ := @searchLoop_ok
    (fun p => compare key ((List.range A.size).map fun k => m (p + k)) aux) A.array A.cnt A.size hsize
    (fun i j hij hj => h.mono key (hsorted i j hij hj))
    (A.cnt + 1) 0 A.cnt (Nat.zero_le _) (Nat.le_refl _) (by omega) (fun k _ hk => by omega)
  rw [Nat.zero_mul, Nat.add_zero, Nat.mul_comm] at hloop
  refine ⟨r, hloop, hr.reads, fun p hp => ?_, hr.complete⟩
  obtain ⟨i, hi, rfl, hzero⟩ := hr.sound p hp
  exact ⟨i, hi, rfl, hzero⟩

/-- **`binary_search` and `bsearch` are complete and sound.** -/
theorem binary_search_correct (key : List UInt8) (A : Arr) (m : Mem) (hsize : 0 < A.size) :
    (∀ (Aux : Type) (compare : List UInt8 → List UInt8 → Aux → Int) (aux : Aux),
      Compares (compare · · aux) →
      (∀ i j, i ≤ j → j < A.cnt → compare (A.elem m i) (A.elem m j) aux ≤ 0) →
      ∃ r, binarySearch key A compare aux m = some r ∧ Finds key A (compare · · aux) m r) ∧
    ∀ compare, Compares compare →
      (∀ i j, i ≤ j → j < A.cnt → compare (A.elem m i) (A.elem m j) ≤ 0) →
      ∃ r, bsearch key A compare m = some r ∧ Finds key A compare m r :=
  ⟨fun _ _ _ h => binarySearch_finds key h hsize, fun compare h =>
    @binarySearch_finds _ A compareThunk compare m key h hsize⟩

/-- The order of the first bytes. -/
def byFirst (a b : List UInt8) (_ : Unit) : Int := (a.headD 0).toNat - (b.headD 0).toNat

theorem byFirst_compares : Compares (byFirst · · ()) where
  swap a b := by simp only [byFirst]; omega
  trans hab hbc := by simp only [byFirst] at *; omega

theorem binary_search_correct_three : ∃ r,
    binarySearch [18] ⟨16, 3, 1, by decide⟩ byFirst () (fun p => UInt8.ofNat p) = some r ∧
      Finds [18] ⟨16, 3, 1, by decide⟩ (byFirst · · ()) (fun p => UInt8.ofNat p) r := by
  refine (binary_search_correct [18] ⟨16, 3, 1, by decide⟩ _ (by decide)).1 Unit byFirst () byFirst_compares ?_
  intro i j hij hj
  have hj : j < 3 := hj
  interval_cases j <;> interval_cases i <;> decide

end Pintos
