import Mathlib.Data.BitVec

/-!
# Words with flags

A word is a field of high bits and some flags among its low bits. The lemmas say what setting or
clearing a flag does to it and to the other fields, a field being read by a mask.
-/

namespace Lib

variable {w : Nat} {x f c low : BitVec w}

@[simp] theorem or_and_same (x f : BitVec w) : (x ||| f) &&& f = f := by
  ext i hi
  simp only [BitVec.getElem_and, BitVec.getElem_or]
  cases x[i] <;> cases f[i] <;> rfl

@[simp] theorem clear_and_same (x f : BitVec w) : (x &&& ~~~f) &&& f = 0#w := by
  ext i hi
  simp

theorem or_and_other (h : f &&& c = 0#w) : (x ||| f) &&& c = x &&& c := by
  rw [BitVec.and_or_distrib_right, h, BitVec.or_zero]

theorem clear_and_other (h : f &&& c = 0#w) : (x &&& ~~~f) &&& c = x &&& c := by
  have hrest : (~~~f ||| f) &&& c = c := by
    ext i hi
    simp
  rw [BitVec.and_or_distrib_right, h, BitVec.or_zero] at hrest
  rw [BitVec.and_assoc, hrest]

theorem and_flag_of_aligned (h : x &&& low = 0#w) (hc : low &&& c = c) : x &&& c = 0#w := by
  rw [← hc, ← BitVec.and_assoc, h, BitVec.zero_and]

theorem and_not_of_aligned (h : x &&& low = 0#w) : x &&& ~~~low = x := by
  have hsplit : x &&& (~~~low ||| low) = x := by
    ext i hi
    simp
  rw [BitVec.and_or_distrib_left, h, BitVec.or_zero] at hsplit
  exact hsplit

/-! ## Assigning a flag -/

/-- The word with the flag set or cleared. -/
def assign (x f : BitVec w) (value : Bool) : BitVec w := if value then x ||| f else x &&& ~~~f

theorem assign_and_same (x : BitVec w) {f : BitVec w} (hf : f ≠ 0#w) (value : Bool) :
    decide (assign x f value &&& f ≠ 0#w) = value := by
  cases value with
  | true => simp [assign, hf]
  | false => simp [assign]

theorem assign_and_other {f c : BitVec w} (x : BitVec w) (h : f &&& c = 0#w) (value : Bool) :
    assign x f value &&& c = x &&& c := by
  cases value with
  | true => exact or_and_other h
  | false => exact clear_and_other h

end Lib
