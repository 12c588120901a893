import Mathlib.Data.List.GetD
import Mathlib.Data.UInt
import Mathlib.Logic.Function.Basic

/-!
# Byte-addressed memories

A memory is a function from addresses to bytes. `write` replaces the bytes of
one range and leaves the others alone; everything that is needed about it is
which bytes it changes. `word` and `setWord` read and store 32-bit numbers, the
low byte first.
-/

namespace Lib

open List

/-- A byte-addressed memory. -/
abbrev Mem := Nat → UInt8

namespace Mem

/-- `m` with the `n` bytes from address `a` replaced by those of `src`. -/
def write (m : Mem) (a n : Nat) (src : Nat → UInt8) : Mem :=
  fun x => if a ≤ x ∧ x < a + n then src (x - a) else m x

/-- `memset`: the `n` bytes from `a` become `b`. -/
def fill (m : Mem) (a n : Nat) (b : UInt8) : Mem := m.write a n (fun _ => b)

variable {a n x : Nat} {l : List UInt8} {m : Mem} {src : Nat → UInt8}

theorem write_in (h₁ : a ≤ x) (h₂ : x < a + n) :
    m.write a n src x = src (x - a) := if_pos ⟨h₁, h₂⟩

theorem write_out (h : x < a ∨ a + n ≤ x) :
    m.write a n src x = m x := if_neg (by omega)

@[simp] theorem write_add {m : Mem} {a n o : Nat} {src : Nat → UInt8} (h : o < n) :
    m.write a n src (a + o) = src o := by
  rw [write_in (by omega) (by omega), Nat.add_sub_cancel_left]

@[simp] theorem fill_add {m : Mem} {a n o : Nat} {b : UInt8} (h : o < n) :
    m.fill a n b (a + o) = b := write_add h

theorem fill_out {b : UInt8} (h : x < a ∨ a + n ≤ x) :
    m.fill a n b x = m x := write_out h

@[simp] theorem write_zero : m.write a 0 src = m := by
  funext x
  rw [write_out (by omega)]

theorem write_congr {f g : Nat → UInt8} (h : ∀ i < n, f i = g i) :
    m.write a n f = m.write a n g := by
  funext x
  by_cases hx : a ≤ x ∧ x < a + n
  · rw [write_in hx.1 hx.2, write_in hx.1 hx.2, h _ (by omega)]
  · rw [write_out (by omega), write_out (by omega)]

theorem write_write {n' : Nat} {f g : Nat → UInt8} (hf : ∀ i < n, f i = src i)
    (hg : ∀ i < n', g i = src (n + i)) :
    (m.write a n f).write (a + n) n' g = m.write a (n + n') src := by
  funext x
  by_cases h₁ : a ≤ x ∧ x < a + n
  · rw [write_out (by omega), write_in h₁.1 h₁.2, write_in h₁.1 (by omega), hf _ (by omega)]
  · by_cases h₂ : a + n ≤ x ∧ x < a + n + n'
    · have hofs : x - a = n + (x - (a + n)) := by omega
      rw [write_in h₂.1 h₂.2, write_in (by omega) (by omega), hg _ (by omega), hofs]
    · rw [write_out (by omega), write_out (by omega), write_out (by omega)]

/-! ## Strings -/

/-- The bytes of the list stand from `a` on. -/
def Holds (m : Mem) (a : Nat) : List UInt8 → Prop
  | [] => True
  | b :: bs => m a = b ∧ Holds m (a + 1) bs

theorem holds_append {l' : List UInt8} :
    m.Holds a (l ++ l') ↔ m.Holds a l ∧ m.Holds (a + l.length) l' := by
  induction l generalizing a with
  | nil =>
    show m.Holds a l' ↔ True ∧ m.Holds a l'
    rw [true_and]
  | cons b l ih =>
    have hend : a + (b :: l).length = a + 1 + l.length := by
      rw [length_cons]
      omega
    rw [hend]
    show m a = b ∧ m.Holds (a + 1) (l ++ l') ↔ (m a = b ∧ m.Holds (a + 1) l) ∧ _
    rw [ih, and_assoc]

theorem Holds.congr {m' : Mem} (h : m.Holds a l)
    (hm : ∀ x, a ≤ x → x < a + l.length → m' x = m x) : m'.Holds a l := by
  induction l generalizing a with
  | nil => trivial
  | cons b l ih =>
    rw [length_cons] at hm
    refine ⟨(hm a (by omega) (by omega)).trans h.1, ih h.2 ?_⟩
    intro x hlo hhi
    exact hm x (by omega) (by omega)

theorem holds_write
    (hsrc : ∀ i ≤ l.length, src i = l.getD i 0) :
    (m.write a (l.length + 1) src).Holds a (l ++ [0]) := by
  induction l generalizing a src m with
  | nil =>
    refine ⟨?_, trivial⟩
    rw [write_in (by omega) (by rw [length_nil]; omega), Nat.sub_self]
    exact hsrc 0 (Nat.le_refl 0)
  | cons b l ih =>
    rw [length_cons] at hsrc ⊢
    refine ⟨?_, ?_⟩
    · rw [write_in (by omega) (by omega), Nat.sub_self]
      exact hsrc 0 (by omega)
    · -- what is stored behind the first byte
      have hrest : m.write a (l.length + 1 + 1) src =
          (m.write a 1 src).write (a + 1) (l.length + 1) fun i => src (1 + i) := by
        rw [write_write (fun _ _ => rfl) (fun _ _ => rfl), Nat.add_comm 1]
      rw [hrest]
      refine ih fun i hi => ?_
      rw [Nat.add_comm 1, hsrc _ (by omega)]
      rfl

theorem takeWhile_stored {s : List UInt8} (hs : 0 ∉ s) (hn : s.length < n)
    (hm : ∀ i ≤ s.length, m i = s.getD i 0) :
    ((List.range n).map m).takeWhile (· ≠ 0) = s := by
  have hstored : (List.range s.length).map m = s := by
    refine ext_getElem (by simp) fun i hi hi' => ?_
    rw [getElem_map, getElem_range, hm i (by omega), getD_eq_getElem _ _ hi']
  -- the string, its terminator, and what was there behind it
  obtain ⟨k, hk⟩ : ∃ k, n = s.length + (k + 1) := ⟨n - s.length - 1, by omega⟩
  rw [hk, range_add, map_append, hstored, takeWhile_append_of_pos, range_succ_eq_map]
  · have hend : m s.length = 0 := by
      rw [hm _ (Nat.le_refl _), getD_eq_default _ _ (Nat.le_refl _)]
    simp [hend]
  · intro b hb
    refine decide_eq_true ?_
    rintro rfl
    exact hs hb

/-! ## Words -/

/-- The word at `a`. -/
def word (m : Mem) (a : Nat) : Nat :=
  (m a).toNat + 256 * ((m (a + 1)).toNat +
    256 * ((m (a + 2)).toNat + 256 * (m (a + 3)).toNat))

/-- `m` with the word `n` at `a`. -/
def setWord (m : Mem) (a n : Nat) : Mem := m.write a 4 fun i => UInt8.ofNat (n / 256 ^ i)

theorem word_lt (m : Mem) (a : Nat) : m.word a < 4294967296 := by
  have h₀ := (m a).toNat_lt
  have h₁ := (m (a + 1)).toNat_lt
  have h₂ := (m (a + 2)).toNat_lt
  have h₃ := (m (a + 3)).toNat_lt
  unfold word
  omega

theorem word_congr {m' : Mem} {a' : Nat} (h : ∀ i < 4, m (a + i) = m' (a' + i)) :
    m.word a = m'.word a' := by
  have h₀ : m a = m' a' := h 0 (by omega)
  simp only [word, h₀, h 1 (by omega), h 2 (by omega), h 3 (by omega)]

@[simp] theorem word_setWord :
    (m.setWord a n).word a = n % 4294967296 := by
  have hbyte : ∀ i < 4, (m.setWord a n (a + i)).toNat = n / 256 ^ i % 256 := by
    intro i hi
    rw [setWord, write_add hi]
    rfl
  have h₀ : (m.setWord a n a).toNat = n / 256 ^ 0 % 256 := hbyte 0 (by omega)
  unfold word
  rw [h₀, hbyte 1 (by omega), hbyte 2 (by omega), hbyte 3 (by omega)]
  omega

theorem setWord_out (h : x < a ∨ a + 4 ≤ x) : m.setWord a n x = m x :=
  write_out h

end Mem

end Lib
