import Pintos.Kernel.Bitmap

/-!
# The calls on bitmaps (`lib/kernel/bitmap.c`)

The functions with their assertions, whose failure is `none`, and with the 32-bit `size_t` of
their sums and counters. `i` of `bitmap_scan` would wrap around where `last` is `SIZE_MAX`; there
`cnt` is zero and the first round returns.
-/

namespace Pintos

open Function Option List

def bitmapFlip (b : Bitmap) (bitIdx : Nat) : Bitmap :=
  { b with bits := update b.bits (elemIdx bitIdx) (b.bits (elemIdx bitIdx) ^^^ bitMask bitIdx) }

theorem bitmapTest_flip (b : Bitmap) (i j : Nat) :
    bitmapTest (bitmapFlip b i) j = if i = j then !bitmapTest b j else bitmapTest b j := by
  refine bitmapTest_update b i j (! ·) fun k hk => ?_
  rw [BitVec.getLsbD_xor, getLsbD_bitMask i hk]
  by_cases h : i % 32 = k <;> simp [h]

namespace Checked

def bitmapTest (b : Bitmap) (idx : Nat) : Option Bool :=
  if idx < b.bitCnt then some (Pintos.bitmapTest b idx) else none

def bitmapSet (b : Bitmap) (idx : Nat) (value : Bool) : Option Bitmap :=
  if idx < b.bitCnt then some (Pintos.bitmapSet b idx value) else none

/-- The two assertions about a group of bits. -/
def groupOk (b : Bitmap) (start cnt : Nat) : Bool :=
  decide (start ≤ b.bitCnt) && decide ((start + cnt) % 2 ^ 32 ≤ b.bitCnt)

/-- The loop of `bitmap_set_multiple`, with `n` rounds left. -/
def setLoop (start : Nat) (value : Bool) : Nat → Nat → Bitmap → Option Bitmap
  | 0, _, b => some b
  | n + 1, i, b => do
    let b ← bitmapSet b ((start + i) % 2 ^ 32) value
    setLoop start value n (i + 1) b

def bitmapSetMultiple (b : Bitmap) (start cnt : Nat) (value : Bool) : Option Bitmap :=
  if groupOk b start cnt then setLoop start value cnt 0 b else none

/-- The loop of `bitmap_contains`, with `n` rounds left. -/
def containsLoop (b : Bitmap) (start : Nat) (value : Bool) : Nat → Nat → Option Bool
  | 0, _ => some false
  | n + 1, i => do
    let bit ← bitmapTest b ((start + i) % 2 ^ 32)
    if bit == value then some true else containsLoop b start value n (i + 1)

def bitmapContains (b : Bitmap) (start cnt : Nat) (value : Bool) : Option Bool :=
  if groupOk b start cnt then containsLoop b start value cnt 0 else none

/-- The loop of `bitmap_scan`, for at most `fuel` rounds. -/
def scanLoop (b : Bitmap) (cnt : Nat) (value : Bool) (last : Nat) : Nat → Nat → Option Nat
  | 0, _ => none
  | fuel + 1, i =>
    if i ≤ last then do
      let other ← bitmapContains b i cnt !value
      if !other then some i else scanLoop b cnt value last fuel ((i + 1) % 2 ^ 32)
    else some bitmapError

def bitmapScan (b : Bitmap) (start cnt : Nat) (value : Bool) : Option Nat :=
  if start ≤ b.bitCnt then
    if cnt ≤ b.bitCnt then
      scanLoop b cnt value (b.bitCnt - cnt) (b.bitCnt - cnt - start + 2) start
    else some bitmapError
  else none

def bitmapScanAndFlip (b : Bitmap) (start cnt : Nat) (value : Bool) : Option (Nat × Bitmap) := do
  let idx ← bitmapScan b start cnt value
  if idx ≠ bitmapError then
    let b ← bitmapSetMultiple b idx cnt !value
    some (idx, b)
  else some (idx, b)

/-! ## The assertions hold -/

section

variable {b : Bitmap} {start cnt : Nat} {value : Bool}

theorem groupOk_of_le (hsize : b.bitCnt < 2 ^ 32) (h : start + cnt ≤ b.bitCnt) :
    groupOk b start cnt = true := by
  unfold groupOk
  rw [Nat.mod_eq_of_lt (by omega), Bool.and_eq_true, decide_eq_true_eq, decide_eq_true_eq]
  omega

theorem setLoop_eq (value : Bool) (n i : Nat) {c : Bitmap} (hsize : c.bitCnt < 2 ^ 32)
    (h : start + i + n ≤ c.bitCnt) (hc : c = Pintos.bitmapSetMultiple b start i value) :
    setLoop start value n i c = some (Pintos.bitmapSetMultiple b start (i + n) value) := by
  induction n generalizing i c with
  | zero => exact congrArg some hc
  | succ n ih =>
    have hidx : (start + i) % 2 ^ 32 = start + i := Nat.mod_eq_of_lt (by omega)
    have hset : bitmapSet c ((start + i) % 2 ^ 32) value =
        some (Pintos.bitmapSet c (start + i) value) := by
      rw [hidx]
      exact if_pos (by omega)
    rw [setLoop, hset, bind_eq_bind, bind_some,
      ih (i + 1) (by simpa using hsize) (by simp; omega) (by rw [hc]; rfl)]
    rw [Nat.add_assoc, Nat.add_comm 1 n]

theorem bitmapSetMultiple_eq (hsize : b.bitCnt < 2 ^ 32) (h : start + cnt ≤ b.bitCnt) :
    bitmapSetMultiple b start cnt value = some (Pintos.bitmapSetMultiple b start cnt value) := by
  unfold bitmapSetMultiple
  rw [if_pos (groupOk_of_le hsize h), setLoop_eq value cnt 0 hsize h rfl, Nat.zero_add]

theorem containsLoop_eq (value : Bool) (n i : Nat) (hsize : b.bitCnt < 2 ^ 32)
    (h : start + i + n ≤ b.bitCnt) :
    containsLoop b start value n i =
      some ((List.range' i n).any fun k => Pintos.bitmapTest b (start + k) == value) := by
  induction n generalizing i with
  | zero => rfl
  | succ n ih =>
    have htest : bitmapTest b ((start + i) % 2 ^ 32) = some (Pintos.bitmapTest b (start + i)) := by
      rw [Nat.mod_eq_of_lt (by omega)]
      exact if_pos (by omega)
    rw [containsLoop, htest, bind_eq_bind, bind_some, ih (i + 1) (by omega),
      range'_succ, any_cons]
    cases Pintos.bitmapTest b (start + i) == value with
    | false => rfl
    | true => rfl

theorem bitmapContains_eq (hsize : b.bitCnt < 2 ^ 32) (h : start + cnt ≤ b.bitCnt) :
    bitmapContains b start cnt value = some (Pintos.bitmapContains b start cnt value) := by
  unfold bitmapContains
  rw [if_pos (groupOk_of_le hsize h), containsLoop_eq value cnt 0 hsize h, Pintos.bitmapContains,
    range_eq_range']

theorem scanLoop_eq {last fuel i : Nat} (hsize : b.bitCnt < 2 ^ 32) (hlast : last + cnt = b.bitCnt)
    (hfuel : last - i + 2 ≤ fuel) :
    scanLoop b cnt value last fuel i =
      some (((List.range' i (last + 1 - i)).find? fun i =>
        !Pintos.bitmapContains b i cnt !value).getD bitmapError) := by
  induction fuel generalizing i with
  | zero => omega
  | succ fuel ih =>
    rw [scanLoop]
    by_cases hi : i ≤ last
    · have hrange : last + 1 - i = (last - i) + 1 := by omega
      rw [if_pos hi, bitmapContains_eq hsize (by omega), bind_eq_bind, bind_some,
        hrange, range'_succ, find?_cons]
      cases hother : Pintos.bitmapContains b i cnt !value with
      | false => rfl
      | true =>
        -- the group is not empty, so that `i` is not the last number
        have hcnt : cnt ≠ 0 := by
          rintro rfl
          cases hother
        have hnext : (i + 1) % 2 ^ 32 = i + 1 := Nat.mod_eq_of_lt (by omega)
        have hrest : last + 1 - (i + 1) = last - i := by omega
        have hrec := ih (i := i + 1)
        rw [hrest] at hrec
        simp only [Bool.not_true, Bool.false_eq_true, if_false, hnext]
        by_cases hend : i = last
        · -- the loop ends in the next round
          subst hend
          cases fuel with
          | zero => omega
          | succ fuel =>
            rw [scanLoop, if_neg (by omega), Nat.sub_self]
            rfl
        · exact hrec (by omega)
    · have hrange : last + 1 - i = 0 := by omega
      rw [if_neg hi, hrange]
      rfl

theorem bitmapScan_eq (hsize : b.bitCnt < 2 ^ 32) (hstart : start ≤ b.bitCnt) :
    bitmapScan b start cnt value =
      some ((Pintos.bitmapScan b start cnt value).getD bitmapError) := by
  unfold bitmapScan Pintos.bitmapScan
  rw [if_pos hstart]
  by_cases hcnt : cnt ≤ b.bitCnt
  · rw [if_pos hcnt, if_pos hcnt]
    exact scanLoop_eq hsize (by omega) (Nat.le_refl _)
  · rw [if_neg hcnt, if_neg hcnt]
    rfl

end

end Checked

/-! ## First fit -/

/-- A group of `cnt` bits of the value. -/
def Bitmap.FitsAt (b : Bitmap) (cnt : Nat) (value : Bool) (i : Nat) : Prop :=
  i + cnt ≤ b.bitCnt ∧ ∀ k < cnt, bitmapTest b (i + k) = value

/-- The least index of a group from `start` on, or `BITMAP_ERROR` where there is none. -/
def Bitmap.FirstFit (b : Bitmap) (start cnt : Nat) (value : Bool) (r : Nat) : Prop :=
  start ≤ r ∧ b.FitsAt cnt value r ∧ (∀ j, start ≤ j → j < r → ¬ b.FitsAt cnt value j) ∨
    r = bitmapError ∧ ∀ j, start ≤ j → ¬ b.FitsAt cnt value j

section

variable {b : Bitmap} {start cnt : Nat} {value : Bool}

theorem Bitmap.fitsAt_iff {i : Nat} : b.FitsAt cnt value i ↔
    i + cnt ≤ b.bitCnt ∧ (!bitmapContains b i cnt !value) = true := by
  rw [Bool.not_eq_true', bitmapContains_eq_false, Bool.not_not]
  exact Iff.rfl

theorem bitmapScan_firstFit :
    b.FirstFit start cnt value ((bitmapScan b start cnt value).getD bitmapError) := by
  cases hscan : bitmapScan b start cnt value with
  | none =>
    refine .inr ⟨rfl, fun j hj hfit => ?_⟩
    obtain ⟨hin, hfit⟩ := Bitmap.fitsAt_iff.mp hfit
    unfold bitmapScan at hscan
    rw [if_pos (by omega), find?_eq_none] at hscan
    exact hscan j (mem_range'_1.mpr ⟨hj, by omega⟩) hfit
  | some r =>
    obtain ⟨hin, hbits⟩ := bitmapScan_some hscan
    unfold bitmapScan at hscan
    rw [if_pos (by omega), find?_range'_eq_some] at hscan
    obtain ⟨-, hmem, hleast⟩ := hscan
    refine .inl ⟨(mem_range'_1.mp hmem).1, ⟨hin, hbits⟩, fun j hj hlt hfit => ?_⟩
    have hno := hleast j hj hlt
    rw [(Bitmap.fitsAt_iff.mp hfit).2] at hno
    cases hno

theorem bitmapScanAndFlip_firstFit (hsize : b.bitCnt < 2 ^ 32) (hstart : start ≤ b.bitCnt) :
    ∃ r b', Checked.bitmapScanAndFlip b start cnt value = some (r, b') ∧
      b.FirstFit start cnt value r ∧ b'.bitCnt = b.bitCnt ∧
      (r = bitmapError → b' = b) ∧
      (r ≠ bitmapError → ∀ j, bitmapTest b' j =
        if r ≤ j ∧ j < r + cnt then !value else bitmapTest b j) := by
  have hfirst := @bitmapScan_firstFit b start cnt value
  have hscan := @Checked.bitmapScan_eq b start cnt value hsize hstart
  generalize (bitmapScan b start cnt value).getD bitmapError = r at hfirst hscan
  unfold Checked.bitmapScanAndFlip
  rw [hscan, bind_eq_bind, bind_some]
  by_cases hr : r = bitmapError
  · exact ⟨r, b, if_neg (not_not.mpr hr), hfirst, rfl, fun _ => rfl, fun hne => absurd hr hne⟩
  · have hin : r + cnt ≤ b.bitCnt := by
      rcases hfirst with ⟨-, hfit, -⟩ | ⟨heq, -⟩
      · exact hfit.1
      · exact absurd heq hr
    rw [if_pos hr, Checked.bitmapSetMultiple_eq hsize hin]
    exact ⟨r, _, rfl, hfirst, bitmapSetMultiple_bitCnt .., fun heq => absurd heq hr,
      fun _ j => bitmapTest_setMultiple ..⟩

end

/-- **A bitmap is a vector of booleans with first-fit search.** -/
theorem bitmap_first_fit (b : Bitmap) (hsize : b.bitCnt < 2 ^ 32) :
    (∀ idx < b.bitCnt, Checked.bitmapTest b idx = some (bitmapTest b idx)) ∧
    (∀ idx < b.bitCnt, ∀ j,
      bitmapTest (bitmapMark b idx) j = (if idx = j then true else bitmapTest b j) ∧
      bitmapTest (bitmapReset b idx) j = (if idx = j then false else bitmapTest b j) ∧
      bitmapTest (bitmapFlip b idx) j = (if idx = j then !bitmapTest b j else bitmapTest b j)) ∧
    (∀ idx < b.bitCnt, ∀ value, ∃ b', Checked.bitmapSet b idx value = some b' ∧
      ∀ j, bitmapTest b' j = if idx = j then value else bitmapTest b j) ∧
    (∀ start cnt value, start + cnt ≤ b.bitCnt → ∃ b',
      Checked.bitmapSetMultiple b start cnt value = some b' ∧
      ∀ j, bitmapTest b' j = if start ≤ j ∧ j < start + cnt then value else bitmapTest b j) ∧
    (∀ start ≤ b.bitCnt, ∀ cnt value, ∃ r, Checked.bitmapScan b start cnt value = some r ∧
      b.FirstFit start cnt value r) ∧
    (∀ start ≤ b.bitCnt, ∀ cnt value, ∃ r b',
      Checked.bitmapScanAndFlip b start cnt value = some (r, b') ∧
      b.FirstFit start cnt value r ∧ b'.bitCnt = b.bitCnt ∧ (r = bitmapError → b' = b) ∧
      (r ≠ bitmapError → ∀ j, bitmapTest b' j =
        if r ≤ j ∧ j < r + cnt then !value else bitmapTest b j)) := by
  refine ⟨fun idx h => if_pos h, fun idx _ j => ⟨?_, ?_, ?_⟩, fun idx h value => ?_,
    fun start cnt value h => ?_, fun start h cnt value => ?_, fun start h cnt value => ?_⟩
  · rw [bitmapTest_mark]
    by_cases hj : idx = j <;> simp [hj]
  · rw [bitmapTest_reset]
    by_cases hj : idx = j <;> simp [hj]
  · exact bitmapTest_flip b idx j
  · exact ⟨_, if_pos h, fun j => bitmapTest_set ..⟩
  · exact ⟨_, Checked.bitmapSetMultiple_eq hsize h, fun j => bitmapTest_setMultiple ..⟩
  · exact ⟨_, Checked.bitmapScan_eq hsize h, bitmapScan_firstFit⟩
  · exact bitmapScanAndFlip_firstFit hsize h

theorem bitmap_first_fit_seventy : ∃ r, Checked.bitmapScan (bitmapCreate 70) 3 40 false = some r ∧
    (bitmapCreate 70).FirstFit 3 40 false r :=
  (bitmap_first_fit (bitmapCreate 70) (by decide)).2.2.2.2.1 3 (by decide) 40 false

end Pintos
