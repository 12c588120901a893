import Mathlib.Data.BitVec
import Mathlib.Logic.Function.Basic
import Pintos.Lib.Bytes

/-!
# Bitmaps (`lib/kernel/bitmap.c`)

From the inside a bitmap is an array of 32-bit elements. The array is a function
from element indices here, so that a store past its end lands in an element that
no in-range index reads.

The single-instruction `asm` statements of `bitmap_mark` and `bitmap_reset` are
the `|=` and `&= ~` of their comments. `BITMAP_ERROR` is the result `none` of
`bitmapScan`.

Everything above this file reads a bitmap through `bitmapTest` only, with the
lemmas `bitmapTest_mark`, `bitmapTest_reset`, `bitmapTest_setMultiple` and the two
results about `bitmapScanAndFlip`. A bitmap in a file is the bytes of its elements, `bitmapBytes`;
`bitmapTest_load` says that they give the bitmap back.
-/

namespace Pintos

open Lib Function List

/-- `struct bitmap`. -/
structure Bitmap where
  bitCnt : Nat
  bits : Nat → BitVec 32

/-- `BITMAP_ERROR`, that is `SIZE_MAX`. -/
def bitmapError : Nat := 2 ^ 32 - 1

def elemIdx (bitIdx : Nat) : Nat := bitIdx / 32

def bitMask (bitIdx : Nat) : BitVec 32 := 1#32 <<< (bitIdx % 32)

/-- `bitmap_create`: all bits are false. -/
def bitmapCreate (bitCnt : Nat) : Bitmap := ⟨bitCnt, fun _ => 0#32⟩

def bitmapMark (b : Bitmap) (bitIdx : Nat) : Bitmap :=
  { b with
    bits := update b.bits (elemIdx bitIdx) (b.bits (elemIdx bitIdx) ||| bitMask bitIdx) }

def bitmapReset (b : Bitmap) (bitIdx : Nat) : Bitmap :=
  { b with
    bits := update b.bits (elemIdx bitIdx) (b.bits (elemIdx bitIdx) &&& ~~~bitMask bitIdx) }

def bitmapTest (b : Bitmap) (idx : Nat) : Bool := (b.bits (elemIdx idx) &&& bitMask idx) != 0#32

def bitmapSet (b : Bitmap) (idx : Nat) (value : Bool) : Bitmap :=
  if value then bitmapMark b idx else bitmapReset b idx

/-- `bitmap_set_multiple`: the bits `start`, `start + 1`, … one after another. -/
def bitmapSetMultiple (b : Bitmap) (start : Nat) : Nat → Bool → Bitmap
  | 0, _ => b
  | cnt + 1, value => bitmapSet (bitmapSetMultiple b start cnt value) (start + cnt) value

def bitmapContains (b : Bitmap) (start cnt : Nat) (value : Bool) : Bool :=
  (List.range cnt).any fun i => bitmapTest b (start + i) == value

def bitmapAll (b : Bitmap) (start cnt : Nat) : Bool := !bitmapContains b start cnt false

/-- `bitmap_scan`: first fit among `start ..= bit_cnt - cnt`. -/
def bitmapScan (b : Bitmap) (start cnt : Nat) (value : Bool) : Option Nat :=
  if cnt ≤ b.bitCnt then
    (List.range' start (b.bitCnt - cnt + 1 - start)).find? fun i => !bitmapContains b i cnt !value
  else none

def bitmapScanAndFlip (b : Bitmap) (start cnt : Nat) (value : Bool) : Option Nat × Bitmap :=
  match bitmapScan b start cnt value with
  | some idx => (some idx, bitmapSetMultiple b idx cnt !value)
  | none => (none, b)

/-! ### Bitmaps in memory and in files -/

/-- `elem_cnt`, for a `bit_cnt` that can be rounded up. -/
def elemCnt (bitCnt : Nat) : Nat := (bitCnt + 31) / 32

def byteCnt (bitCnt : Nat) : Nat := 4 * elemCnt bitCnt

/-- `last_mask`: the bits of the last element that are used. -/
def lastMask (b : Bitmap) : BitVec 32 :=
  let lastBits := b.bitCnt % 32
  if lastBits ≠ 0 then (1#32 <<< lastBits) - 1#32 else BitVec.allOnes 32

/-- The memory of the elements. -/
def bitmapBytes (b : Bitmap) : Mem := fun i => UInt8.ofNat ((b.bits (i / 4)).toNat / 256 ^ (i % 4))

/-- `bitmap_read` once the elements' memory has been read: the last element is masked. -/
def bitmapLoad (b : Bitmap) (m : Mem) : Bitmap :=
  let bits : Nat → BitVec 32 := fun i => BitVec.ofNat 32 (m.word (4 * i))
  let last := elemCnt b.bitCnt - 1
  { b with bits := update bits last (bits last &&& lastMask b) }

/-! ## Reading a bit after a change -/

@[simp] theorem bitmapReset_bitCnt (b : Bitmap) (i : Nat) :
    (bitmapReset b i).bitCnt = b.bitCnt := rfl

theorem bitmapTest_eq_getLsbD (b : Bitmap) (i : Nat) :
    bitmapTest b i = (b.bits (i / 32)).getLsbD (i % 32) := by
  have hlt : i % 32 < 32 := Nat.mod_lt _ (by decide)
  have hne : BitVec.twoPow 32 (i % 32) ≠ 0#32 := by
    intro h
    have := congrArg (BitVec.getLsbD · (i % 32)) h
    simp [hlt] at this
  unfold bitmapTest bitMask elemIdx
  rw [← BitVec.twoPow_eq, BitVec.and_twoPow]
  cases (b.bits (i / 32)).getLsbD (i % 32) <;> simp [hne]

variable {b b' : Bitmap} {cnt i start : Nat} {v : Bool}

theorem eq_of_elem_and_bit {j : Nat} (h₁ : i / 32 = j / 32) (h₂ : i % 32 = j % 32) : i = j := by
  omega

@[simp] theorem bitmapTest_create (n i : Nat) : bitmapTest (bitmapCreate n) i = false := by
  simp [bitmapTest_eq_getLsbD, bitmapCreate]

theorem getLsbD_bitMask (i : Nat) {k : Nat} (hk : k < 32) :
    (bitMask i).getLsbD k = decide (i % 32 = k) := by
  unfold bitMask
  rw [← BitVec.twoPow_eq, BitVec.getLsbD_twoPow]
  by_cases h : i % 32 = k <;> simp [h, hk]

theorem bitmapTest_update (b : Bitmap) (i j : Nat) {x : BitVec 32} (g : Bool → Bool)
    (hx : ∀ k < 32, x.getLsbD k =
      if i % 32 = k then g ((b.bits (elemIdx i)).getLsbD k) else (b.bits (elemIdx i)).getLsbD k) :
    bitmapTest { b with bits := update b.bits (elemIdx i) x } j =
      if i = j then g (bitmapTest b j) else bitmapTest b j := by
  rw [bitmapTest_eq_getLsbD, bitmapTest_eq_getLsbD]
  unfold elemIdx at hx ⊢
  by_cases hel : j / 32 = i / 32
  · simp only [hel, update_self, hx _ (Nat.mod_lt j (by decide))]
    have hiff : i % 32 = j % 32 ↔ i = j := ⟨eq_of_elem_and_bit hel.symm, fun h => h ▸ rfl⟩
    simp only [hiff]
  · have hij : i ≠ j := fun h => hel (h ▸ rfl)
    simp only [update_of_ne hel, if_neg hij]

theorem bitmapTest_mark (b : Bitmap) (i j : Nat) :
    bitmapTest (bitmapMark b i) j = (decide (i = j) || bitmapTest b j) := by
  refine (bitmapTest_update b i j (fun _ => true) fun k hk => ?_).trans ?_
  · rw [BitVec.getLsbD_or, getLsbD_bitMask i hk]
    by_cases h : i % 32 = k <;> simp [h]
  · by_cases h : i = j <;> simp [h]

theorem bitmapTest_reset (b : Bitmap) (i j : Nat) :
    bitmapTest (bitmapReset b i) j = (!decide (i = j) && bitmapTest b j) := by
  refine (bitmapTest_update b i j (fun _ => false) fun k hk => ?_).trans ?_
  · rw [BitVec.getLsbD_and, BitVec.getLsbD_not, getLsbD_bitMask i hk]
    by_cases h : i % 32 = k <;> simp [h, hk]
  · by_cases h : i = j <;> simp [h]

theorem bitmapTest_set (b : Bitmap) (i j : Nat) (v : Bool) :
    bitmapTest (bitmapSet b i v) j = if i = j then v else bitmapTest b j := by
  cases v <;> by_cases h : i = j <;> simp [bitmapSet, bitmapTest_mark, bitmapTest_reset, h]

@[simp] theorem bitmapSet_bitCnt (b : Bitmap) (i : Nat) (v : Bool) :
    (bitmapSet b i v).bitCnt = b.bitCnt := by
  cases v <;> rfl

@[simp] theorem bitmapSetMultiple_bitCnt (b : Bitmap) (start cnt : Nat) (v : Bool) :
    (bitmapSetMultiple b start cnt v).bitCnt = b.bitCnt := by
  induction cnt with
  | zero => rfl
  | succ n ih => simp [bitmapSetMultiple, ih]

theorem bitmapTest_setMultiple (b : Bitmap) (start cnt j : Nat) (v : Bool) :
    bitmapTest (bitmapSetMultiple b start cnt v) j =
      if start ≤ j ∧ j < start + cnt then v else bitmapTest b j := by
  induction cnt with
  | zero => rw [if_neg (by omega)]; rfl
  | succ n ih =>
    rw [bitmapSetMultiple, bitmapTest_set, ih]
    by_cases hj : start + n = j
    · rw [if_pos hj, if_pos (by omega)]
    · rw [if_neg hj]
      by_cases hin : start ≤ j ∧ j < start + n
      · rw [if_pos hin, if_pos (by omega)]
      · rw [if_neg hin, if_neg (by omega)]

/-! ## First fit -/

theorem bitmapContains_eq_false :
    bitmapContains b start cnt v = false ↔ ∀ i < cnt, bitmapTest b (start + i) = !v := by
  unfold bitmapContains
  rw [any_eq_false]
  constructor
  · intro h i hi
    have := h i (mem_range.mpr hi)
    cases hv : v <;> simpa [hv] using this
  · intro h i hi
    have := h i (mem_range.mp hi)
    cases hv : v <;> simp [this, hv]

/-- What a successful scan found: a group inside the bitmap, all of the wanted value. -/
theorem bitmapScan_some
    (h : bitmapScan b start cnt v = some i) :
    i + cnt ≤ b.bitCnt ∧ ∀ k < cnt, bitmapTest b (i + k) = v := by
  unfold bitmapScan at h
  split at h
  · next hcnt =>
    rw [find?_range'_eq_some] at h
    obtain ⟨hfit, hmem, _⟩ := h
    have hmem := mem_range'_1.mp hmem
    refine ⟨by omega, ?_⟩
    have := bitmapContains_eq_false.mp (by simpa using hfit)
    simpa using this
  · cases h

/-- A failed scan from 0 on: there is no group of the wanted value. -/
theorem bitmapScan_none (h : bitmapScan b 0 cnt v = none) (hi : i + cnt ≤ b.bitCnt) :
    ∃ k < cnt, bitmapTest b (i + k) = !v := by
  unfold bitmapScan at h
  rw [if_pos (by omega), find?_eq_none] at h
  by_contra hall
  apply h i (mem_range'_1.mpr ⟨by omega, by omega⟩)
  rw [Bool.not_eq_true', bitmapContains_eq_false]
  intro k hk
  rw [Bool.not_not, ← Bool.not_eq_not]
  exact fun hne => hall ⟨k, hk, hne⟩

/-- A successful `bitmap_scan_and_flip` of clear bits: the group was clear and lies inside,
it is set afterwards, and no other bit changed. -/
theorem bitmapScanAndFlip_some
    (h : bitmapScanAndFlip b 0 cnt false = (some i, b')) :
    i + cnt ≤ b.bitCnt ∧ b'.bitCnt = b.bitCnt ∧ (∀ k < cnt, bitmapTest b (i + k) = false) ∧
      ∀ j, bitmapTest b' j = (decide (i ≤ j ∧ j < i + cnt) || bitmapTest b j) := by
  unfold bitmapScanAndFlip at h
  split at h
  · next idx hscan =>
    cases h
    obtain ⟨hin, hclear⟩ := bitmapScan_some hscan
    refine ⟨hin, by simp, hclear, fun j => ?_⟩
    rw [bitmapTest_setMultiple]
    by_cases hj : i ≤ j ∧ j < i + cnt
    · simp [hj]
    · simp only [if_neg hj, decide_eq_false hj, Bool.false_or]
  · cases h

theorem bitmapScanAndFlip_none
    (h : bitmapScanAndFlip b start cnt v = (none, b')) : b' = b := by
  unfold bitmapScanAndFlip at h
  split at h
  · cases h
  · cases h; rfl

/-! ## Files -/

theorem getLsbD_lastMask (hi : i < 32) :
    (lastMask b).getLsbD i = (decide (b.bitCnt % 32 = 0) || decide (i < b.bitCnt % 32)) := by
  unfold lastMask
  simp only
  split
  · next hne =>
    have hlt : b.bitCnt % 32 < 32 := Nat.mod_lt _ (by omega)
    have hmask : ((1#32 <<< (b.bitCnt % 32)) - 1#32).toNat = 2 ^ (b.bitCnt % 32) - 1 := by
      have hle : 2 ^ (b.bitCnt % 32) < 2 ^ 32 := Nat.pow_lt_pow_right (by omega) hlt
      have hone : 1 ≤ 2 ^ (b.bitCnt % 32) := Nat.one_le_two_pow
      simp only [BitVec.toNat_sub, BitVec.toNat_shiftLeft, BitVec.toNat_ofNat, Nat.shiftLeft_eq]
      omega
    rw [BitVec.getLsbD, hmask, Nat.testBit_two_pow_sub_one, decide_eq_false hne, Bool.false_or]
  · next hzero =>
    rw [not_not] at hzero
    rw [BitVec.getLsbD_allOnes, decide_eq_true hzero, decide_eq_true hi, Bool.true_or]

theorem word_bitmapBytes (b : Bitmap) (i : Nat) :
    (bitmapBytes b).word (4 * i) = (b.bits i).toNat := by
  have hbyte : ∀ k < 4, (bitmapBytes b (4 * i + k)).toNat = (b.bits i).toNat / 256 ^ k % 256 := by
    intro k hk
    have hdiv : (4 * i + k) / 4 = i := by omega
    have hmod : (4 * i + k) % 4 = k := by omega
    rw [bitmapBytes, hdiv, hmod]
    rfl
  have h₀ : (bitmapBytes b (4 * i)).toNat = (b.bits i).toNat / 256 ^ 0 % 256 := hbyte 0 (by omega)
  have hlt := (b.bits i).isLt
  unfold Mem.word
  rw [h₀, hbyte 1 (by omega), hbyte 2 (by omega), hbyte 3 (by omega)]
  omega

theorem bitmapTest_load {m : Mem} {j : Nat} (hcnt : b'.bitCnt = b.bitCnt)
    (hm : ∀ i < byteCnt b.bitCnt, m i = bitmapBytes b i) (hj : j < b.bitCnt) :
    bitmapTest (bitmapLoad b' m) j = bitmapTest b j := by
  have hidx : j / 32 < elemCnt b.bitCnt := by
    unfold elemCnt
    omega
  have hword : BitVec.ofNat 32 (m.word (4 * (j / 32))) = b.bits (j / 32) := by
    have hsame : m.word (4 * (j / 32)) = (bitmapBytes b).word (4 * (j / 32)) := by
      refine Mem.word_congr fun k hk => hm _ ?_
      unfold byteCnt
      omega
    rw [hsame, word_bitmapBytes, BitVec.ofNat_toNat, BitVec.setWidth_eq]
  rw [bitmapTest_eq_getLsbD, bitmapTest_eq_getLsbD]
  unfold bitmapLoad
  simp only
  by_cases hlast : j / 32 = elemCnt b'.bitCnt - 1
  · rw [← hlast, update_self, BitVec.getLsbD_and, hword, getLsbD_lastMask (by omega)]
    have hused : b'.bitCnt % 32 = 0 ∨ j % 32 < b'.bitCnt % 32 := by
      unfold elemCnt at hlast
      omega
    rcases hused with hzero | hlt
    · rw [decide_eq_true hzero, Bool.true_or, Bool.and_true]
    · rw [decide_eq_true hlt, Bool.or_true, Bool.and_true]
  · rw [update_of_ne hlast, hword]

/-- No bit is set behind the last. -/
def Bitmap.Tidy (b : Bitmap) : Prop := ∀ j, b.bitCnt ≤ j → bitmapTest b j = false

theorem bitmapLoad_bytes (h : b.Tidy) : bitmapLoad b (bitmapBytes b) = b := by
  have hword : ∀ i, BitVec.ofNat 32 ((bitmapBytes b).word (4 * i)) = b.bits i := by
    intro i
    rw [word_bitmapBytes, BitVec.ofNat_toNat, BitVec.setWidth_eq]
  have hbits : ∀ i, update (fun i => BitVec.ofNat 32 ((bitmapBytes b).word (4 * i)))
      (elemCnt b.bitCnt - 1) (BitVec.ofNat 32 ((bitmapBytes b).word (4 * (elemCnt b.bitCnt - 1))) &&&
        lastMask b) i = b.bits i := by
    intro i
    by_cases hi : i = elemCnt b.bitCnt - 1
    · subst hi
      rw [update_self, hword]
      refine BitVec.eq_of_getLsbD_eq fun k hk => ?_
      rw [BitVec.getLsbD_and, getLsbD_lastMask hk]
      by_cases hmask : b.bitCnt % 32 = 0 ∨ k < b.bitCnt % 32
      · rcases hmask with hz | hlt
        · rw [decide_eq_true hz, Bool.true_or, Bool.and_true]
        · rw [decide_eq_true hlt, Bool.or_true, Bool.and_true]
      · -- beyond the last bit
        have htail := h (32 * (elemCnt b.bitCnt - 1) + k) (by unfold elemCnt; omega)
        have hdiv : (32 * (elemCnt b.bitCnt - 1) + k) / 32 = elemCnt b.bitCnt - 1 := by omega
        have hmod : (32 * (elemCnt b.bitCnt - 1) + k) % 32 = k := by omega
        rw [bitmapTest_eq_getLsbD, hdiv, hmod] at htail
        rw [htail, Bool.false_and]
    · rw [update_of_ne hi, hword]
  unfold bitmapLoad
  simp only
  rw [funext hbits]

theorem bitmapLoad_tidy {m : Mem} (hb : b.Tidy) (hpos : 0 < b.bitCnt)
    (hm : ∀ i, byteCnt b.bitCnt ≤ i → m i = bitmapBytes b i) : (bitmapLoad b m).Tidy := by
  intro j hj
  have hj : b.bitCnt ≤ j := hj
  rw [bitmapTest_eq_getLsbD]
  unfold bitmapLoad
  simp only
  by_cases hlast : j / 32 = elemCnt b.bitCnt - 1
  · rw [← hlast, update_self, BitVec.getLsbD_and, getLsbD_lastMask (by omega),
      decide_eq_false (by unfold elemCnt at hlast; omega),
      decide_eq_false (by unfold elemCnt at hlast; omega), Bool.false_or, Bool.and_false]
  · have hword : m.word (4 * (j / 32)) = (bitmapBytes b).word (4 * (j / 32)) := by
      refine Mem.word_congr fun k _ => hm _ ?_
      unfold byteCnt elemCnt
      unfold elemCnt at hlast
      omega
    rw [update_of_ne hlast, hword, word_bitmapBytes, BitVec.ofNat_toNat, BitVec.setWidth_eq,
      ← bitmapTest_eq_getLsbD]
    exact hb j hj

theorem Bitmap.ext_bits (hcnt : b'.bitCnt = b.bitCnt)
    (hbits : ∀ j, bitmapTest b' j = bitmapTest b j) : b' = b := by
  have hsame : ∀ i, b'.bits i = b.bits i := by
    intro i
    refine BitVec.eq_of_getLsbD_eq fun k hk => ?_
    have hdiv : (32 * i + k) / 32 = i := by omega
    have hmod : (32 * i + k) % 32 = k := by omega
    have hbit := hbits (32 * i + k)
    rw [bitmapTest_eq_getLsbD, bitmapTest_eq_getLsbD, hdiv, hmod] at hbit
    exact hbit
  cases b
  cases b'
  cases hcnt
  cases funext hsame
  rfl

end Pintos
