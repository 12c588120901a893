import Pintos.Kernel.Bitmap

/-!
# Pages and the user pool (`threads/vaddr.h`, `threads/palloc.c`)

Addresses are natural numbers below `2 ^ 32`, and `PGSIZE` is written as the number
4096: `pg_ofs (va)` is `va % 4096` and `pg_no (va)` is `va / 4096`. A frame is named by
the kernel virtual address of its first byte, as `palloc_get_page` returns it.

Only the user pool is modelled: `PAL_USER` pages come from it, one at a time. The base
of a pool is page-aligned and above `PHYS_BASE`; `Pool` carries both facts.
-/

namespace Pintos

/-- `PHYS_BASE`: user addresses lie below it, kernel addresses from it on. -/
def physBase : Nat := 0xc0000000

theorem physBase_eq : physBase = 3221225472 := rfl

/-- `struct pool`, without its lock: each pool operation is one step. -/
structure Pool where
  base : Nat
  usedMap : Bitmap
  base_aligned : base % 4096 = 0
  base_kernel : physBase ≤ base

def pageFromPool (p : Pool) (page : Nat) : Bool :=
  p.base / 4096 ≤ page / 4096 && page / 4096 < p.base / 4096 + p.usedMap.bitCnt

/-- `palloc_get_page`, without the zeroing that `PAL_ZERO` asks for. -/
def pallocGetPage (p : Pool) : Option Nat × Pool :=
  match bitmapScanAndFlip p.usedMap 0 1 false with
  | (some idx, map) => (some (p.base + 4096 * idx), { p with usedMap := map })
  | (none, _) => (none, p)

/-- `palloc_free_page`; `none` is a failed assertion. -/
def pallocFreePage (p : Pool) (page : Nat) : Option Pool :=
  let idx := page / 4096 - p.base / 4096
  if page % 4096 = 0 ∧ pageFromPool p page ∧ bitmapAll p.usedMap idx 1 then
    some { p with usedMap := bitmapSetMultiple p.usedMap idx 1 false }
  else none

/-- `page` is a page of the pool that palloc regards as in use. -/
def Pool.used (p : Pool) (page : Nat) : Bool :=
  page % 4096 == 0 && pageFromPool p page && bitmapTest p.usedMap (page / 4096 - p.base / 4096)

/-! ## Which pages are in use -/

theorem Pool.used_iff {p : Pool} {page : Nat} :
    p.used page = true ↔
      ∃ i < p.usedMap.bitCnt, page = p.base + 4096 * i ∧ bitmapTest p.usedMap i = true := by
  have hal := p.base_aligned
  simp only [Pool.used, pageFromPool, Bool.and_eq_true, decide_eq_true_eq, beq_iff_eq]
  constructor
  · rintro ⟨⟨hofs, hlo, hhi⟩, htest⟩
    exact ⟨page / 4096 - p.base / 4096, by omega, by omega, htest⟩
  · rintro ⟨i, hi, rfl, htest⟩
    have hno : (p.base + 4096 * i) / 4096 - p.base / 4096 = i := by omega
    rw [hno]
    exact ⟨⟨by omega, by omega, by omega⟩, htest⟩

/-- A page palloc hands out was free; it is the only page whose state changes. -/
theorem pallocGetPage_some {p p' : Pool} {page : Nat} (h : pallocGetPage p = (some page, p')) :
    p.used page = false ∧ page % 4096 = 0 ∧ physBase ≤ page ∧
      ∀ k, p'.used k = (decide (k = page) || p.used k) := by
  unfold pallocGetPage at h
  split at h
  · next idx map hflip =>
    cases h
    obtain ⟨hin, hcnt, hclear, hafter⟩ := bitmapScanAndFlip_some hflip
    have hal := p.base_aligned
    have hk := p.base_kernel
    have hold : bitmapTest p.usedMap idx = false := hclear 0 (by omega)
    refine ⟨?_, by omega, by omega, fun k => ?_⟩
    · rw [Bool.eq_false_iff]
      intro hu
      obtain ⟨i, _, heq, htest⟩ := Pool.used_iff.mp hu
      have : i = idx := by omega
      rw [this, hold] at htest
      cases htest
    · rw [Bool.eq_iff_iff, Bool.or_eq_true, decide_eq_true_iff, Pool.used_iff, Pool.used_iff]
      simp only [hcnt]
      constructor
      · rintro ⟨i, hi, rfl, htest⟩
        rw [hafter, Bool.or_eq_true, decide_eq_true_iff] at htest
        rcases htest with hr | hr
        · left
          have : i = idx := by omega
          rw [this]
        · exact .inr ⟨i, hi, rfl, hr⟩
      · rintro (rfl | ⟨i, hi, rfl, htest⟩)
        · exact ⟨idx, by omega, rfl, by rw [hafter]; simp⟩
        · exact ⟨i, hi, rfl, by rw [hafter, htest]; simp⟩
  · cases h

/-- A freed page was in use; it is the only page whose state changes. -/
theorem pallocFreePage_some {p p' : Pool} {page : Nat} (h : pallocFreePage p page = some p') :
    p.used page = true ∧ ∀ k, p'.used k = (!decide (k = page) && p.used k) := by
  simp only [pallocFreePage] at h
  split at h
  · next hc =>
    cases h
    obtain ⟨hofs, hpool, hall⟩ := hc
    have htest : bitmapTest p.usedMap (page / 4096 - p.base / 4096) = true := by
      have := bitmapContains_eq_false.mp (by simpa [bitmapAll] using hall) 0 (by omega)
      simpa using this
    have hused : p.used page = true := by simp [Pool.used, hofs, hpool, htest]
    refine ⟨hused, fun k => ?_⟩
    obtain ⟨i, hi, rfl, -⟩ := Pool.used_iff.mp hused
    have hidx : (p.base + 4096 * i) / 4096 - p.base / 4096 = i := by
      have hal := p.base_aligned
      omega
    rw [hidx] at htest ⊢
    rw [Bool.eq_iff_iff, Bool.and_eq_true, Bool.not_eq_true', decide_eq_false_iff_not,
      Pool.used_iff, Pool.used_iff]
    constructor
    · rintro ⟨j, hj, rfl, ht⟩
      simp only [bitmapSetMultiple_bitCnt] at hj
      rw [bitmapTest_setMultiple] at ht
      split at ht
      · cases ht
      · next hne =>
        refine ⟨fun heq : p.base + 4096 * j = p.base + 4096 * i => hne ?_, j, hj, rfl, ht⟩
        omega
    · rintro ⟨hne, j, hj, rfl, ht⟩
      refine ⟨j, by simpa using hj, rfl, ?_⟩
      rw [bitmapTest_setMultiple, if_neg]
      · exact ht
      · intro hij
        have : j = i := by omega
        exact hne (by rw [this])
  · cases h

end Pintos
