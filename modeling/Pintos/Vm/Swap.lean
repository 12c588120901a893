import Pintos.Devices.Block
import Pintos.Kernel.Bitmap

/-!
# Swap space (`vm/swap.c`)

A slot is eight consecutive sectors, one page. `swap_write` takes the first eight
clear bits of `swap_table` in a row, wherever they start; `swap_read` *sets* the first
bit of the slot it reads, and `swap_remove` clears the first bit only.

The functions return `none` where the kernel panics or writes outside the bitmap.
-/

namespace Pintos

open Lib

/-- `swap_write`: the first sector of the slot, or `none` for `BITMAP_ERROR`. -/
def swapWrite (table : Bitmap) (dev : Block) (m : Mem) (frameAddr : Nat) :
    Option (Option Nat × Bitmap × Block) :=
  match bitmapScanAndFlip table 0 8 false with
  | (some index, table) =>
    match writeSectors m 8 dev index frameAddr with
    | some dev => some (some index, table, dev)
    | none => none
  | (none, table) => some (none, table, dev)

/-- `swap_read`. -/
def swapRead (table : Bitmap) (dev : Block) (sector : Nat) (m : Mem) (frameAddr : Nat) :
    Option (Bitmap × Mem) :=
  if sector < table.bitCnt then
    match readSectors dev 8 sector m frameAddr with
    | some m => some (bitmapMark table sector, m)
    | none => none
  else none

/-- `swap_remove`. -/
def swapRemove (table : Bitmap) (sector : Nat) : Option Bitmap :=
  if sector < table.bitCnt then some (bitmapReset table sector) else none

/-- Sector `j` belongs to the slot that starts at `sector`. -/
abbrev InSlot (sector j : Nat) : Prop := sector ≤ j ∧ j < sector + 8

/-- The slots at `s` and `s'` have no sector in common. -/
abbrev SlotsDisjoint (s s' : Nat) : Prop := s + 8 ≤ s' ∨ s' + 8 ≤ s

/-- The slot at `s` lies in the table and all its bits are set. -/
structure SlotHeld (table : Bitmap) (s : Nat) : Prop where
  fits : s + 8 ≤ table.bitCnt
  set : ∀ j, InSlot s j → bitmapTest table j = true

variable {dev dev' : Block} {frame : Nat} {m : Mem} {table table' : Bitmap}

theorem slotsDisjoint_of_set {s i : Nat}
    (hset : ∀ j, InSlot s j → bitmapTest table j = true)
    (hclear : ∀ j < 8, bitmapTest table (i + j) = false) : SlotsDisjoint s i := by
  by_contra hover
  -- The later of the two first sectors lies in both slots.
  rcases Nat.le_total s i with hle | hle
  · have hon := hset i (by omega)
    have hoff := hclear 0 (by omega)
    rw [Nat.add_zero, hon] at hoff
    cases hoff
  · have hon := hset s (by omega)
    have hoff := hclear (s - i) (by omega)
    rw [Nat.add_sub_cancel' hle, hon] at hoff
    cases hoff

theorem SlotHeld.mono {s : Nat} (h : SlotHeld table s)
    (hcnt : table'.bitCnt = table.bitCnt)
    (hset : ∀ j, InSlot s j → bitmapTest table j = true → bitmapTest table' j = true) :
    SlotHeld table' s :=
  ⟨hcnt ▸ h.fits, fun j hj => hset j hj (h.set j hj)⟩

/-- What a successful `swap_write` does. -/
structure SwapWritten (table : Bitmap) (dev : Block) (m : Mem) (frame i : Nat) (table' : Bitmap)
    (dev' : Block) : Prop where
  bitCnt_eq : table'.bitCnt = table.bitCnt
  size_eq : dev'.size = dev.size
  clear : ∀ j < 8, bitmapTest table (i + j) = false
  test_eq : ∀ j, bitmapTest table' j = (decide (InSlot i j) || bitmapTest table j)
  held : SlotHeld table' i
  written : ∀ o < 4096, dev'.byteFrom i o = m (frame + o)
  kept : ∀ s, SlotsDisjoint s i → ∀ o < 4096, dev'.byteFrom s o = dev.byteFrom s o

theorem swapWrite_some {i : Nat}
    (h : swapWrite table dev m frame = some (some i, table', dev')) :
    SwapWritten table dev m frame i table' dev' := by
  unfold swapWrite at h
  split at h
  · next index flipped hflip =>
    split at h
    · next dev₁ hwrite =>
      cases h
      obtain ⟨hin, hcnt, hclear, htest⟩ := bitmapScanAndFlip_some hflip
      exact
        { bitCnt_eq := hcnt
          size_eq := (writeSectors_some hwrite).1
          clear := hclear
          test_eq := htest
          held := ⟨by omega, fun j hj => by rw [htest j, decide_eq_true hj, Bool.true_or]⟩
          written := fun o ho => byteFrom_writeSectors hwrite (by omega)
          kept := fun s hs o ho =>
            byteFrom_writeSectors_of_disjoint (k := 8) hwrite (by omega) (by omega) }
    · cases h
  · cases h

/-- Eight clear bits in a row, wherever they start. -/
def FreeSlot (table : Bitmap) : Prop :=
  ∃ i, i + 8 ≤ table.bitCnt ∧ ∀ j < 8, bitmapTest table (i + j) = false

theorem swapWrite_isSome_iff
    {r : Option Nat} (h : swapWrite table dev m frame = some (r, table', dev')) :
    r.isSome = true ↔ FreeSlot table := by
  unfold swapWrite at h
  split at h
  · next index flipped hflip =>
    split at h
    · cases h
      obtain ⟨hin, -, hclear, -⟩ := bitmapScanAndFlip_some hflip
      exact iff_of_true rfl ⟨index, hin, hclear⟩
    · cases h
  · next hflip =>
    cases h
    refine iff_of_false nofun ?_
    rintro ⟨i, hin, hclear⟩
    unfold bitmapScanAndFlip at hflip
    split at hflip
    · cases hflip
    · next hscan =>
      obtain ⟨k, hk, hset⟩ := bitmapScan_none hscan hin
      rw [hclear k hk] at hset
      cases hset

theorem swapRead_of_swapWrite {table table' : Bitmap} {dev dev' : Block} {m m₁ : Mem}
    {frame i f : Nat} (h : swapWrite table dev m frame = some (some i, table', dev')) :
    ∃ m', swapRead table' dev' i m₁ f = some (bitmapMark table' i, m') ∧
      ∀ o < 4096, m' (f + o) = m (frame + o) := by
  have hw := swapWrite_some h
  have hfit : i + 8 ≤ dev.size := by
    unfold swapWrite at h
    split at h
    · split at h
      · next hwrite =>
        cases h
        exact (writeSectors_some hwrite).2.1 (by omega)
      · cases h
    · cases h
  obtain ⟨m', hm'⟩ : ∃ m', readSectors dev' 8 i m₁ f = some m' :=
    Option.isSome_iff_exists.mp (readSectors_isSome (hw.size_eq ▸ hfit))
  refine ⟨m', ?_, fun o ho => ?_⟩
  · have hlt : i < table'.bitCnt := by
      have := hw.held.fits
      omega
    unfold swapRead
    rw [if_pos hlt, hm']
  · rw [readSectors_some hm', Mem.write_in (by omega) (by omega), Nat.add_sub_cancel_left]
    exact hw.written o ho

theorem swapWrite_none
    (h : swapWrite table dev m frame = some (none, table', dev')) : table' = table ∧ dev' = dev := by
  unfold swapWrite at h
  split at h
  · split at h <;> cases h
  · next hflip =>
    cases h
    exact ⟨bitmapScanAndFlip_none hflip, rfl⟩

theorem swapRead_some {sector : Nat} {m' : Mem}
    (h : swapRead table dev sector m frame = some (table', m')) :
    table' = bitmapMark table sector ∧ m' = m.write frame 4096 (dev.byteFrom sector) := by
  unfold swapRead at h
  split at h
  · split at h
    · next hread =>
      cases h
      exact ⟨rfl, readSectors_some hread⟩
    · cases h
  · cases h

theorem swapRemove_some {sector : Nat}
    (h : swapRemove table sector = some table') :
    sector < table.bitCnt ∧ table' = bitmapReset table sector := by
  unfold swapRemove at h
  split at h
  · next hlt =>
    cases h
    exact ⟨hlt, rfl⟩
  · cases h

end Pintos
