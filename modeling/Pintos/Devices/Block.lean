import Pintos.Lib.Bytes

/-!
# Block devices (`devices/block.c`)

A device is an array of sectors of 512 bytes (`BLOCK_SECTOR_SIZE`). Access past its end
panics, which is `none` here.
-/

namespace Pintos

open Lib Mem

/-- `struct block`: byte `o` of sector `s` is `data s o`. -/
structure Block where
  size : Nat
  data : Nat → Nat → UInt8

open Block

/-- `identify_ata_device` ignores disks of 1 GB or more, and a partition is not larger than its disk. -/
def Block.Accepted (d : Block) : Prop := d.size < 1024 * 1024 * 1024 / 512

instance (d : Block) : Decidable d.Accepted := inferInstanceAs (Decidable (_ < _))

/-- `block_read`, into memory at `a`. -/
def blockRead (d : Block) (sector : Nat) (m : Mem) (a : Nat) : Option Mem :=
  if sector < d.size then some (m.write a 512 (d.data sector)) else none

/-- `block_write`, from memory at `a`. -/
def blockWrite (d : Block) (sector : Nat) (m : Mem) (a : Nat) : Option Block :=
  if sector < d.size then
    some { d with
      data := Function.update d.data sector fun o => m (a + o) }
  else none

/-- The loop of `swap_write`: `n` sectors from `sector` on, from memory at `a`. -/
def writeSectors (m : Mem) : Nat → Block → Nat → Nat → Option Block
  | 0, d, _, _ => some d
  | n + 1, d, sector, a =>
    match blockWrite d sector m a with
    | some d => writeSectors m n d (sector + 1) (a + 512)
    | none => none

/-- The loop of `swap_read`: `n` sectors from `sector` on, to memory at `a`. -/
def readSectors (d : Block) : Nat → Nat → Mem → Nat → Option Mem
  | 0, _, m, _ => some m
  | n + 1, sector, m, a =>
    match blockRead d sector m a with
    | some m => readSectors d n (sector + 1) m (a + 512)
    | none => none

/-- Byte `o` of the bytes that lie on the device from sector `sector` on. -/
def Block.byteFrom (d : Block) (sector o : Nat) : UInt8 := d.data (sector + o / 512) (o % 512)

theorem Block.byteFrom_add (d : Block) (sector o : Nat) :
    d.byteFrom sector (512 + o) = d.byteFrom (sector + 1) o := by
  have h₁ : sector + (512 + o) / 512 = sector + 1 + o / 512 := by omega
  have h₂ : (512 + o) % 512 = o % 512 := by omega
  unfold byteFrom
  rw [h₁, h₂]

variable {a n o sector : Nat} {d d' : Block} {m : Mem}

theorem Block.byteFrom_first (d : Block) (sector : Nat) (h : o < 512) :
    d.byteFrom sector o = d.data sector o := by
  unfold byteFrom
  rw [Nat.div_eq_of_lt h, Nat.mod_eq_of_lt h, Nat.add_zero]

theorem blockWrite_some
    (h : blockWrite d sector m a = some d') :
    sector < d.size ∧ d'.size = d.size ∧
      ∀ s o, d'.data s o = if s = sector then m (a + o) else d.data s o := by
  unfold blockWrite at h
  split at h
  · next hlt =>
    cases h
    refine ⟨hlt, rfl, fun s o => ?_⟩
    by_cases hs : s = sector
    · subst hs
      simp
    · simp [hs]
  · cases h

theorem blockRead_some {m' : Mem}
    (h : blockRead d sector m a = some m') :
    sector < d.size ∧ m' = m.write a 512 (d.data sector) := by
  unfold blockRead at h
  split at h
  · next hlt =>
    cases h
    exact ⟨hlt, rfl⟩
  · cases h

section

variable (h : writeSectors m n d sector a = some d')
include h

theorem writeSectors_some :
    d'.size = d.size ∧ (0 < n → sector + n ≤ d.size) ∧
      ∀ s o, d'.data s o =
        if sector ≤ s ∧ s < sector + n then m (a + 512 * (s - sector) + o) else d.data s o := by
  induction n generalizing d sector a with
  | zero =>
    cases h
    refine ⟨rfl, by omega, fun s o => ?_⟩
    rw [if_neg (by omega)]
  | succ n ih =>
    unfold writeSectors at h
    split at h
    · next d₁ hd₁ =>
      obtain ⟨hlt, hsize, hdata⟩ := blockWrite_some hd₁
      obtain ⟨hsize', hin, hrest⟩ := ih h
      refine ⟨hsize'.trans hsize, fun _ => by omega, fun s o => ?_⟩
      rw [hrest s o, hdata s o]
      by_cases hs : s = sector
      · subst hs
        rw [if_neg (by omega), if_pos rfl, if_pos (by omega), Nat.sub_self]
        rfl
      · by_cases hr : sector + 1 ≤ s ∧ s < sector + 1 + n
        · have hofs : a + 512 + 512 * (s - (sector + 1)) + o = a + 512 * (s - sector) + o := by
            omega
          rw [if_pos hr, if_pos (by omega), hofs]
        · rw [if_neg hr, if_neg hs, if_neg (by omega)]
    · cases h

theorem byteFrom_writeSectors (ho : o < 512 * n) : d'.byteFrom sector o = m (a + o) := by
  obtain ⟨-, -, hdata⟩ := writeSectors_some h
  have hofs : a + 512 * (sector + o / 512 - sector) + o % 512 = a + o := by omega
  unfold byteFrom
  rw [hdata, if_pos (by omega), hofs]

theorem byteFrom_writeSectors_of_disjoint {k : Nat} {s : Nat}
    (hdisj : s + k ≤ sector ∨ sector + n ≤ s) (ho : o < 512 * k) :
    d'.byteFrom s o = d.byteFrom s o := by
  obtain ⟨-, -, hdata⟩ := writeSectors_some h
  unfold byteFrom
  rw [hdata, if_neg (by omega)]

end

theorem writeSectors_isSome {m : Mem} {n : Nat} {d : Block} {sector a : Nat}
    (h : sector + n ≤ d.size) : (writeSectors m n d sector a).isSome := by
  induction n generalizing d sector a with
  | zero => rfl
  | succ n ih =>
    unfold writeSectors blockWrite
    rw [if_pos (by omega)]
    exact ih (by show sector + 1 + n ≤ d.size; omega)

theorem readSectors_isSome
    (h : sector + n ≤ d.size) : (readSectors d n sector m a).isSome := by
  induction n generalizing m sector a with
  | zero => rfl
  | succ n ih =>
    unfold readSectors blockRead
    rw [if_pos (by omega)]
    exact ih (by omega)

theorem readSectors_some {m' : Mem}
    (h : readSectors d n sector m a = some m') :
    m' = m.write a (512 * n) (d.byteFrom sector) := by
  induction n generalizing m sector a with
  | zero =>
    cases h
    funext x
    rw [write_out (by omega)]
  | succ n ih =>
    unfold readSectors at h
    split at h
    · next m₁ hm₁ =>
      obtain ⟨-, rfl⟩ := blockRead_some hm₁
      rw [ih h]
      funext x
      by_cases h₁ : a ≤ x ∧ x < a + 512
      · rw [write_out (by omega), write_in h₁.1 h₁.2, write_in h₁.1 (by omega),
          byteFrom_first _ _ (by omega)]
      · by_cases h₂ : a + 512 ≤ x ∧ x < a + 512 * (n + 1)
        · have hofs : x - a = 512 + (x - (a + 512)) := by omega
          rw [write_in h₂.1 (by omega), write_in (by omega) h₂.2, hofs,
            byteFrom_add]
        · rw [write_out (by omega), write_out (by omega), write_out (by omega)]
    · cases h

end Pintos
