import Pintos.Filesys.Directory
import Pintos.Filesys.Slices
import Mathlib.Data.List.GetD

/-!
# Scanning a directory

The loops of `directory.c` over the slots of a directory, where each read may lack a bounce buffer. A
read that does is short, as the one at the end of the file is.
-/

namespace Pintos

open Lib Mem

/-! ## Entries -/

/-- The same entry. -/
def SameEntry (e e' : Mem) : Prop := ∀ o < 20, e o = e' o

section Entries

variable {e e' : Mem}

theorem SameEntry.inodeSector (h : SameEntry e e') :
    DirEntry.inodeSector e = DirEntry.inodeSector e' :=
  word_congr fun i hi => h _ (by omega)

theorem SameEntry.inUse (h : SameEntry e e') : DirEntry.inUse e = DirEntry.inUse e' := by
  unfold DirEntry.inUse
  rw [h 19 (by omega)]

theorem SameEntry.name (h : SameEntry e e') : DirEntry.name e = DirEntry.name e' := by
  have hbytes : (List.range 15).map (fun i => e (4 + i)) =
      (List.range 15).map fun i => e' (4 + i) := by
    refine List.map_congr_left fun i hi => h _ ?_
    have hlt := List.mem_range.mp hi
    omega
  unfold DirEntry.name
  rw [hbytes]

theorem newEntry_fields (e : Mem) (name : Name) (hlen : name.1.length ≤ nameMax) (sector : Nat) :
    let e' := (DirEntry.setName (DirEntry.setInUse e true) name.1).setWord 0 sector
    DirEntry.inUse e' = true ∧ DirEntry.name e' = name.1 ∧
      DirEntry.inodeSector e' = sector % 4294967296 := by
  have hmax : nameMax = 14 := rfl
  refine ⟨?_, ?_, word_setWord⟩
  · unfold DirEntry.inUse DirEntry.setName DirEntry.setInUse
    rw [setWord_out (by omega), write_out (by omega), write_in (by omega) (by omega)]
    rfl
  · refine takeWhile_stored name.2 (by omega) fun i hi => ?_
    rw [setWord_out (by omega)]
    unfold DirEntry.setName
    rw [write_add (by omega)]

end Entries

/-! ## Slots -/

namespace Inode

/-- The number of slots of a directory. -/
def slots (dir : Inode) : Nat := dir.length / 20

/-- Slot `i` of a directory on the disk. -/
def slot (dir : Inode) (d : Block) (i : Nat) : Mem := fun o => d.byteFrom dir.start (20 * i + o)

/-- Slot `i` is in use under `name`. -/
def Lists (dir : Inode) (d : Block) (name : List UInt8) (i : Nat) : Prop :=
  DirEntry.inUse (dir.slot d i) = true ∧ DirEntry.name (dir.slot d i) = name

end Inode

namespace Filesys

/-- The directory `dir` is open as inode `k`. -/
structure Opens (fs : Filesys) (k : Nat) (dir : Inode) : Prop where
  size : fs.device.size < 4294967296
  onDevice : dir.OnDevice fs.device
  inode : ∃ ip, fs.openInodes k = some ip ∧ ip.data = dir

section Scan

variable {fs : Filesys} {k : Nat} {dir : Inode}

theorem sliceLength_slot {dir : Inode} {i : Nat} :
    sliceLength dir.length 20 (20 * i) = 20 ↔ i < dir.slots := by
  unfold sliceLength Inode.slots
  omega

theorem Opens.readSlot (h : fs.Opens k dir) (malloc : Bool) (e : Mem) (i : Nat) :
    ∃ n e', fs.inodeReadAt malloc k e 0 20 (20 * i) = some (n, e') ∧
      (n = 20 ↔ malloc = true ∧ i < dir.slots) ∧ (n = 20 → SameEntry e' (dir.slot fs.device i)) := by
  obtain ⟨ip, hip, rfl⟩ := h.inode
  cases malloc with
  | false =>
    refine ⟨0, e, ?_, by simp, nofun⟩
    simp only [Filesys.inodeReadAt, hip, Option.bind_eq_bind, Option.bind_some]
    exact readAt_refused (by decide)
  | true =>
    have hread := @readAt_eq fs.device ip.data 0 (20 * i) e 20 h.onDevice h.size
    refine ⟨_, _, (congrArg (Option.bind · _) hip).trans hread, sliceLength_slot.trans (by simp),
      fun hall o ho => ?_⟩
    · rw [hall, write_in (by omega) (by omega), Nat.sub_zero]
      rfl

theorem Opens.dirRounds (h : fs.Opens k dir) : fs.dirRounds k = dir.slots + 1 := by
  obtain ⟨ip, hip, rfl⟩ := h.inode
  unfold Filesys.dirRounds
  rw [hip]
  rfl

theorem Opens.lookupFrom (h : fs.Opens k dir) (malloc : Nat → Bool) (name : List UInt8)
    {fuel i : Nat} (hfuel : dir.slots < i + fuel) (hi : i ≤ dir.slots) (e : Mem) :
    (∃ j e', i ≤ j ∧ j < dir.slots ∧ (∀ a, i ≤ a → a ≤ j → malloc a = true ∧ (dir.Lists fs.device name a → a = j)) ∧
      dir.Lists fs.device name j ∧ SameEntry e' (dir.slot fs.device j) ∧
      fs.lookupFrom malloc k name fuel i e = some (some (e', j))) ∨
    (∃ j, i ≤ j ∧ j ≤ dir.slots ∧ (j < dir.slots → malloc j = false) ∧
      (∀ a, i ≤ a → a < j → ¬ dir.Lists fs.device name a) ∧
      fs.lookupFrom malloc k name fuel i e = some none) := by
  induction fuel generalizing i e with
  | zero => omega
  | succ fuel ih =>
    obtain ⟨n, e', hread, hn, hsame⟩ := h.readSlot (malloc i) e i
    by_cases hall : n = 20
    · obtain ⟨hmalloc, hlt⟩ := hn.mp hall
      have hsame := hsame hall
      by_cases hlists : dir.Lists fs.device name i
      · refine .inl ⟨i, e', Nat.le_refl i, hlt, fun a ha ha' => ?_, hlists, hsame, ?_⟩
        · rw [Nat.le_antisymm ha' ha]
          exact ⟨hmalloc, fun _ => rfl⟩
        · have hfound : DirEntry.inUse e' = true ∧ DirEntry.name e' = name := by
            rw [hsame.inUse, hsame.name]
            exact hlists
          simp [Filesys.lookupFrom, hread, hall, hfound]
      · have hnext : fs.lookupFrom malloc k name (fuel + 1) i e =
            fs.lookupFrom malloc k name fuel (i + 1) e' := by
          have hother : ¬ (DirEntry.inUse e' = true ∧ DirEntry.name e' = name) := by
            rw [hsame.inUse, hsame.name]
            exact hlists
          simp [Filesys.lookupFrom, hread, hall, hother]
        rw [hnext]
        rcases ih (by omega) hlt e' with
          ⟨j, e'', hle, hj, hread', hrest⟩ | ⟨j, hle, hj, hcut, hnone, hres⟩
        · refine .inl ⟨j, e'', by omega, hj, fun a ha ha' => ?_, hrest⟩
          rcases Nat.lt_or_eq_of_le ha with hgt | rfl
          · exact hread' a hgt ha'
          · exact ⟨hmalloc, fun hl => absurd hl hlists⟩
        · refine .inr ⟨j, by omega, hj, hcut, fun a ha ha' => ?_, hres⟩
          rcases Nat.lt_or_eq_of_le ha with hgt | rfl
          · exact hnone a hgt ha'
          · exact hlists
    · refine .inr ⟨i, Nat.le_refl i, hi, fun hlt => ?_, fun a ha ha' => by omega, ?_⟩
      · exact Bool.eq_false_iff.mpr fun hmalloc => hall (hn.mpr ⟨hmalloc, hlt⟩)
      · simp [Filesys.lookupFrom, hread, hall]

theorem Opens.lookup (h : fs.Opens k dir) (malloc : Nat → Bool) (name : List UInt8) :
    (∃ j e, j < dir.slots ∧ (∀ a ≤ j, malloc a = true ∧ (dir.Lists fs.device name a → a = j)) ∧
      dir.Lists fs.device name j ∧ SameEntry e (dir.slot fs.device j) ∧
      fs.lookup malloc k name = some (some (e, j))) ∨
    (∃ j, j ≤ dir.slots ∧ (j < dir.slots → malloc j = false) ∧
      (∀ a < j, ¬ dir.Lists fs.device name a) ∧ fs.lookup malloc k name = some none) := by
  have hfuel : dir.slots < 0 + fs.dirRounds k := by
    rw [h.dirRounds]
    omega
  rcases h.lookupFrom malloc name hfuel (Nat.zero_le _) fun _ => 0 with
    ⟨j, e, -, hj, hread, hrest⟩ | ⟨j, -, hj, hcut, hnone, hres⟩
  · exact .inl ⟨j, e, hj, fun a ha => hread a (Nat.zero_le a) ha, hrest⟩
  · exact .inr ⟨j, hj, hcut, fun a ha => hnone a (Nat.zero_le a) ha, hres⟩

theorem Opens.freeSlotFrom (h : fs.Opens k dir) (malloc : Nat → Bool) {fuel i : Nat}
    (hfuel : dir.slots < i + fuel) (hi : i ≤ dir.slots) (e : Mem) :
    ∃ j e', i ≤ j ∧ j ≤ dir.slots ∧
      (∀ a, i ≤ a → a < j → malloc a = true ∧ DirEntry.inUse (dir.slot fs.device a) = true) ∧
      (j < dir.slots → malloc j = false ∨ DirEntry.inUse (dir.slot fs.device j) = false) ∧
      fs.freeSlotFrom malloc k fuel i e = some (e', j) := by
  induction fuel generalizing i e with
  | zero => omega
  | succ fuel ih =>
    obtain ⟨n, e', hread, hn, hsame⟩ := h.readSlot (malloc i) e i
    by_cases hall : n = 20
    · obtain ⟨hmalloc, hlt⟩ := hn.mp hall
      have hsame := hsame hall
      cases huse : DirEntry.inUse (dir.slot fs.device i) with
      | false =>
        refine ⟨i, e', Nat.le_refl i, hi, fun a ha ha' => by omega, fun _ => .inr huse, ?_⟩
        rw [← hsame.inUse] at huse
        simp [Filesys.freeSlotFrom, hread, hall, huse]
      | true =>
        have hnext : fs.freeSlotFrom malloc k (fuel + 1) i e =
            fs.freeSlotFrom malloc k fuel (i + 1) e' := by
          have huse' := hsame.inUse.trans huse
          simp [Filesys.freeSlotFrom, hread, hall, huse']
        rw [hnext]
        obtain ⟨j, e'', hle, hj, hused, hstop, hres⟩ := ih (by omega) hlt e'
        refine ⟨j, e'', by omega, hj, fun a ha ha' => ?_, hstop, hres⟩
        rcases Nat.lt_or_eq_of_le ha with hgt | rfl
        · exact hused a hgt ha'
        · exact ⟨hmalloc, huse⟩
    · refine ⟨i, e', Nat.le_refl i, hi, fun a ha ha' => by omega, fun hlt => .inl ?_, ?_⟩
      · exact Bool.eq_false_iff.mpr fun hmalloc => hall (hn.mpr ⟨hmalloc, hlt⟩)
      · simp [Filesys.freeSlotFrom, hread, hall]

theorem Opens.freeSlot (h : fs.Opens k dir) (malloc : Nat → Bool) :
    ∃ j e, j ≤ dir.slots ∧
      (∀ a < j, malloc a = true ∧ DirEntry.inUse (dir.slot fs.device a) = true) ∧
      (j < dir.slots → malloc j = false ∨ DirEntry.inUse (dir.slot fs.device j) = false) ∧
      fs.freeSlotFrom malloc k (fs.dirRounds k) 0 (fun _ => 0) = some (e, j) := by
  have hfuel : dir.slots < 0 + fs.dirRounds k := by
    rw [h.dirRounds]
    omega
  obtain ⟨j, e, -, hj, hused, hrest⟩ := h.freeSlotFrom malloc hfuel (Nat.zero_le _) fun _ => 0
  exact ⟨j, e, hj, fun a ha => hused a (Nat.zero_le a) ha, hrest⟩

/-- A slot is replaced as a whole if there is one and there is a buffer. Otherwise all slots stay; the
last bytes of the file, if they are no slot, may change. -/
theorem Opens.writeSlot (h : fs.Opens k dir)
    (hallow : ∀ ip, fs.openInodes k = some ip → ip.denyWriteCnt = 0) (malloc : Bool) (e : Mem)
    (i : Nat) :
    ∃ n d, fs.inodeWriteAt malloc k e 0 20 (20 * i) = some (n, { fs with device := d }) ∧
      (n = 20 ↔ malloc = true ∧ i < dir.slots) ∧ d.size = fs.device.size ∧
      (n = 20 → SameEntry (dir.slot d i) e) ∧
      ∀ j < dir.slots, (n = 20 → j ≠ i) → SameEntry (dir.slot d j) (dir.slot fs.device j) := by
  obtain ⟨ip, hip, rfl⟩ := h.inode
  have hdeny := hallow ip hip
  cases malloc with
  | false =>
    have hwrite : writeAt fs.device ip.data false e 0 20 (20 * i) = some (0, fs.device) :=
      writeAt_refused (by decide)
    refine ⟨0, fs.device, ?_, by simp, rfl, nofun, fun _ _ _ _ _ => rfl⟩
    simp [Filesys.inodeWriteAt, hip, hdeny, hwrite]
  | true =>
    obtain ⟨d, hd, hwrote⟩ := @writeAt_some fs.device ip.data 0 (20 * i) e 20 h.onDevice h.size
    refine ⟨sliceLength ip.data.length 20 (20 * i), d, ?_, sliceLength_slot.trans (by simp),
      hwrote.size, fun hall o ho => ?_, fun j hj hne o ho => ?_⟩
    · simp [Filesys.inodeWriteAt, hip, hdeny, hd]
    · have hofs : 20 * i + o - 20 * i = o := by omega
      show d.byteFrom ip.data.start (20 * i + o) = e o
      rw [hwrote.byteFrom, if_pos (by omega), hofs, Nat.zero_add]
    · show d.byteFrom ip.data.start (20 * j + o) = _
      have hout : ¬ (20 * i ≤ 20 * j + o ∧
          20 * j + o < 20 * i + sliceLength ip.data.length 20 (20 * i)) := by
        rw [sliceLength_slot] at hne
        have hle : sliceLength ip.data.length 20 (20 * i) ≤ 20 := by
          unfold sliceLength
          omega
        by_cases hi : i < ip.data.slots
        · have hji := hne hi
          omega
        · omega
      rw [hwrote.byteFrom, if_neg hout]
      rfl

end Scan

end Filesys

end Pintos
