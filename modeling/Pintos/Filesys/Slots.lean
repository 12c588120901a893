import Pintos.Filesys.Mounted
import Pintos.Filesys.Scan

/-!
# The slots of a directory

The loops of `directory.c` read a directory slot by slot. What they find is said of the slots on the
disk: the first that is in use under a name (`Mounted.lookup`), the first that is free
(`Mounted.freeSlot`). `dir_add` writes one slot (`Mounted.dirAdd`).
-/

namespace Pintos

open Lib Mallocs

/-- Slot `i` of the directory in sector `k`. -/
def Block.slot (d : Block) (k i : Nat) : Mem := (d.inodeAt k).slot d i

/-- The number of its slots. -/
def Block.slots (d : Block) (k : Nat) : Nat := (d.inodeAt k).slots

/-- Slot `i` is in use under `name`. -/
def Block.Lists (d : Block) (k : Nat) (name : List UInt8) (i : Nat) : Prop :=
  (d.inodeAt k).Lists d name i

theorem Block.lists_iff {d : Block} {k : Nat} {name : List UInt8} {i : Nat} : d.Lists k name i ↔
    DirEntry.inUse (d.slot k i) = true ∧ DirEntry.name (d.slot k i) = name := Iff.rfl

/-! ## The loops -/

namespace Filesys

section Loops

variable {fs : Filesys} {live : Nat → Prop} {k : Nat} {ip : OpenInode}

section

variable (h : fs.Mounted live) (hk : fs.openInodes k = some ip)
include h hk

theorem Mounted.opens : fs.Opens k (fs.device.inodeAt k) :=
  ⟨h.sizeLt, h.laid.onDevice (h.cached hk).1, ip, hk, (h.cached hk).2⟩

theorem Mounted.lookup (name : List UInt8) :
    (∃ i e, i < fs.device.slots k ∧ fs.device.Lists k name i ∧ SameEntry e (fs.device.slot k i) ∧
      fs.lookup (fun _ => true) k name = some (some (e, i))) ∨
    (∀ i < fs.device.slots k, ¬ fs.device.Lists k name i) ∧
      fs.lookup (fun _ => true) k name = some none := by
  rcases (h.opens hk).lookup (fun _ => true) name with
    ⟨i, e, hi, -, hrest⟩ | ⟨j, -, hcut, hnone, hres⟩
  · exact .inl ⟨i, e, hi, hrest⟩
  · refine .inr ⟨fun i hi => hnone i (Nat.lt_of_lt_of_le hi ?_), hres⟩
    -- no read is cut short, so the scan has come to the end
    exact Nat.not_lt.mp fun hlt => Bool.noConfusion (hcut hlt)

theorem Mounted.freeSlot :
    (∃ j e, j < fs.device.slots k ∧ DirEntry.inUse (fs.device.slot k j) = false ∧
      fs.freeSlotFrom (fun _ => true) k (fs.dirRounds k) 0 (fun _ => 0) = some (e, j)) ∨
    (∀ j < fs.device.slots k, DirEntry.inUse (fs.device.slot k j) = true) ∧
      ∃ e, fs.freeSlotFrom (fun _ => true) k (fs.dirRounds k) 0 (fun _ => 0) =
        some (e, fs.device.slots k) := by
  obtain ⟨j, e, hj, hused, hstop, hres⟩ := (h.opens hk).freeSlot fun _ => true
  rcases Nat.lt_or_eq_of_le hj with hlt | rfl
  · refine .inl ⟨j, e, hlt, ?_, hres⟩
    rcases hstop hlt with hcut | hfree
    · cases hcut
    · exact hfree
  · exact .inr ⟨fun a ha => (hused a ha).2, e, hres⟩

end

/-! ## Writing a slot -/

/-- Slot `i` has been replaced by `e`. -/
structure SlotWritten (fs fs' : Filesys) (live : Nat → Prop) (k i : Nat) (e : Mem) : Prop where
  mounted : fs'.Mounted live
  device : fs.device.SameBut fs'.device (fs.dataOf k)
  slot : SameEntry (fs'.device.slot k i) e
  others : ∀ {j}, j ≠ i → SameEntry (fs'.device.slot k j) (fs.device.slot k j)

theorem Mounted.writeSlot (h : fs.Mounted live) (hk : fs.openInodes k = some ip)
    (hdeny : ip.denyWriteCnt = 0) {i : Nat} (hi : i < fs.device.slots k) (e : Mem) :
    ∃ d, fs.inodeWriteAt true k e 0 20 (20 * i) = some (20, { fs with device := d }) ∧
      fs.SlotWritten { fs with device := d } live k i e := by
  obtain ⟨hlive, -⟩ := h.cached hk
  obtain ⟨d, hd, hwrote, hsame, hmounted⟩ := h.inodeWriteAt hk hdeny e 0 20 (20 * i)
  have hall : sliceLength (fs.device.inodeAt k).length 20 (20 * i) = 20 := by
    unfold Block.slots Inode.slots at hi
    unfold sliceLength
    omega
  rw [hall] at hd hwrote
  have hinode : d.inodeAt k = fs.device.inodeAt k := hsame.inodeAt (h.notHeader hlive hlive)
  refine ⟨d, hd, hmounted, hsame, fun o ho => ?_, fun {j} hj o ho => ?_⟩
  · have hofs : 20 * i + o - 20 * i = o := by omega
    show d.byteFrom (d.inodeAt k).start (20 * i + o) = e o
    rw [hinode, hwrote.byteFrom, if_pos (by omega), hofs, Nat.zero_add]
  · show d.byteFrom (d.inodeAt k).start (20 * j + o) = _
    rw [hinode, hwrote.byteFrom, if_neg (by omega)]
    rfl

/-- What `dir_add` needs: a good name that is not in use, and a free slot. -/
structure CanAdd (d : Block) (k : Nat) (name : List UInt8) : Prop where
  nonempty : name ≠ []
  short : name.length ≤ nameMax
  new : ∀ i < d.slots k, ¬ d.Lists k name i
  room : ∃ i < d.slots k, DirEntry.inUse (d.slot k i) = false

theorem Mounted.dirAdd (h : fs.Mounted live) (hk : fs.openInodes k = some ip)
    (hdeny : ip.denyWriteCnt = 0) (hlen : (fs.device.inodeAt k).length % 20 = 0) (name : Name)
    (sector : Nat) :
    (∃ d, ¬ CanAdd fs.device k name.1 ∧ fs.device.SameBut d (fun _ => False) ∧
      fs.dirAdd .all k name sector = some (false, { fs with device := d })) ∨
    ∃ i d e, CanAdd fs.device k name.1 ∧ i < fs.device.slots k ∧
      DirEntry.inUse (fs.device.slot k i) = false ∧
      fs.dirAdd .all k name sector = some (true, { fs with device := d }) ∧
      fs.SlotWritten { fs with device := d } live k i e ∧ DirEntry.inUse e = true ∧
      DirEntry.name e = name.1 ∧ DirEntry.inodeSector e = sector % 4294967296 := by
  by_cases hbad : name.1 = [] ∨ nameMax < name.1.length
  · refine .inl ⟨fs.device, fun hcan => ?_, .refl .., ?_⟩
    · exact hbad.elim hcan.nonempty fun hlong => by have hshort := hcan.short; omega
    · simp only [Filesys.dirAdd, if_pos hbad]
  rw [not_or, Nat.not_lt] at hbad
  rcases h.lookup hk name.1 with ⟨i, e, hi, hlists, -, hfound⟩ | ⟨hnew, hnone⟩
  · refine .inl ⟨fs.device, fun hcan => hcan.new i hi hlists, .refl .., ?_⟩
    have hfound : fs.lookup all.lookup k name.1 = some (some (e, i)) := hfound
    simp [Filesys.dirAdd, hbad.1, Nat.not_lt.mpr hbad.2, hfound]
  have hnone : fs.lookup all.lookup k name.1 = some none := hnone
  rcases h.freeSlot hk with ⟨i, e, hi, hfree, hslot⟩ | ⟨hfull, e, hslot⟩
  · have hslot : fs.freeSlotFrom all.slot k (fs.dirRounds k) 0 (fun _ => 0) = some (e, i) :=
      hslot
    obtain ⟨d, hd, hwritten⟩ := h.writeSlot hk hdeny hi
      ((DirEntry.setName (DirEntry.setInUse e true) name.1).setWord 0 sector)
    have hd : fs.inodeWriteAt all.store k _ 0 20 (20 * i) = _ := hd
    obtain ⟨huse, hname, hsector⟩ := newEntry_fields e name hbad.2 sector
    refine .inr ⟨i, d, _, ⟨hbad.1, hbad.2, hnew, i, hi, hfree⟩, hi, hfree, ?_, hwritten, huse, hname,
      hsector⟩
    simp [Filesys.dirAdd, hbad.1, Nat.not_lt.mpr hbad.2, hnone, hslot, hd]
  · -- at the end of the file nothing is written
    have hslot : fs.freeSlotFrom all.slot k (fs.dirRounds k) 0 (fun _ => 0) =
        some (e, fs.device.slots k) := hslot
    obtain ⟨d, hd, hwrote, -, -⟩ := h.inodeWriteAt hk hdeny
      ((DirEntry.setName (DirEntry.setInUse e true) name.1).setWord 0 sector) 0 20
      (20 * fs.device.slots k)
    have hzero : sliceLength (fs.device.inodeAt k).length 20 (20 * fs.device.slots k) = 0 := by
      unfold Block.slots Inode.slots sliceLength
      omega
    rw [hzero] at hd hwrote
    have hd : fs.inodeWriteAt all.store k _ 0 20 (20 * fs.device.slots k) = _ := hd
    refine .inl ⟨d, ?_, ⟨hwrote.size, fun {s o} _ ho => ?_⟩, ?_⟩
    · rintro ⟨-, -, -, i, hi, hfree⟩
      rw [hfull i hi] at hfree
      cases hfree
    · rw [hwrote.data s o ho, if_neg (by omega)]
    · simp [Filesys.dirAdd, hbad.1, Nat.not_lt.mpr hbad.2, hnone, hslot, hd]

end Loops

end Filesys

end Pintos
