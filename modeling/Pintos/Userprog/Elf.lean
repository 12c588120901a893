import Pintos.Userprog.Segments

/-!
# Reading an executable (`load` in `userprog/process.c`)

`load` reads the headers with `file_seek` and `file_read`, one at a time, and registers each segment
before it reads the next header. `loadPhdrs` takes the headers as a list, with a header that `load`
rejects in the place of one it cannot read. `phdrLoop_eq` says that the loop does the same.
-/

namespace Pintos

open Lib
open List (range map_cons map_map range_succ_eq_map)

/-- `file_read` of `size` bytes at `pos`; `none` inside if there are fewer. -/
def readRecord (d : Block) (inode : Inode) (pos size : Nat) : Option (Option Mem) := do
  let (n, m) ← readAt d inode true (fun _ => 0) 0 size pos
  return if n = size then some m else none

namespace Elf

/-- An `Elf32_Half`. -/
def half (m : Mem) (a : Nat) : Nat := m.word a % 65536

/-- What `load` demands of the executable header. -/
def validEhdr (m : Mem) : Bool :=
  (range 7).map m == [127, 69, 76, 70, 1, 1, 1] && half m 16 == 2 && half m 18 == 3 &&
    m.word 20 == 1 && half m 42 == 32 && half m 44 ≤ 1024

/-- `p_type`. -/
def ptype : Nat → PType
  | 1 => .load
  | 2 => .dynamic
  | 3 => .interp
  | 5 => .shlib
  | _ => .other

/-- `struct Elf32_Phdr`. -/
def phdr (m : Mem) : Phdr :=
  ⟨ptype (m.word 0), .ofNat (m.word 4), .ofNat (m.word 8), .ofNat (m.word 16), .ofNat (m.word 20),
    m.word 24 &&& 2 != 0⟩

/-- The loop over the program headers; `file_ofs` is signed. -/
def phdrLoop (d : Block) (inode : Inode) : Nat → UInt32 → Supdir → Option (Bool × Supdir)
  | 0, _, s => some (true, s)
  | n + 1, fileOfs, s =>
    if 2147483648 ≤ fileOfs.toNat ∨ inode.length < fileOfs.toNat then some (false, s)
    else do
      match ← readRecord d inode fileOfs.toNat 32 with
      | none => return (false, s)
      | some m =>
        match loadPhdrs inode [phdr m] s with
        | (true, s) => phdrLoop d inode n (fileOfs + 32) s
        | r => return r

/-- `load` from the executable header to `setup_stack`: the start address, if it comes there. -/
def load (d : Block) (inode : Inode) (s : Supdir) : Option (Option Nat × Supdir) := do
  match ← readRecord d inode 0 52 with
  | none => return (none, s)
  | some m =>
    if validEhdr m then
      let (success, s) ← phdrLoop d inode (half m 44) (.ofNat (m.word 28)) s
      return (if success then some (m.word 24) else none, s)
    else return (none, s)

/-! ## The headers in the file -/

def recordAt (d : Block) (inode : Inode) (pos size : Nat) : Mem :=
  Mem.write (fun _ => 0) 0 size fun i => d.byteFrom inode.start (pos + i)

def ehdr (d : Block) (inode : Inode) : Mem := recordAt d inode 0 52

/-- The program header at `pos`, or one that is rejected. -/
def phdrAt (d : Block) (inode : Inode) (pos : Nat) : Phdr :=
  if pos + 32 ≤ inode.length then phdr (recordAt d inode pos 32)
  else ⟨.dynamic, 0, 0, 0, 0, false⟩

/-- The header table of the file. -/
def phdrs (d : Block) (inode : Inode) : List Phdr :=
  (range (half (ehdr d inode) 44)).map fun i => phdrAt d inode ((ehdr d inode).word 28 + 32 * i)

section

variable {d : Block} {inode : Inode} (hdev : inode.OnDevice d) (hd : d.size < 4294967296)
include hdev hd

theorem readRecord_eq (pos : Nat) {size : Nat} (hsize : 0 < size) :
    readRecord d inode pos size = some
      (if pos + size ≤ inode.length then some (recordAt d inode pos size) else none) := by
  have hslice : sliceLength inode.length size pos = size ↔ pos + size ≤ inode.length := by
    unfold sliceLength
    omega
  simp only [readRecord, readAt_eq hdev hd, Option.pure_def, Option.bind_eq_bind, Option.bind_some,
    hslice]
  split
  · next hle => rw [hslice.mpr hle]; rfl
  · rfl

omit hdev hd in
theorem loadPhdrs_cons (ph : Phdr) (phs : List Phdr) (s : Supdir) :
    loadPhdrs inode (ph :: phs) s =
      match loadPhdrs inode [ph] s with
      | (true, s) => loadPhdrs inode phs s
      | r => r := by
  cases htype : ph.type with
  | load =>
    simp only [loadPhdrs, htype]
    split <;> rfl
  | _ => simp only [loadPhdrs, htype]

/-- **The loop of `load`.** -/
theorem phdrLoop_eq (n : Nat) (ofs : UInt32) (s : Supdir) :
    phdrLoop d inode n ofs s = some (loadPhdrs inode
      ((range n).map fun i => phdrAt d inode (ofs.toNat + 32 * i)) s) := by
  induction n generalizing ofs s with
  | zero => rfl
  | succ n ih =>
    have hlen := hdev.length
    have hmap : ((range n).map Nat.succ).map (fun i => phdrAt d inode (ofs.toNat + 32 * i)) =
        (range n).map fun i => phdrAt d inode (ofs.toNat + 32 + 32 * i) := by
      rw [map_map]
      refine List.map_congr_left fun i _ => congrArg (phdrAt d inode) ?_
      show _ + 32 * (i + 1) = _
      omega
    rw [range_succ_eq_map, map_cons, hmap, loadPhdrs_cons, phdrLoop, Nat.mul_zero, Nat.add_zero, phdrAt]
    by_cases hin : ofs.toNat + 32 ≤ inode.length
    · have hofs : (ofs + 32).toNat = ofs.toNat + 32 := by
        rw [UInt32.toNat_add]
        exact Nat.mod_eq_of_lt (by show ofs.toNat + 32 < 4294967296; omega)
      rw [if_neg (by omega), readRecord_eq hdev hd _ (by omega), if_pos hin, if_pos hin]
      simp only [Option.bind_eq_bind, Option.bind_some, Option.pure_def]
      split
      · rw [ih, hofs]
      · rfl
    · rw [if_neg hin]
      split
      · rfl
      · rw [readRecord_eq hdev hd _ (by omega), if_neg hin]
        rfl

omit hdev hd in
theorem loadPhdrs_true_iff (phs : List Phdr) (s : Supdir) :
    (loadPhdrs inode phs s).1 = true ↔ ∀ ph ∈ phs,
      ph.type = .other ∨ ph.type = .load ∧ validateSegment ph inode.length = true := by
  induction phs generalizing s with
  | nil => simp [loadPhdrs]
  | cons ph phs ih =>
    rw [List.forall_mem_cons]
    cases htype : ph.type with
    | load =>
      simp only [loadPhdrs, htype]
      split
      · next hvalid => simp [ih, hvalid]
      · next hvalid => simp [hvalid]
    | other => simp [loadPhdrs, htype, ih]
    | _ => simp [loadPhdrs, htype]

theorem load_eq (s : Supdir) : load d inode s = some
    (if 52 ≤ inode.length ∧ validEhdr (ehdr d inode) = true then
      (if (loadPhdrs inode (phdrs d inode) s).1 then some ((ehdr d inode).word 24) else none,
        (loadPhdrs inode (phdrs d inode) s).2)
    else (none, s)) := by
  unfold load
  rw [readRecord_eq hdev hd _ (by omega), Nat.zero_add, ← ehdr]
  by_cases hlen : 52 ≤ inode.length
  · have hofs : (ehdr d inode).word 28 % 2 ^ 32 = (ehdr d inode).word 28 :=
      Nat.mod_eq_of_lt (Mem.word_lt _ 28)
    by_cases hvalid : validEhdr (ehdr d inode) = true
    · simp only [hlen, hvalid, phdrLoop_eq hdev hd, UInt32.toNat_ofNat', hofs, if_true, and_self,
        Option.bind_eq_bind, Option.bind_some]
      rfl
    · simp [hlen, hvalid]
  · simp [hlen]

/-- **Which executables are loaded.** `load` gets to `setup_stack` if and only if the file has an
executable header that passes the tests and all its program headers, none of which asks for a dynamic
linker and each of which is ignored or a valid segment. The pages of the segments are then registered
in the order of the headers. -/
theorem executable_accepted_iff (s : Supdir) :
    ∃ r s', load d inode s = some (r, s') ∧
      (r.isSome = true ↔ 52 ≤ inode.length ∧ validEhdr (ehdr d inode) = true ∧
        (∀ i < half (ehdr d inode) 44,
          (ehdr d inode).word 28 + 32 * i + 32 ≤ inode.length) ∧
        ∀ ph ∈ phdrs d inode,
          ph.type = .other ∨ ph.type = .load ∧ validateSegment ph inode.length = true) ∧
      ∀ eip, r = some eip → eip = (ehdr d inode).word 24 ∧
        s' = ((loadable (phdrs d inode)).flatMap (Phdr.entries inode)).foldl Supdir.register s := by
  -- a header behind the end of the file is not one that is accepted
  have hinside : (∀ ph ∈ phdrs d inode,
      ph.type = .other ∨ ph.type = .load ∧ validateSegment ph inode.length = true) →
      ∀ i < half (ehdr d inode) 44,
        (ehdr d inode).word 28 + 32 * i + 32 ≤ inode.length := by
    intro hall i hi
    by_contra hout
    have hph := hall _ (List.mem_map_of_mem (List.mem_range.mpr hi))
    simp [phdrAt, hout] at hph
  have hload := load_eq hdev hd s
  by_cases hheader : 52 ≤ inode.length ∧ validEhdr (ehdr d inode) = true
  · have hiff := @loadPhdrs_true_iff inode (phdrs d inode) s
    rw [if_pos hheader] at hload
    refine ⟨_, _, hload, ?_⟩
    cases hloop : loadPhdrs inode (phdrs d inode) s with
    | mk success s' =>
      rw [hloop] at hiff
      cases success with
      | false => exact ⟨iff_of_false (by simp) fun h => by simpa using hiff.mpr h.2.2.2, by simp⟩
      | true =>
        have hall := hiff.mp rfl
        refine ⟨iff_of_true rfl ⟨hheader.1, hheader.2, hinside hall, hall⟩, fun eip heip => ?_⟩
        cases heip
        exact ⟨rfl, (loadPhdrs_eq hloop).2⟩
  · rw [if_neg hheader] at hload
    exact ⟨_, _, hload, iff_of_false (by simp) fun h => hheader ⟨h.1, h.2.1⟩, by simp⟩

end

/-- An executable with one segment, in the first sector of a disk. -/
def tinyDisk : Block := ⟨1, fun _ o => ([127, 69, 76, 70, 1, 1, 1, 0, 0, 0, 0, 0, 0, 0, 0, 0, 2, 0, 3, 0,
  1, 0, 0, 0, 84, 128, 4, 8, 52, 0, 0, 0, 0, 0, 0, 0, 0, 0, 0, 0, 52, 0, 32, 0, 1, 0, 0, 0, 0, 0, 0, 0,
  1, 0, 0, 0, 0, 0, 0, 0, 0, 128, 4, 8, 0, 128, 4, 8, 96, 0, 0, 0, 96, 0, 0, 0, 5, 0, 0, 0,
  0, 16, 0, 0] : List UInt8).getD o 0⟩

theorem executable_accepted_iff_tiny : ∃ s', load tinyDisk ⟨0, 96⟩ supdirCreate =
    some (some 0x8048054, s') := by
  obtain ⟨r, s', hload, hiff, heip⟩ := @executable_accepted_iff tinyDisk ⟨0, 96⟩
    ⟨by decide, by decide⟩ (by decide) supdirCreate
  obtain ⟨eip, rfl⟩ := Option.isSome_iff_exists.mp (hiff.mpr (by decide +kernel))
  have hentry : (ehdr tinyDisk ⟨0, 96⟩).word 24 = 0x8048054 := by decide +kernel
  rw [(heip eip rfl).1, hentry] at hload
  exact ⟨s', hload⟩

end Elf

end Pintos
