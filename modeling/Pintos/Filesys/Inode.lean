import Pintos.Devices.Block

/-!
# Inodes (`filesys/inode.c`)

A file lies in consecutive sectors. Its inode on the disk is a sector of its own that holds the first of
them and the length in bytes. This file has what `inode.c` does with the device alone: the inode on the
disk, and the loops of `inode_read_at` and `inode_write_at`, which go through a file sector by sector
and use a bounce buffer for parts of sectors.

Lengths are never negative (`inode_create` asserts it), so that they and the offsets are natural
numbers. The sizes asked for may be negative.
-/

namespace Pintos

open Lib Function Mem

/-- `struct inode_disk`: the file lies in consecutive sectors. -/
structure Inode where
  start : Nat
  length : Nat
  deriving DecidableEq, Repr

/-- The value of an `off_t` that has been counted up to `n`. -/
def offT (n : Nat) : Int := Int.bmod n 4294967296

/-- `byte_to_sector`; -1 is the largest `block_sector_t`. -/
def byteToSector (inode : Inode) (pos : Int) : Nat :=
  if pos < inode.length then ((inode.start + pos.tdiv 512) % 4294967296).toNat else 4294967295

theorem offT_eq {n : Nat} (h : n < 2147483648) : offT n = n := by
  unfold offT
  rw [Int.bmod_eq_of_le] <;> omega

theorem byteToSector_in {inode : Inode} {pos : Nat} (h : pos < inode.length)
    (hstart : inode.start + pos / 512 < 4294967296) :
    byteToSector inode pos = inode.start + pos / 512 := by
  unfold byteToSector
  rw [if_pos (by omega), Int.tdiv_eq_ediv_of_nonneg (by omega)]
  omega

/-- The number of sectors of the file. -/
def Inode.sectors (inode : Inode) : Nat := (inode.length + 511) / 512

/-- The file lies on the device. -/
structure Inode.OnDevice (inode : Inode) (d : Block) : Prop where
  length : inode.length < 2147483648
  extent : inode.start + inode.sectors ≤ d.size

/-- `bytes_to_sectors`: an `int` that is rounded up and divided, and becomes a `size_t`. -/
def bytesToSectors (size : Nat) : Nat :=
  ((Int.bmod (size + 511) 4294967296).tdiv 512 % 4294967296).toNat

/-- The inode on the disk: `start`, `length`, `magic` and zeros. -/
def Inode.header (inode : Inode) : Mem :=
  ((Mem.setWord (fun _ => 0) 0 inode.start).setWord 4 inode.length).setWord 8 0x494e4f44

/-- The inode in a sector that has been read. -/
def Inode.ofHeader (m : Mem) : Inode := ⟨m.word 0, m.word 4⟩

/-- The inode in sector `k` of the device. -/
def Block.inodeAt (d : Block) (k : Nat) : Inode := .ofHeader (d.data k)

/-- `chunk_size`, the number of bytes to move in one round. -/
def chunkSize (inode : Inode) (size : Int) (offset : Nat) : Int :=
  let sectorOfs := offset % 512
  let inodeLeft : Int := inode.length - offset
  let sectorLeft : Int := 512 - sectorOfs
  let minLeft := if inodeLeft < sectorLeft then inodeLeft else sectorLeft
  if size < minLeft then size else minLeft

/-- The loop of `inode_read_at`, into memory at `buffer`; `malloc` says whether there is a bounce
buffer. The result is `bytes_read` with the memory. -/
def readLoop (d : Block) (inode : Inode) (malloc : Bool) (buffer : Nat) :
    Nat → Mem → Int → Nat → Nat → Option (Nat × Mem)
  | 0, _, _, _, _ => none
  | fuel + 1, m, size, offset, bytesRead =>
    if 0 < size then
      let sectorIdx := byteToSector inode offset
      let sectorOfs := offset % 512
      let chunk := chunkSize inode size offset
      let n := chunk.toNat
      if chunk ≤ 0 then some (bytesRead, m)
      else if sectorOfs = 0 ∧ chunk = 512 then do
        let m ← blockRead d sectorIdx m (buffer + bytesRead)
        readLoop d inode malloc buffer fuel m (size - n) (offset + n) (bytesRead + n)
      else if malloc then do
        let bounce ← blockRead d sectorIdx (fun _ => 0) 0
        let m := m.write (buffer + bytesRead) n fun i => bounce (sectorOfs + i)
        readLoop d inode malloc buffer fuel m (size - n) (offset + n) (bytesRead + n)
      else some (bytesRead, m)
    else some (bytesRead, m)

/-- `inode_read_at`. -/
def readAt (d : Block) (inode : Inode) (malloc : Bool) (m : Mem) (buffer : Nat) (size : Int)
    (offset : Nat) : Option (Nat × Mem) :=
  readLoop d inode malloc buffer (size.toNat + 1) m size offset 0

/-- The loop of `inode_write_at`, from memory at `buffer`. The result is `bytes_written` with the
device. -/
def writeLoop (m : Mem) (inode : Inode) (malloc : Bool) (buffer : Nat) :
    Nat → Block → Int → Nat → Nat → Option (Nat × Block)
  | 0, _, _, _, _ => none
  | fuel + 1, d, size, offset, bytesWritten =>
    if 0 < size then
      let sectorIdx := byteToSector inode offset
      let sectorOfs := offset % 512
      let chunk := chunkSize inode size offset
      let n := chunk.toNat
      if chunk ≤ 0 then some (bytesWritten, d)
      else if sectorOfs = 0 ∧ chunk = 512 then do
        let d ← blockWrite d sectorIdx m (buffer + bytesWritten)
        writeLoop m inode malloc buffer fuel d (size - n) (offset + n) (bytesWritten + n)
      else if malloc then do
        -- what the chunk leaves of the sector stays
        let bounce ← if 0 < sectorOfs ∨ chunk < 512 - sectorOfs
          then blockRead d sectorIdx (fun _ => 0) 0
          else some fun _ => 0
        let bounce := bounce.write sectorOfs n fun i => m (buffer + bytesWritten + i)
        let d ← blockWrite d sectorIdx bounce 0
        writeLoop m inode malloc buffer fuel d (size - n) (offset + n) (bytesWritten + n)
      else some (bytesWritten, d)
    else some (bytesWritten, d)

/-- `inode_write_at`, for an inode whose writes are not denied. -/
def writeAt (d : Block) (inode : Inode) (malloc : Bool) (m : Mem) (buffer : Nat) (size : Int)
    (offset : Nat) : Option (Nat × Block) :=
  writeLoop m inode malloc buffer (size.toNat + 1) d size offset 0

/-! ## Sizes and headers -/

/-- The number of bytes that a read or a write of `size` bytes at `offset` moves. -/
def sliceLength (length : Nat) (size : Int) (offset : Nat) : Nat :=
  (min size (length - offset)).toNat

theorem sectors_le_bytesToSectors {inode : Inode} (h : inode.length < 2147483648) :
    inode.sectors ≤ bytesToSectors inode.length := by
  unfold Inode.sectors bytesToSectors
  by_cases hsmall : inode.length + 511 < 2147483648
  · rw [Int.bmod_eq_of_le (by omega) (by omega), Int.tdiv_eq_ediv_of_nonneg (by omega)]
    omega
  · have hneg : Int.bmod (inode.length + 511) 4294967296 =
        -(4294967296 - (inode.length + 511)) := by
      rw [Int.bmod_def]
      omega
    rw [hneg, Int.neg_tdiv, Int.tdiv_eq_ediv_of_nonneg (by omega)]
    omega

theorem bytesToSectors_zero : bytesToSectors 0 = 0 := by decide

theorem bytesToSectors_pos {size : Nat} (h : 0 < size) (hlt : size < 2147483648) :
    0 < bytesToSectors size := by
  have hle : (size + 511) / 512 ≤ bytesToSectors size :=
    sectors_le_bytesToSectors (show (⟨0, size⟩ : Inode).length < 2147483648 from hlt)
  omega

theorem ofHeader_header {inode : Inode} (hstart : inode.start < 4294967296)
    (hlength : inode.length < 4294967296) : Inode.ofHeader inode.header = inode := by
  have h₀ : word inode.header 0 = inode.start := by
    have hbytes : word inode.header 0 = (setWord (fun _ => 0) 0 inode.start).word 0 := by
      refine word_congr fun i hi => ?_
      rw [Inode.header, setWord_out (by omega), setWord_out (by omega)]
    rw [hbytes, word_setWord, Nat.mod_eq_of_lt hstart]
  have h₄ : word inode.header 4 = inode.length := by
    have hbytes : word inode.header 4 =
        ((setWord (fun _ => 0) 0 inode.start).setWord 4 inode.length).word 4 := by
      refine word_congr fun i hi => ?_
      rw [Inode.header, setWord_out (by omega)]
    rw [hbytes, word_setWord, Nat.mod_eq_of_lt hlength]
  rw [Inode.ofHeader, h₀, h₄]

/-! ## One round -/

section Round

variable {d : Block} {inode : Inode} {size : Int} {offset : Nat}

theorem chunkSize_eq :
    chunkSize inode size offset =
      min size (min ((inode.length : Int) - offset) (512 - (offset % 512 : Nat))) := by
  unfold chunkSize
  simp only
  split <;> split <;> omega

theorem sector_of_chunk (h : inode.OnDevice d) (hd : d.size < 4294967296)
    (hpos : ¬ chunkSize inode size offset ≤ 0) :
    byteToSector inode offset = inode.start + offset / 512 ∧
      inode.start + offset / 512 < d.size := by
  rw [chunkSize_eq] at hpos
  have hlt : offset < inode.length := by omega
  have hin := h.extent
  unfold Inode.sectors at hin
  exact ⟨byteToSector_in hlt (by omega), by omega⟩

theorem byteFrom_chunk {i : Nat} (h : offset % 512 + i < 512) :
    d.byteFrom inode.start (offset + i) = d.data (inode.start + offset / 512) (offset % 512 + i) := by
  have hdiv : (offset + i) / 512 = offset / 512 := by omega
  have hmod : (offset + i) % 512 = offset % 512 + i := by omega
  rw [Block.byteFrom, hdiv, hmod]

theorem sliceLength_eq_zero (hstop : chunkSize inode size offset ≤ 0) :
    sliceLength inode.length size offset = 0 := by
  rw [chunkSize_eq] at hstop
  unfold sliceLength
  omega

theorem chunk_in_sector (h : ¬ chunkSize inode size offset ≤ 0) :
    ∃ n : Nat, chunkSize inode size offset = n ∧ 0 < n ∧ offset % 512 + n ≤ 512 := by
  refine ⟨(chunkSize inode size offset).toNat, by omega, by omega, ?_⟩
  rw [chunkSize_eq] at *
  omega

theorem sliceLength_chunk {n : Nat} (hn : chunkSize inode size offset = n) (hpos : 0 < n) :
    sliceLength inode.length size offset =
      n + sliceLength inode.length (size - n) (offset + n) := by
  rw [chunkSize_eq] at hn
  unfold sliceLength
  omega

end Round

/-! ## Reading -/

theorem blockRead_eq {d : Block} {m : Mem} {sector a : Nat} (h : sector < d.size) :
    blockRead d sector m a = some (m.write a 512 (d.data sector)) := if_pos h

theorem readLoop_eq {d : Block} {inode : Inode} {buffer fuel done offset : Nat} {m : Mem} {size : Int}
    (hdev : inode.OnDevice d) (hd : d.size < 4294967296) (hfuel : size.toNat < fuel) :
    readLoop d inode true buffer fuel m size offset done =
      some (done + sliceLength inode.length size offset,
        m.write (buffer + done) (sliceLength inode.length size offset)
          fun i => d.byteFrom inode.start (offset + i)) := by
  induction fuel generalizing m size offset done with
  | zero => omega
  | succ fuel ih =>
    unfold readLoop
    split
    · next hsize =>
      simp only
      split
      · next hstop =>
        rw [sliceLength_eq_zero hstop, write_zero, Nat.add_zero]
      · next hmove =>
        obtain ⟨n, hn, hpos, hfit⟩ := chunk_in_sector hmove
        obtain ⟨hidx, hlt⟩ := sector_of_chunk hdev hd hmove
        -- either way the round copies the bytes of the file
        have hround : readLoop d inode true buffer fuel
            (m.write (buffer + done) n fun i => d.byteFrom inode.start (offset + i))
            (size - n) (offset + n) (done + n) =
            some (done + sliceLength inode.length size offset,
              m.write (buffer + done) (sliceLength inode.length size offset)
                fun i => d.byteFrom inode.start (offset + i)) := by
          rw [ih (by omega), sliceLength_chunk hn hpos, ← Nat.add_assoc buffer, Nat.add_assoc done,
            write_write (fun _ _ => rfl)]
          intro i _
          rw [Nat.add_assoc]
        have hcopy : ∀ i < n, d.data (inode.start + offset / 512) (offset % 512 + i) =
            d.byteFrom inode.start (offset + i) :=
          fun i hi => (byteFrom_chunk (by omega)).symm
        rw [hn, Int.toNat_natCast, hidx, blockRead_eq hlt, blockRead_eq hlt]
        split
        · next hfull =>
          obtain ⟨hofs, hall⟩ := hfull
          have hn512 : n = 512 := by omega
          subst hn512
          rw [← hround]
          show readLoop d inode true buffer fuel _ _ _ _ = _
          rw [write_congr fun i hi => ?_]
          rw [← hcopy i hi, hofs, Nat.zero_add]
        · rw [← hround]
          show readLoop d inode true buffer fuel _ _ _ _ = _
          rw [write_congr fun i hi => ?_]
          rw [← hcopy i hi, write_in (by omega) (by omega), Nat.sub_zero]
    · next hsize =>
      have hzero : sliceLength inode.length size offset = 0 := by
        unfold sliceLength
        omega
      rw [hzero, write_zero, Nat.add_zero]

theorem readAt_eq {d : Block} {inode : Inode} {buffer offset : Nat} {m : Mem} {size : Int}
    (hdev : inode.OnDevice d) (hd : d.size < 4294967296) :
    readAt d inode true m buffer size offset =
      some (sliceLength inode.length size offset,
        m.write buffer (sliceLength inode.length size offset)
          fun i => d.byteFrom inode.start (offset + i)) := by
  rw [readAt, readLoop_eq hdev hd (by omega), Nat.zero_add, Nat.add_zero]

/-! ## Writing -/

/-- The `n` bytes of the file from `offset` on have been replaced, and nothing else. -/
structure Block.Wrote (d d' : Block) (start offset n : Nat) (src : Nat → UInt8) : Prop where
  size : d'.size = d.size
  data : ∀ s o, o < 512 → d'.data s o =
    if start ≤ s ∧ offset ≤ 512 * (s - start) + o ∧ 512 * (s - start) + o < offset + n
    then src (512 * (s - start) + o - offset) else d.data s o

namespace Block.Wrote

variable {d d₁ d' : Block} {start offset n n' : Nat} {f g src : Nat → UInt8}

theorem refl (d : Block) (start offset : Nat) (src : Nat → UInt8) : d.Wrote d start offset 0 src :=
  ⟨rfl, fun s o _ => by rw [if_neg (by omega)]⟩

theorem append (h : d.Wrote d₁ start offset n f) (h' : d₁.Wrote d' start (offset + n) n' g)
    (hf : ∀ i < n, f i = src i) (hg : ∀ i < n', g i = src (n + i)) :
    d.Wrote d' start offset (n + n') src := by
  refine ⟨h'.size.trans h.size, fun s o ho => ?_⟩
  rw [h'.data s o ho, h.data s o ho]
  by_cases h₁ : start ≤ s ∧ offset ≤ 512 * (s - start) + o ∧ 512 * (s - start) + o < offset + n
  · rw [if_neg (by omega), if_pos h₁, if_pos (by omega), hf _ (by omega)]
  · by_cases h₂ : start ≤ s ∧ offset + n ≤ 512 * (s - start) + o ∧
        512 * (s - start) + o < offset + n + n'
    · have hofs : 512 * (s - start) + o - offset = n + (512 * (s - start) + o - (offset + n)) := by
        omega
      rw [if_pos h₂, if_pos (by omega), hg _ (by omega), hofs]
    · rw [if_neg h₂, if_neg h₁, if_neg (by omega)]

theorem sector {b : Nat → UInt8} (hfit : offset % 512 + n ≤ 512)
    (hb : ∀ o < 512, b o = if offset % 512 ≤ o ∧ o < offset % 512 + n
      then src (o - offset % 512) else d.data (start + offset / 512) o) :
    d.Wrote { d with data := update d.data (start + offset / 512) b } start offset n src := by
  refine ⟨rfl, fun s o ho => ?_⟩
  show update d.data (start + offset / 512) b s o = _
  by_cases hs : s = start + offset / 512
  · subst hs
    rw [update_self, hb o ho]
    by_cases hin : offset % 512 ≤ o ∧ o < offset % 512 + n
    · have hofs : 512 * (start + offset / 512 - start) + o - offset = o - offset % 512 := by omega
      rw [if_pos hin, if_pos (by omega), hofs]
    · rw [if_neg hin, if_neg (by omega)]
  · rw [update_of_ne hs, if_neg (by omega)]

theorem byteFrom (h : d.Wrote d' start offset n src) (x : Nat) :
    d'.byteFrom start x =
      if offset ≤ x ∧ x < offset + n then src (x - offset) else d.byteFrom start x := by
  have hx : 512 * (start + x / 512 - start) + x % 512 = x := by omega
  unfold Block.byteFrom
  rw [h.data _ _ (Nat.mod_lt x (by omega)), hx]
  by_cases hin : offset ≤ x ∧ x < offset + n
  · rw [if_pos hin, if_pos (by omega)]
  · rw [if_neg hin, if_neg (by omega)]

theorem other (h : d.Wrote d' start offset n src) {s o : Nat}
    (hs : s < start ∨ start + (offset + n + 511) / 512 ≤ s) (ho : o < 512) :
    d'.data s o = d.data s o := by
  rw [h.data s o ho, if_neg (by omega)]

end Block.Wrote

theorem blockWrite_eq {d : Block} {m : Mem} {sector a : Nat} (h : sector < d.size) :
    blockWrite d sector m a =
      some { d with data := update d.data sector fun o => m (a + o) } := if_pos h

theorem writeLoop_some {d : Block} {inode : Inode} {buffer fuel done offset : Nat} {m : Mem}
    {size : Int} (hdev : inode.OnDevice d) (hd : d.size < 4294967296) (hfuel : size.toNat < fuel) :
    ∃ d', writeLoop m inode true buffer fuel d size offset done =
        some (done + sliceLength inode.length size offset, d') ∧
      d.Wrote d' inode.start offset (sliceLength inode.length size offset)
        fun i => m (buffer + done + i) := by
  induction fuel generalizing d size offset done with
  | zero => omega
  | succ fuel ih =>
    unfold writeLoop
    split
    · next hsize =>
      simp only
      split
      · next hstop =>
        rw [sliceLength_eq_zero hstop]
        exact ⟨d, rfl, .refl ..⟩
      · next hmove =>
        obtain ⟨n, hn, hpos, hfit⟩ := chunk_in_sector hmove
        obtain ⟨hidx, hlt⟩ := sector_of_chunk hdev hd hmove
        -- a round that has stored its bytes, and the rounds after it
        have hround : ∀ b : Nat → UInt8, (∀ o < 512, b o =
            if offset % 512 ≤ o ∧ o < offset % 512 + n then m (buffer + done + (o - offset % 512))
            else d.data (inode.start + offset / 512) o) →
            ∃ d', writeLoop m inode true buffer fuel
                { d with data := update d.data (inode.start + offset / 512) b }
                (size - n) (offset + n) (done + n) =
                some (done + sliceLength inode.length size offset, d') ∧
              d.Wrote d' inode.start offset (sliceLength inode.length size offset)
                fun i => m (buffer + done + i) := by
          intro b hb
          let d₁ : Block :=
            { d with data := update d.data (inode.start + offset / 512) b }
          have hwrote : d.Wrote d₁ inode.start offset n fun i => m (buffer + done + i) :=
            .sector hfit hb
          obtain ⟨d', hd', hrest⟩ := @ih d₁ (done + n) (offset + n) (size - n)
            ⟨hdev.length, hdev.extent⟩ hd (by omega)
          refine ⟨d', ?_, ?_⟩
          · rw [hd', sliceLength_chunk hn hpos, Nat.add_assoc]
          · rw [sliceLength_chunk hn hpos]
            refine hwrote.append hrest (fun _ _ => rfl) fun i _ => ?_
            rw [← Nat.add_assoc, ← Nat.add_assoc]
        rw [hn, Int.toNat_natCast, hidx, blockRead_eq hlt, blockWrite_eq hlt]
        split
        · next hfull =>
          obtain ⟨hofs, hall⟩ := hfull
          have hn512 : n = 512 := by omega
          refine hround (fun o => m (buffer + done + o)) fun o ho => ?_
          rw [if_pos (by omega), hofs, Nat.sub_zero]
        · -- the bounce buffer holds the sector, or is overwritten as a whole
          have hbounce : ∀ c : Mem, (∀ o < 512, ¬ (offset % 512 ≤ o ∧ o < offset % 512 + n) →
              c o = d.data (inode.start + offset / 512) o) → ∃ d', (do
                let d ← blockWrite d (inode.start + offset / 512)
                  (c.write (offset % 512) n fun i => m (buffer + done + i)) 0
                writeLoop m inode true buffer fuel d (size - n) (offset + n) (done + n)) =
                some (done + sliceLength inode.length size offset, d') ∧
              d.Wrote d' inode.start offset (sliceLength inode.length size offset)
                fun i => m (buffer + done + i) := by
            intro c hc
            rw [blockWrite_eq hlt]
            refine hround _ fun o ho => ?_
            rw [Nat.zero_add]
            by_cases hin : offset % 512 ≤ o ∧ o < offset % 512 + n
            · rw [write_in hin.1 hin.2, if_pos hin]
            · rw [write_out (by omega), if_neg hin, hc o ho hin]
          rw [if_pos trivial]
          split
          · refine hbounce _ fun o ho _ => ?_
            rw [write_in (by omega) (by omega), Nat.sub_zero]
          · next hwhole => exact hbounce _ fun o ho hout => absurd (by omega) hout
    · next hsize =>
      have hzero : sliceLength inode.length size offset = 0 := by
        unfold sliceLength
        omega
      rw [hzero]
      exact ⟨d, rfl, .refl ..⟩

theorem writeAt_some {d : Block} {inode : Inode} {buffer offset : Nat} {m : Mem} {size : Int}
    (hdev : inode.OnDevice d) (hd : d.size < 4294967296) :
    ∃ d', writeAt d inode true m buffer size offset =
        some (sliceLength inode.length size offset, d') ∧
      d.Wrote d' inode.start offset (sliceLength inode.length size offset)
        fun i => m (buffer + i) := by
  obtain ⟨d', hd', hwrote⟩ := @writeLoop_some d inode buffer (size.toNat + 1) 0 offset m size hdev hd
    (by omega)
  rw [Nat.zero_add] at hd'
  exact ⟨d', hd', hwrote⟩

end Pintos
