import Pintos.Filesys.State

/-!
# Reading and writing slices of files

`inode_read_at` and `inode_write_at` on an open inode whose sectors are on the device. A byte of the
disk is told by its sector and its place in it; it is byte `x` of a file if it lies `x` bytes behind the
start of the file's first sector.
-/

namespace Pintos

open Lib

theorem sliceLength_eq_max (length : Nat) (size : Int) (offset : Nat) :
    (sliceLength length size offset : Int) = max 0 (min size (length - offset)) := by
  unfold sliceLength
  omega

variable {buffer offset : Nat} {d : Block} {inode : Inode} {m : Mem}

theorem readAt_after_write {d' : Block} {m' : Mem} {buffer' n : Nat}
    {offset' : Nat} {size' : Int} (hdev : inode.OnDevice d) (hd : d.size < 4294967296)
    (hwrote : d.Wrote d' inode.start offset n fun i => m (buffer + i)) :
    readAt d' inode true m' buffer' size' offset' =
      some (sliceLength inode.length size' offset',
        m'.write buffer' (sliceLength inode.length size' offset') fun i =>
          if offset ≤ offset' + i ∧ offset' + i < offset + n then m (buffer + (offset' + i - offset))
          else d.byteFrom inode.start (offset' + i)) := by
  have hdev' : inode.OnDevice d' := ⟨hdev.length, hwrote.size ▸ hdev.extent⟩
  rw [readAt_eq hdev' (hwrote.size ▸ hd), Mem.write_congr fun i _ => hwrote.byteFrom (offset' + i)]

/-! ## Without a bounce buffer -/

theorem readAt_refused {size : Int}
    (hsize : size < 512) : readAt d inode false m buffer size offset = some (0, m) := by
  have hpart : ¬ chunkSize inode size offset = 512 := by
    rw [chunkSize_eq]
    omega
  unfold readAt readLoop
  simp [hpart]

theorem writeAt_refused {size : Int}
    (hsize : size < 512) : writeAt d inode false m buffer size offset = some (0, d) := by
  have hpart : ¬ chunkSize inode size offset = 512 := by
    rw [chunkSize_eq]
    omega
  unfold writeAt writeLoop
  simp [hpart]

theorem writeLoop_short {d : Block} {inode : Inode} {buffer fuel done offset : Nat} {m : Mem}
    {size : Int} (hdev : inode.OnDevice d) (hd : d.size < 4294967296) (hfuel : size.toNat < fuel) :
    ∃ n d', writeLoop m inode false buffer fuel d size offset done = some (done + n, d') ∧
      n ≤ sliceLength inode.length size offset ∧
      d.Wrote d' inode.start offset n fun i => m (buffer + done + i) := by
  induction fuel generalizing d size offset done with
  | zero => omega
  | succ fuel ih =>
    have hstop : ∃ n d', some (done, d) = some (done + n, d') ∧
        n ≤ sliceLength inode.length size offset ∧
        d.Wrote d' inode.start offset n fun i => m (buffer + done + i) :=
      ⟨0, d, rfl, Nat.zero_le _, .refl ..⟩
    unfold writeLoop
    simp only [Bool.false_eq_true, if_false]
    split
    · split
      · exact hstop
      · next hmove =>
        split
        · next hfull =>
          obtain ⟨hofs, hall⟩ := hfull
          obtain ⟨hidx, hlt⟩ := sector_of_chunk hdev hd hmove
          have hchunk : chunkSize inode size offset = (512 : Nat) := hall
          rw [hall, hidx, blockWrite_eq hlt]
          let b : Nat → UInt8 := fun o => m (buffer + done + o)
          let d₁ : Block :=
            { d with data := Function.update d.data (inode.start + offset / 512) b }
          have hwrote : d.Wrote d₁ inode.start offset 512 fun i => m (buffer + done + i) := by
            refine .sector (by omega) fun o ho => ?_
            rw [if_pos (by omega), hofs, Nat.sub_zero]
          obtain ⟨n, d', hd', hn, hrest⟩ := @ih d₁ (done + 512) (offset + 512) (size - 512)
            ⟨hdev.length, hdev.extent⟩ hd (by omega)
          refine ⟨512 + n, d', ?_, ?_, hwrote.append hrest (fun _ _ => rfl) fun i _ => ?_⟩
          · rw [← Nat.add_assoc]
            exact hd'
          · rw [sliceLength_chunk hchunk (by omega)]
            exact Nat.add_le_add_left hn 512
          · rw [← Nat.add_assoc, ← Nat.add_assoc]
        · exact hstop
    · exact hstop

theorem writeAt_short {d : Block} {inode : Inode} {buffer offset : Nat} {m : Mem} {size : Int}
    (malloc : Bool) (hdev : inode.OnDevice d) (hd : d.size < 4294967296) :
    ∃ n d', writeAt d inode malloc m buffer size offset = some (n, d') ∧
      n ≤ sliceLength inode.length size offset ∧
      d.Wrote d' inode.start offset n fun i => m (buffer + i) := by
  cases malloc with
  | true =>
    obtain ⟨d', hd', hwrote⟩ := @writeAt_some d inode buffer offset m size hdev hd
    exact ⟨_, d', hd', Nat.le_refl _, hwrote⟩
  | false =>
    obtain ⟨n, d', hd', hn, hwrote⟩ :=
      @writeLoop_short d inode buffer (size.toNat + 1) 0 offset m size hdev hd (by omega)
    rw [Nat.zero_add] at hd'
    exact ⟨n, d', hd', hn, hwrote⟩

/-! ## Slices -/

/-- **Slices.** `inode_read_at` copies the bytes of the file from the offset on, as many as are asked
for and as the file has. `inode_write_at` replaces as many and no other byte of the disk, unless writes
are denied, and a read after it finds them. -/
theorem inode_slices {fs : Filesys} {k : Nat} {ip : OpenInode} (hk : fs.openInodes k = some ip)
    (hdev : ip.data.OnDevice fs.device) (hd : fs.device.size < 4294967296) (m : Mem) (buffer : Nat)
    (size : Int) (offset : Nat) :
    ∃ n : Nat, (n : Int) = max 0 (min size (ip.data.length - offset)) ∧
      fs.inodeReadAt true k m buffer size offset =
        some (n, m.write buffer n fun i => fs.device.byteFrom ip.data.start (offset + i)) ∧
      (ip.denyWriteCnt = 0 → ∃ d', fs.inodeWriteAt true k m buffer size offset =
          some (n, { fs with device := d' }) ∧
        d'.size = fs.device.size ∧
        (∀ i < n, d'.byteFrom ip.data.start (offset + i) = m (buffer + i)) ∧
        (∀ s o, o < 512 → ¬ (ip.data.start ≤ s ∧ offset ≤ 512 * (s - ip.data.start) + o ∧
          512 * (s - ip.data.start) + o < offset + n) → d'.data s o = fs.device.data s o) ∧
        ∀ (m' : Mem) (buffer' : Nat) (size' : Int) (offset' : Nat), ∃ n' : Nat,
          (n' : Int) = max 0 (min size' (ip.data.length - offset')) ∧
          Filesys.inodeReadAt { fs with device := d' } true k m' buffer' size' offset' =
            some (n', m'.write buffer' n' fun i =>
              if offset ≤ offset' + i ∧ offset' + i < offset + n
              then m (buffer + (offset' + i - offset))
              else fs.device.byteFrom ip.data.start (offset' + i))) := by
  refine ⟨_, sliceLength_eq_max .., ?_, fun hdeny => ?_⟩
  · simp only [Filesys.inodeReadAt, hk, Option.bind_eq_bind, Option.bind_some]
    exact readAt_eq hdev hd
  · obtain ⟨d', hd', hwrote⟩ := @writeAt_some fs.device ip.data buffer offset m size hdev hd
    refine ⟨d', ?_, hwrote.size, fun i hi => ?_, fun s o ho hout => ?_,
      fun m' buffer' size' offset' => ⟨_, sliceLength_eq_max .., ?_⟩⟩
    · simp [Filesys.inodeWriteAt, hk, hdeny, hd']
    · rw [hwrote.byteFrom, if_pos (by omega), Nat.add_sub_cancel_left]
    · rw [hwrote.data s o ho, if_neg hout]
    · simp only [Filesys.inodeReadAt, hk, Option.bind_eq_bind, Option.bind_some]
      exact readAt_after_write hdev hd hwrote

/-- A disk of zeros with a file of 700 bytes in its sectors 3 and 4. -/
def zeroDisk : Filesys :=
  { device := ⟨5, fun _ _ => 0⟩
    openInodes := fun k => if k = 2 then some ⟨1, false, 0, ⟨3, 700⟩⟩ else none
    freeMap := ⟨5, fun _ => 0⟩
    freeMapFile := none
    files := [] }

/-- A write over the sector boundary and the end of the file: 200 of the 300 bytes are written. -/
theorem inode_slices_short : ∃ d', zeroDisk.inodeWriteAt true 2 (fun _ => 7) 0 300 500 =
    some (200, { zeroDisk with device := d' }) ∧ d'.byteFrom 3 511 = 7 ∧ d'.byteFrom 3 512 = 7 := by
  obtain ⟨n, hn, _, hwrite⟩ := @inode_slices zeroDisk 2 _ rfl ⟨by decide, by decide⟩ (by decide)
    (fun _ => 7) 0 300 500
  obtain ⟨d', hd', _, hbyte, _⟩ := hwrite rfl
  obtain rfl : n = 200 := Int.ofNat_inj.mp hn
  exact ⟨d', hd', hbyte 11 (by decide), hbyte 12 (by decide)⟩

end Pintos
