import Pintos.Filesys.Layout

/-!
# The operations on inodes and the free map

`Mounted fs live`: the live inodes have sectors of their own, those that are open among them, and the
free map is open. It is `Synced` if it is the same on the disk as in memory. Each function of `inode.c` and `free-map.c`
keeps it and does not panic.
-/

namespace Pintos

open Lib Option

namespace Filesys

/-- A file system with these live inodes. -/
structure Mounted (fs : Filesys) (live : Nat → Prop) : Prop where
  laid : Laid fs.device fs.freeMap live
  tidy : fs.freeMap.Tidy
  mapLive : live freeMapSector
  mapLength : (fs.device.inodeAt freeMapSector).length = byteCnt fs.freeMap.bitCnt
  mapOpen : ∃ ip, fs.openInodes freeMapSector = some ip ∧ ip.denyWriteCnt = 0
  mapFile : ∃ file, fs.freeMapFile = some file ∧ file.inode = freeMapSector
  cached : ∀ {k ip}, fs.openInodes k = some ip → live k ∧ ip.data = fs.device.inodeAt k

/-- The free map on the disk is the one in memory. -/
def Synced (fs : Filesys) : Prop :=
  ∀ i < byteCnt fs.freeMap.bitCnt,
    fs.device.byteFrom (fs.device.inodeAt freeMapSector).start i = bitmapBytes fs.freeMap i

/-- What is in memory has stayed, but for the free map. -/
structure SameMemory (fs fs' : Filesys) : Prop where
  openInodes : fs'.openInodes = fs.openInodes
  freeMapFile : fs'.freeMapFile = fs.freeMapFile
  files : fs'.files = fs.files
  bitCnt : fs'.freeMap.bitCnt = fs.freeMap.bitCnt

/-- The sectors of the data of inode `k`. -/
def dataOf (fs : Filesys) (k s : Nat) : Prop :=
  (fs.device.inodeAt k).start ≤ s ∧
    s < (fs.device.inodeAt k).start + bytesToSectors (fs.device.inodeAt k).length

section

variable {fs fs' : Filesys} {live live' : Nat → Prop} {k : Nat} {ip : OpenInode}

section

variable (h : fs.Mounted live)
include h

theorem Mounted.sizeLt : fs.device.size < 4294967296 := by
  have hbound := h.laid.bound
  omega

theorem Mounted.inodeReadAt (hk : fs.openInodes k = some ip) (m : Mem) (buffer : Nat) (size : Int)
    (offset : Nat) :
    fs.inodeReadAt true k m buffer size offset =
      some (sliceLength (fs.device.inodeAt k).length size offset,
        m.write buffer (sliceLength (fs.device.inodeAt k).length size offset)
          fun i => fs.device.byteFrom (fs.device.inodeAt k).start (offset + i)) := by
  obtain ⟨hlive, hdata⟩ := h.cached hk
  unfold Filesys.inodeReadAt
  rw [hk]
  show readAt fs.device ip.data true m buffer size offset = _
  rw [hdata]
  exact readAt_eq (h.laid.onDevice hlive) h.sizeLt

theorem Mounted.frame {d : Block} {S : Nat → Prop} (hd : fs.device.SameBut d S)
    (hS : ∀ {k}, live k → ¬ S k) :
    Mounted { fs with device := d } live where
  laid := h.laid.frame hd hS
  tidy := h.tidy
  mapLive := h.mapLive
  mapLength := by
    rw [← h.mapLength]
    exact congrArg Inode.length (hd.inodeAt (hS h.mapLive))
  mapOpen := h.mapOpen
  mapFile := h.mapFile
  cached hk := by
    obtain ⟨hlive, hdata⟩ := h.cached hk
    exact ⟨hlive, hdata.trans (hd.inodeAt (hS hlive)).symm⟩

theorem Mounted.notHeader (hk : live k) {j : Nat} (hj : live j) :
    ¬ fs.dataOf k j := fun hs => h.laid.header_ne_data hj ⟨hk, hs⟩

theorem Mounted.inodeWriteAt (hk : fs.openInodes k = some ip) (hdeny : ip.denyWriteCnt = 0)
    (m : Mem) (buffer : Nat) (size : Int) (offset : Nat) :
    ∃ d, fs.inodeWriteAt true k m buffer size offset =
        some (sliceLength (fs.device.inodeAt k).length size offset, { fs with device := d }) ∧
      fs.device.Wrote d (fs.device.inodeAt k).start offset
        (sliceLength (fs.device.inodeAt k).length size offset) (fun i => m (buffer + i)) ∧
      fs.device.SameBut d (fs.dataOf k) ∧ Mounted { fs with device := d } live := by
  obtain ⟨hlive, hdata⟩ := h.cached hk
  obtain ⟨d, hd, hwrote⟩ :=
    @writeAt_some fs.device (fs.device.inodeAt k) buffer offset m size (h.laid.onDevice hlive) h.sizeLt
  -- the bytes written are in the file, and the file is in its sectors
  have hsame : fs.device.SameBut d (fs.dataOf k) := by
    refine ⟨hwrote.size, fun {s o} hs ho => ?_⟩
    have hle := sectors_le_bytesToSectors (h.laid.length hlive)
    rw [hwrote.data s o ho, if_neg]
    intro hin
    refine hs ⟨hin.1, ?_⟩
    unfold sliceLength at hin
    unfold Inode.sectors at hle
    omega
  refine ⟨d, ?_, hwrote, hsame, h.frame hsame fun hj => h.notHeader hlive hj⟩
  unfold Filesys.inodeWriteAt
  rw [hk]
  show (if ip.denyWriteCnt ≠ 0 then some (0, fs) else
    (writeAt fs.device ip.data true m buffer size offset).bind fun r =>
      some (r.1, { fs with device := r.2 })) = _
  rw [hdeny, if_neg (by omega), hdata, hd]
  rfl

end

/-! ## The free map -/

/-- The free map may have changed, in memory and on the disk. -/
structure Remapped (fs fs' : Filesys) (live : Nat → Prop) : Prop where
  mounted : fs'.Mounted live
  synced : fs'.Synced
  memory : fs.SameMemory fs'
  device : fs.device.SameBut fs'.device (fs.dataOf freeMapSector)

theorem Mounted.bitmapWrite (h : fs.Mounted live) (file : File) (hfile : file.inode = freeMapSector) :
    ∃ fs', fs.bitmapWrite file = some (true, fs') ∧ fs.Remapped fs' live ∧ fs'.freeMap = fs.freeMap := by
  obtain ⟨ip, hip, hdeny⟩ := h.mapOpen
  obtain ⟨d, hd, hwrote, hsame, hmounted⟩ :=
    h.inodeWriteAt hip hdeny (bitmapBytes fs.freeMap) 0 (byteCnt fs.freeMap.bitCnt) 0
  have hall : sliceLength (fs.device.inodeAt freeMapSector).length (byteCnt fs.freeMap.bitCnt) 0 =
      byteCnt fs.freeMap.bitCnt := by
    rw [h.mapLength]
    unfold sliceLength
    omega
  rw [hall] at hd hwrote
  refine ⟨{ fs with device := d }, ?_, ⟨hmounted, fun i hi => ?_, ⟨rfl, rfl, rfl, rfl⟩, hsame⟩, rfl⟩
  · simp [Filesys.bitmapWrite, bitmapWriteWith, hfile, hd]
  · show d.byteFrom (d.inodeAt freeMapSector).start i = _
    have hi' : i < byteCnt fs.freeMap.bitCnt := hi
    rw [hsame.inodeAt (h.notHeader h.mapLive h.mapLive), hwrote.byteFrom, if_pos (by omega),
      Nat.sub_zero, Nat.zero_add]

/-- The sectors of a group. -/
def InGroup (sector cnt s : Nat) : Prop := sector ≤ s ∧ s < sector + cnt

instance {sector cnt s : Nat} : Decidable (InGroup sector cnt s) :=
  inferInstanceAs (Decidable (_ ∧ _))

/-- What `free_map_allocate` has done: the group was free and is marked now. -/
structure Allocated (fs fs' : Filesys) (live : Nat → Prop) (sector cnt : Nat) : Prop
    extends fs.Remapped fs' live where
  map : fs'.freeMap = bitmapSetMultiple fs.freeMap sector cnt true
  fits : sector + cnt ≤ fs.freeMap.bitCnt
  clear : ∀ {s}, InGroup sector cnt s → bitmapTest fs.freeMap s = false
  bits : ∀ s, bitmapTest fs'.freeMap s =
    (decide (InGroup sector cnt s) || bitmapTest fs.freeMap s)

theorem Mounted.unowned (h : fs.Mounted live) {s : Nat} (hclear : bitmapTest fs.freeMap s = false)
    {j : Holder} : ¬ fs.device.owns live j s := by
  intro hs
  have hused := (h.laid.owned.used hs).2
  rw [hclear] at hused
  cases hused

theorem freeMapAllocate_none {cnt : Nat} (hscan : bitmapScan fs.freeMap 0 cnt false = none) :
    fs.freeMapAllocate cnt = some (none, fs) := by
  simp only [Filesys.freeMapAllocate, bitmapScanAndFlip, hscan]

theorem Mounted.freeMapAllocate (h : fs.Mounted live) (cnt : Nat) :
    (bitmapScan fs.freeMap 0 cnt false = none ∧ fs.freeMapAllocate cnt = some (none, fs)) ∨
    ∃ sector fs', bitmapScan fs.freeMap 0 cnt false = some sector ∧
      fs.freeMapAllocate cnt = some (some sector, fs') ∧ fs.Allocated fs' live sector cnt := by
  cases hscan : bitmapScan fs.freeMap 0 cnt false with
  | none => exact .inl ⟨rfl, freeMapAllocate_none hscan⟩
  | some sector =>
    have hflip : bitmapScanAndFlip fs.freeMap 0 cnt false =
        (some sector, bitmapSetMultiple fs.freeMap sector cnt true) := by
      simp only [bitmapScanAndFlip, hscan, Bool.not_false]
    obtain ⟨hfits, hcnt, hclear, hbits⟩ := bitmapScanAndFlip_some hflip
    obtain ⟨file, hfile, hinode⟩ := h.mapFile
    let fs₁ : Filesys := { fs with freeMap := bitmapSetMultiple fs.freeMap sector cnt true }
    have h₁ : fs₁.Mounted live :=
      { h with
        laid := h.laid.mono (fun hk => hk) hcnt fun hs => by rw [hbits, hs, Bool.or_true]
        tidy := by
          intro j hj
          have hj : fs.freeMap.bitCnt ≤ j := hcnt ▸ hj
          rw [hbits, decide_eq_false (by omega), h.tidy j hj]
          rfl
        mapLength := h.mapLength.trans (congrArg byteCnt hcnt.symm) }
    obtain ⟨fs', hfs', hmap, hsame⟩ := h₁.bitmapWrite file hinode
    refine .inr ⟨sector, fs', rfl, ?_,
      ⟨⟨hmap.mounted, hmap.synced, ?_, hmap.device⟩, hsame, hfits, ?_, ?_⟩⟩
    · have hwrite : Filesys.bitmapWrite ⟨fs.device, fs.openInodes,
          bitmapSetMultiple fs.freeMap sector cnt true, some file, fs.files⟩ file =
          some (true, fs') := by
        rw [← hfile]
        exact hfs'
      simp [Filesys.freeMapAllocate, hflip, hfile, hwrite]
    · exact ⟨hmap.memory.openInodes, hmap.memory.freeMapFile, hmap.memory.files,
        hmap.memory.bitCnt.trans hcnt⟩
    · intro s hs
      have hclear := hclear (s - sector) (by unfold InGroup at hs; omega)
      rwa [Nat.add_sub_cancel' hs.1] at hclear
    · intro s
      rw [hsame]
      exact hbits s

/-- What `free_map_release` has done: the group is free. -/
structure Released (fs fs' : Filesys) (live : Nat → Prop) (sector cnt : Nat) : Prop
    extends fs.Remapped fs' live where
  bits : ∀ s, bitmapTest fs'.freeMap s =
    (!decide (InGroup sector cnt s) && bitmapTest fs.freeMap s)

theorem Mounted.freeMapRelease (h : fs.Mounted live) {sector cnt : Nat}
    (hfits : sector + cnt ≤ fs.freeMap.bitCnt)
    (hset : ∀ {s}, InGroup sector cnt s → bitmapTest fs.freeMap s = true)
    (hfree : ∀ {s j}, InGroup sector cnt s → ¬ fs.device.owns live j s) :
    ∃ fs', fs.freeMapRelease sector cnt = some fs' ∧ fs.Released fs' live sector cnt := by
  have hall : bitmapAll fs.freeMap sector cnt = true := by
    have hnone : bitmapContains fs.freeMap sector cnt false = false := by
      rw [bitmapContains_eq_false]
      intro i hi
      exact hset ⟨by omega, by omega⟩
    rw [bitmapAll, hnone]
    rfl
  have hbits : ∀ s, bitmapTest (bitmapSetMultiple fs.freeMap sector cnt false) s =
      (!decide (InGroup sector cnt s) && bitmapTest fs.freeMap s) := by
    intro s
    rw [bitmapTest_setMultiple]
    by_cases hs : sector ≤ s ∧ s < sector + cnt
    · rw [if_pos hs, decide_eq_true (show InGroup sector cnt s from hs)]
      rfl
    · rw [if_neg hs, decide_eq_false (show ¬ InGroup sector cnt s from hs)]
      rfl
  have hcnt := bitmapSetMultiple_bitCnt fs.freeMap sector cnt false
  obtain ⟨file, hfile, hinode⟩ := h.mapFile
  let fs₁ : Filesys := { fs with freeMap := bitmapSetMultiple fs.freeMap sector cnt false }
  have h₁ : fs₁.Mounted live :=
    { h with
      laid := by
        refine h.laid.unmark hcnt (fun {s} hs hout => ?_) hfree
        rw [hbits, hs, decide_eq_false hout]
        rfl
      tidy := by
        intro j hj
        rw [hbits, h.tidy j (hcnt ▸ hj), Bool.and_false]
      mapLength := h.mapLength.trans (congrArg byteCnt hcnt.symm) }
  obtain ⟨fs', hfs', hmap, hsame⟩ := h₁.bitmapWrite file hinode
  refine ⟨fs', ?_, ⟨⟨hmap.mounted, hmap.synced, ?_, hmap.device⟩, ?_⟩⟩
  · have hwrite : Filesys.bitmapWriteWith ⟨fs.device, fs.openInodes,
        bitmapSetMultiple fs.freeMap sector cnt false, some file, fs.files⟩ true file =
        some (true, fs') := by
      rw [← hfile]
      exact hfs'
    simp [Filesys.freeMapRelease, freeMapReleaseWith, hfits, hall, hfile, hwrite]
  · exact ⟨hmap.memory.openInodes, hmap.memory.freeMapFile, hmap.memory.files,
      hmap.memory.bitCnt.trans hcnt⟩
  · intro s
    rw [hsame]
    exact hbits s

/-! ## Creating an inode -/

theorem Mounted.sameBytes (h : fs.Mounted live) {d : Block} {S : Nat → Prop}
    (hd : fs.device.SameBut d S) (hk : live k) (hS : ∀ {s}, fs.dataOf k s → ¬ S s) {o : Nat}
    (ho : o < (fs.device.inodeAt k).length) :
    d.byteFrom (fs.device.inodeAt k).start o =
      fs.device.byteFrom (fs.device.inodeAt k).start o := by
  have hle := sectors_le_bytesToSectors (h.laid.length hk)
  unfold Inode.sectors at hle
  exact hd.data (hS ⟨by omega, by omega⟩) (Nat.mod_lt o (by omega))

theorem Synced.frame (h : fs.Mounted live) (hs : fs.Synced) {d : Block} {S : Nat → Prop}
    (hd : fs.device.SameBut d S) (hhead : ¬ S freeMapSector)
    (hS : ∀ {s}, fs.dataOf freeMapSector s → ¬ S s) : Synced { fs with device := d } := by
  intro i hi
  show d.byteFrom (d.inodeAt freeMapSector).start i = _
  rw [hd.inodeAt hhead, h.sameBytes hd h.mapLive hS (by rw [h.mapLength]; exact hi)]
  exact hs i hi

/-- What `inode_create` has done: there is an inode in sector `k` for a file of `n` zeros. -/
structure Created (fs fs' : Filesys) (live : Nat → Prop) (k start n : Nat) : Prop where
  map : fs'.freeMap = bitmapSetMultiple fs.freeMap start (bytesToSectors n) true
  mounted : fs'.Mounted fun j => live j ∨ j = k
  synced : fs'.Synced
  memory : fs.SameMemory fs'
  device : fs.device.SameBut fs'.device fun s =>
    fs.dataOf freeMapSector s ∨ s = k ∨ InGroup start (bytesToSectors n) s
  inode : fs'.device.inodeAt k = ⟨start, n⟩
  zeros : ∀ o < n, fs'.device.byteFrom start o = 0
  clear : ∀ {s}, InGroup start (bytesToSectors n) s → bitmapTest fs.freeMap s = false
  bits : ∀ s, bitmapTest fs'.freeMap s =
    (decide (InGroup start (bytesToSectors n) s) || bitmapTest fs.freeMap s)

theorem inodeCreate_eq {start n : Nat} {d d₁ : Block}
    (hsome : fs.freeMapAllocate (bytesToSectors n) = some (some start, fs'))
    (hd₁ : blockWrite fs'.device k (Inode.header ⟨start, n⟩) 0 = some d₁)
    (hd : writeSectors (fun _ => 0) (bytesToSectors n) d₁ start 0 = some d) :
    fs.inodeCreate k n = some (true, { fs' with device := d }) := by
  unfold Filesys.inodeCreate
  rw [if_pos (Int.natCast_nonneg n)]
  simp only [Int.toNat_natCast, hsome, bind_eq_bind, bind_some]
  rw [hd₁, bind_some, hd]
  rfl

theorem Mounted.inodeCreate (h : fs.Mounted live) {n : Nat} (hn : n < 2147483648)
    (hk : fs.freeMap.used k) (hfree : ∀ {j}, ¬ fs.device.owns live j k) :
    (bitmapScan fs.freeMap 0 (bytesToSectors n) false = none ∧
      fs.inodeCreate k n = some (false, fs)) ∨
    ∃ start fs', bitmapScan fs.freeMap 0 (bytesToSectors n) false = some start ∧
      fs.inodeCreate k n = some (true, fs') ∧ fs.Created fs' live k start n := by
  have hlen : (0 : Int) ≤ n := Int.natCast_nonneg n
  rcases h.freeMapAllocate (bytesToSectors n) with ⟨hscan, hnone⟩ | ⟨start, fs₁, hscan, hsome, halloc⟩
  · refine .inl ⟨hscan, ?_⟩
    simp [Filesys.inodeCreate, hlen, hnone]
  · have h₁ := halloc.mounted
    have hheads : ∀ {j}, live j → ¬ fs.dataOf freeMapSector j := fun hj => h.notHeader h.mapLive hj
    have hkne : ¬ InGroup start (bytesToSectors n) k := by
      intro hin
      have hused := hk.2
      rw [halloc.clear hin] at hused
      cases hused
    have hcnt := halloc.memory.bitCnt
    have hused : ∀ {s}, fs.freeMap.used s → fs₁.freeMap.used s := by
      intro s hs
      refine ⟨hcnt ▸ hs.1, ?_⟩
      rw [halloc.bits, hs.2, Bool.or_true]
    -- the group is marked, and nobody has it
    have hrun : ∀ {s}, start ≤ s → s < start + bytesToSectors n →
        fs₁.freeMap.used s ∧ s ≠ k ∧ ∀ {j}, ¬ fs₁.device.owns live j s := by
      intro s hle hlt
      have hin : InGroup start (bytesToSectors n) s := ⟨hle, hlt⟩
      refine ⟨⟨?_, ?_⟩, ?_, ?_⟩
      · have hfits := halloc.fits
        omega
      · rw [halloc.bits, decide_eq_true hin, Bool.true_or]
      · rintro rfl
        exact hkne hin
      · intro j
        rw [halloc.device.owns hheads]
        exact h.unowned (halloc.clear hin)
    obtain ⟨d, hd, hsame, hlaid, hinode, hzeros⟩ := h₁.laid.create (hused hk)
      ((halloc.device.owns hheads).not.mpr hfree) hrun hn
      (by rw [← h₁.laid.size, hcnt]; exact halloc.fits)
    have hnew : ∀ {j}, live j → ¬ (j = k ∨ start ≤ j ∧ j < start + bytesToSectors n) := by
      rintro j hj (rfl | ⟨hle, hlt⟩)
      · exact hfree (j := .header j) ⟨hj, rfl⟩
      · exact (hrun hle hlt).2.2 (j := .header j) ⟨hj, rfl⟩
    have hmap : ∀ {s}, fs₁.dataOf freeMapSector s →
        ¬ (s = k ∨ start ≤ s ∧ s < start + bytesToSectors n) := by
      rintro s hs (rfl | ⟨hle, hlt⟩)
      · have hno : ¬ fs₁.device.owns live (.data freeMapSector) s :=
          (halloc.device.owns hheads).not.mpr hfree
        exact hno ⟨h.mapLive, hs⟩
      · exact (hrun hle hlt).2.2 (j := .data freeMapSector) ⟨h.mapLive, hs⟩
    refine .inr ⟨start, { fs₁ with device := d }, hscan, ?_, ?_⟩
    · rw [bind_eq_bind] at hd
      obtain ⟨d₁, hd₁, hd⟩ := bind_eq_some_iff.mp hd
      exact inodeCreate_eq hsome hd₁ hd
    · have hframe := h₁.frame hsame hnew
      refine ⟨halloc.map, ?_, Synced.frame h₁ halloc.synced hsame (hnew h.mapLive) hmap, ?_, ?_, hinode, hzeros,
        halloc.clear, halloc.bits⟩
      · exact { hframe with
          laid := hlaid
          mapLive := .inl h.mapLive
          cached := fun hj => ⟨.inl (hframe.cached hj).1, (hframe.cached hj).2⟩ }
      · exact ⟨halloc.memory.openInodes, halloc.memory.freeMapFile, halloc.memory.files, hcnt⟩
      · exact halloc.device.trans hsame

/-! ## Opening and closing -/

/-- The inode after `inode_open`. -/
def reopened (fs : Filesys) (k : Nat) : OpenInode :=
  match fs.openInodes k with
  | some ip => { ip with openCnt := ip.openCnt + 1 }
  | none => ⟨1, false, 0, fs.device.inodeAt k⟩

theorem inodeOpen_eq (hk : k < fs.device.size) :
    fs.inodeOpen k = some (fs.setInode k (some (fs.reopened k))) := by
  unfold Filesys.inodeOpen reopened
  cases hopen : fs.openInodes k with
  | some ip => rfl
  | none =>
    have hread : Inode.ofHeader (Mem.write (fun _ => 0) 0 512 (fs.device.data k)) =
        fs.device.inodeAt k := by
      have hword : ∀ a, a + 4 ≤ 512 →
          (Mem.write (fun _ => 0) 0 512 (fs.device.data k)).word a =
            Mem.word (fs.device.data k) a := by
        intro a ha
        refine Mem.word_congr fun i hi => ?_
        rw [Mem.write_in (by omega) (by omega), Nat.sub_zero]
      unfold Block.inodeAt Inode.ofHeader
      rw [hword 0 (by omega), hword 4 (by omega)]
    simp [blockRead_eq hk, hread]

section

variable (h : fs.Mounted live)
include h

theorem Mounted.inodeOpen (hk : live k) :
    fs.inodeOpen k = some (fs.setInode k (some (fs.reopened k))) :=
  inodeOpen_eq (h.laid.header_lt hk)

theorem Mounted.reopened_data : (fs.reopened k).data = fs.device.inodeAt k := by
  unfold reopened
  cases hopen : fs.openInodes k with
  | some ip => exact (h.cached hopen).2
  | none => rfl

theorem Mounted.setInode (hk : live k) (hdata : ip.data = fs.device.inodeAt k)
    (hmap : k = freeMapSector → ip.denyWriteCnt = 0) : (fs.setInode k (some ip)).Mounted live where
  laid := h.laid
  tidy := h.tidy
  mapLive := h.mapLive
  mapLength := h.mapLength
  mapOpen := by
    by_cases hk0 : freeMapSector = k
    · subst hk0
      exact ⟨ip, setInode_self, hmap rfl⟩
    · obtain ⟨ip₀, hip₀, hdeny⟩ := h.mapOpen
      exact ⟨ip₀, (setInode_ne hk0).trans hip₀, hdeny⟩
  mapFile := h.mapFile
  cached {j ip'} hj := by
    by_cases hjk : j = k
    · subst hjk
      rw [setInode_self] at hj
      cases hj
      exact ⟨hk, hdata⟩
    · rw [setInode_ne hjk] at hj
      exact h.cached hj

theorem Mounted.closeInode (hk : k ≠ freeMapSector) (hlive : ∀ {j}, live' j → live j)
    (hrest : ∀ {j}, live j → j ≠ k → live' j) :
    (fs.setInode k none).Mounted live' where
  laid := h.laid.mono hlive rfl fun hs => hs
  tidy := h.tidy
  mapLive := hrest h.mapLive hk.symm
  mapLength := h.mapLength
  mapOpen := by
    obtain ⟨ip₀, hip₀, hdeny⟩ := h.mapOpen
    exact ⟨ip₀, (setInode_ne hk.symm).trans hip₀, hdeny⟩
  mapFile := h.mapFile
  cached {j ip'} hj := by
    by_cases hjk : j = k
    · subst hjk
      rw [setInode_self] at hj
      cases hj
    · rw [setInode_ne hjk] at hj
      obtain ⟨hjlive, hdata⟩ := h.cached hj
      exact ⟨hrest hjlive hjk, hdata⟩

theorem Mounted.restrict (hlive : ∀ {j}, live' j → live j) (hmap : live' freeMapSector)
    (hopen : ∀ {j ip}, fs.openInodes j = some ip → live' j) :
    fs.Mounted live' where
  laid := h.laid.mono hlive rfl fun hs => hs
  tidy := h.tidy
  mapLive := hmap
  mapLength := h.mapLength
  mapOpen := h.mapOpen
  mapFile := h.mapFile
  cached hj := ⟨hopen hj, (h.cached hj).2⟩

end

/-- What the last `inode_close` of a removed inode has done. -/
structure Freed (fs fs' : Filesys) (live : Nat → Prop) (k : Nat) : Prop where
  mounted : fs'.Mounted fun j => live j ∧ j ≠ k
  synced : fs'.Synced
  openInodes : fs'.openInodes = Function.update fs.openInodes k none
  freeMapFile : fs'.freeMapFile = fs.freeMapFile
  files : fs'.files = fs.files
  bitCnt : fs'.freeMap.bitCnt = fs.freeMap.bitCnt
  device : fs.device.SameBut fs'.device (fs.dataOf freeMapSector)
  bits : ∀ s, bitmapTest fs'.freeMap s = true ↔
    bitmapTest fs.freeMap s = true ∧ s ≠ k ∧ ¬ fs.dataOf k s

theorem inodeClose_eq {fs₁ : Filesys} (hip : fs.openInodes k = some ip) (hcnt : ip.openCnt = 1)
    (hremoved : ip.removed = true) (h₁ : (fs.setInode k none).freeMapRelease k 1 = some fs₁)
    (h₂ : fs₁.freeMapRelease ip.data.start (bytesToSectors ip.data.length) = some fs') :
    fs.inodeClose k = some fs' := by
  unfold freeMapRelease at h₁ h₂
  unfold Filesys.inodeClose inodeCloseWith
  rw [hip, bind_eq_bind, bind_some, if_pos hcnt]
  simp only
  rw [if_pos hremoved, h₁, bind_eq_bind, bind_some, h₂]

theorem Mounted.inodeClose_removed (h : fs.Mounted live) (hip : fs.openInodes k = some ip)
    (hk : k ≠ freeMapSector) (hcnt : ip.openCnt = 1) (hremoved : ip.removed = true) :
    ∃ fs', fs.inodeClose k = some fs' ∧ fs.Freed fs' live k := by
  obtain ⟨hlive, hdata⟩ := h.cached hip
  let live₁ : Nat → Prop := fun j => live j ∧ j ≠ k
  have h₁ : (fs.setInode k none).Mounted live₁ :=
    h.closeInode hk (fun hj => hj.1) fun hj hne => ⟨hj, hne⟩
  -- what the others have is not the inode's
  have hothers : ∀ {j s}, (fs.setInode k none).device.owns live₁ j s →
      ¬ (s = k) ∧ ¬ fs.dataOf k s := by
    intro j s hs
    have hold : fs.device.owns live j s := by
      cases j with
      | header j => exact ⟨hs.1.1, hs.2⟩
      | data j => exact ⟨hs.1.1, hs.2⟩
    have hne : j ≠ .header k ∧ j ≠ .data k := by
      constructor
      · rintro rfl
        exact hs.1.2 rfl
      · rintro rfl
        exact hs.1.2 rfl
    constructor
    · rintro rfl
      exact hne.1 (h.laid.owned.excl hold ⟨hlive, rfl⟩)
    · intro hin
      exact hne.2 (h.laid.owned.excl hold ⟨hlive, hin⟩)
  have hheads : ∀ {j}, live₁ j → ¬ fs.dataOf freeMapSector j :=
    fun hj => h.notHeader h.mapLive hj.1
  have hheader := h.laid.owned.used (h := .header k) ⟨hlive, rfl⟩
  have hone : ∀ {s}, InGroup k 1 s ↔ s = k := by
    intro s
    unfold InGroup
    omega
  -- the sector of the inode
  have hset₁ : ∀ {s}, InGroup k 1 s → bitmapTest (fs.setInode k none).freeMap s = true := by
    intro s hs
    rw [hone.mp hs]
    exact hheader.2
  obtain ⟨fs₁, hfs₁, hrel₁⟩ := h₁.freeMapRelease hheader.1 hset₁
    fun hs howns => (hothers howns).1 (hone.mp hs)
  have hsize₁ : fs₁.freeMap.bitCnt = fs.freeMap.bitCnt := hrel₁.memory.bitCnt
  have hbits₁ : ∀ s, bitmapTest fs₁.freeMap s = true ↔ s ≠ k ∧ bitmapTest fs.freeMap s = true := by
    intro s
    rw [hrel₁.bits, Bool.and_eq_true, Bool.not_eq_true', decide_eq_false_iff_not, hone]
    exact Iff.rfl
  -- its data
  have hfits : ip.data.start + bytesToSectors ip.data.length ≤ fs₁.freeMap.bitCnt := by
    rw [hsize₁, h.laid.size, hdata]
    exact h.laid.extent hlive
  have hgroup : ∀ {s}, InGroup ip.data.start (bytesToSectors ip.data.length) s ↔ fs.dataOf k s := by
    intro s
    rw [hdata]
    exact Iff.rfl
  have hset₂ : ∀ {s}, InGroup ip.data.start (bytesToSectors ip.data.length) s →
      bitmapTest fs₁.freeMap s = true := by
    intro s hs
    have hin := hgroup.mp hs
    refine (hbits₁ s).mpr ⟨?_, (h.laid.owned.used (h := .data k) ⟨hlive, hin⟩).2⟩
    rintro rfl
    exact h.notHeader hlive hlive hin
  obtain ⟨fs₂, hfs₂, hrel₂⟩ := hrel₁.mounted.freeMapRelease hfits hset₂
    fun hs howns => (hothers ((hrel₁.device.owns hheads).mp howns)).2 (hgroup.mp hs)
  refine ⟨fs₂, ?_, ⟨hrel₂.mounted, hrel₂.synced, ?_, ?_, ?_, ?_, ?_, fun s => ?_⟩⟩
  · exact inodeClose_eq hip hcnt hremoved hfs₁ hfs₂
  · exact hrel₂.memory.openInodes.trans hrel₁.memory.openInodes
  · exact hrel₂.memory.freeMapFile.trans hrel₁.memory.freeMapFile
  · exact hrel₂.memory.files.trans hrel₁.memory.files
  · exact hrel₂.memory.bitCnt.trans hsize₁
  · refine (hrel₁.device.trans hrel₂.device).mono ?_
    rintro s (hs | hs)
    · exact hs
    · unfold dataOf at hs
      rw [hrel₁.device.inodeAt (h.notHeader h.mapLive h.mapLive)] at hs
      exact hs
  · rw [hrel₂.bits, Bool.and_eq_true, Bool.not_eq_true', decide_eq_false_iff_not, hgroup, hbits₁]
    constructor
    · rintro ⟨hout, hne, hset⟩
      exact ⟨hset, hne, hout⟩
    · rintro ⟨hset, hne, hout⟩
      exact ⟨hout, hne, hset⟩

theorem inodeClose_more (hip : fs.openInodes k = some ip) (hcnt : ip.openCnt ≠ 1) :
    fs.inodeClose k = some (fs.setInode k (some { ip with openCnt := ip.openCnt - 1 })) := by
  simp [Filesys.inodeClose, inodeCloseWith, hip, hcnt]

theorem inodeClose_last (hip : fs.openInodes k = some ip) (hcnt : ip.openCnt = 1)
    (hremoved : ip.removed = false) : fs.inodeClose k = some (fs.setInode k none) := by
  simp [Filesys.inodeClose, inodeCloseWith, hip, hcnt, hremoved]

end

end Filesys

end Pintos
