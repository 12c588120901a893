import Pintos.Filesys.Create

/-!
# Formatting

`filesys_init` with formatting creates the inode of the free map when there is no file for the free map
yet, writes the free map, creates the root directory and reads the free map again.
-/

namespace Pintos

open Lib Option Filesys

namespace Filesys

variable {fs fs' : Filesys} {k : Nat}

/-! ## The first inode -/

variable {live : Nat → Prop} {n start : Nat}

theorem freeMapAllocate_boot (hfile : fs.freeMapFile = none) {cnt : Nat}
    (hscan : bitmapScan fs.freeMap 0 cnt false = some start) :
    ∃ b, fs.freeMapAllocate cnt = some (some start, { fs with freeMap := b }) ∧
      b.bitCnt = fs.freeMap.bitCnt ∧ start + cnt ≤ fs.freeMap.bitCnt ∧
      (∀ {s}, InGroup start cnt s → bitmapTest fs.freeMap s = false) ∧
      ∀ s, bitmapTest b s = (decide (InGroup start cnt s) || bitmapTest fs.freeMap s) := by
  have hflip : bitmapScanAndFlip fs.freeMap 0 cnt false =
      (some start, bitmapSetMultiple fs.freeMap start cnt true) := by
    simp only [bitmapScanAndFlip, hscan, Bool.not_false]
  obtain ⟨hfits, hcnt, hclear, hbits⟩ := bitmapScanAndFlip_some hflip
  refine ⟨_, ?_, hcnt, hfits, fun {s} hs => ?_, hbits⟩
  · simp [freeMapAllocate, hflip, hfile]
  · have hbit := hclear (s - start) (by unfold InGroup at hs; omega)
    rwa [Nat.add_sub_cancel' hs.1] at hbit

theorem inodeCreate_off
    (hsome : fs.freeMapAllocate (bytesToSectors n) = some (some start, fs'))
    (hoff : ¬ k < fs'.device.size) : fs.inodeCreate k n = none := by
  have hwrite : blockWrite fs'.device k (Inode.header ⟨start, n⟩) 0 = none := if_neg hoff
  unfold inodeCreate
  rw [if_pos (Int.natCast_nonneg n)]
  simp only [Int.toNat_natCast, hsome, bind_eq_bind, bind_some]
  rw [hwrite]
  rfl

theorem inodeCreate_boot (hlaid : Laid fs.device fs.freeMap fun _ => False)
    (hfile : fs.freeMapFile = none) (hmark : bitmapTest fs.freeMap k = true)
    (hn : n < 2147483648) (h : fs.inodeCreate k n = some (true, fs')) :
    ∃ start d b, fs' = { fs with device := d, freeMap := b } ∧
      b.bitCnt = fs.freeMap.bitCnt ∧ start + bytesToSectors n ≤ fs.freeMap.bitCnt ∧
      (∀ {s}, InGroup start (bytesToSectors n) s → bitmapTest fs.freeMap s = false) ∧
      (∀ s, bitmapTest b s =
        (decide (InGroup start (bytesToSectors n) s) || bitmapTest fs.freeMap s)) ∧
      Laid d b (fun j => False ∨ j = k) ∧ d.inodeAt k = ⟨start, n⟩ := by
  have hlen : (0 : Int) ≤ n := Int.natCast_nonneg n
  cases hscan : bitmapScan fs.freeMap 0 (bytesToSectors n) false with
  | none =>
    have hnone := freeMapAllocate_none hscan
    have hfalse : fs.inodeCreate k n = some (false, fs) := by
      simp [inodeCreate, hlen, hnone]
    rw [hfalse] at h
    cases h
  | some start =>
    obtain ⟨b, hsome, hcnt, hfits, hclear, hbits⟩ := freeMapAllocate_boot hfile hscan
    by_cases hlt : k < fs.device.size
    · have hmarked : ∀ {s}, bitmapTest fs.freeMap s = true → bitmapTest b s = true := by
        intro s hs
        rw [hbits, hs, Bool.or_true]
      have hused : b.used k := by
        refine ⟨?_, hmarked hmark⟩
        rw [hcnt, hlaid.size]
        exact hlt
      have hnobody : ∀ {j s}, ¬ fs.device.owns (fun _ => False) j s := by
        intro j s hs
        cases j with
        | header j => exact hs.1
        | data j => exact hs.1
      have hrun : ∀ {s}, start ≤ s → s < start + bytesToSectors n →
          b.used s ∧ s ≠ k ∧ ∀ {j}, ¬ fs.device.owns (fun _ => False) j s := by
        intro s hle hin
        refine ⟨⟨?_, ?_⟩, ?_, hnobody⟩
        · rw [hcnt]
          omega
        · rw [hbits, decide_eq_true (show InGroup start (bytesToSectors n) s from ⟨hle, hin⟩),
            Bool.true_or]
        · rintro rfl
          rw [hclear ⟨hle, hin⟩] at hmark
          cases hmark
      have hlaid₁ : Laid fs.device b fun _ => False := hlaid.mono (fun hk => hk) hcnt hmarked
      obtain ⟨d, hd, -, hlaid', hinode, -⟩ := hlaid₁.create hused hnobody hrun hn
        (hlaid.size ▸ hfits)
      rw [bind_eq_bind] at hd
      obtain ⟨d₁, hd₁, hd⟩ := bind_eq_some_iff.mp hd
      rw [inodeCreate_eq hsome hd₁ hd] at h
      have heq := (Prod.mk.inj (Option.some.inj h)).2
      exact ⟨start, d, b, heq.symm, hcnt, hfits, hclear, hbits, hlaid', hinode⟩
    · rw [inodeCreate_off hsome hlt] at h
      cases h

/-! ## The free map -/

/-- What `filesys_init` starts from. -/
def blank (d : Block) : Filesys :=
  ⟨d, fun _ => none, bitmapMark (bitmapMark (bitmapCreate d.size) freeMapSector) rootDirSector, none, []⟩

theorem init_true (d : Block) : init d true = ((blank d).doFormat).bind freeMapOpen := rfl

theorem init_false (d : Block) : init d false = (blank d).freeMapOpen := rfl

theorem blank_bits (d : Block) (s : Nat) :
    bitmapTest (blank d).freeMap s = true ↔ s = freeMapSector ∨ s = rootDirSector := by
  unfold blank
  rw [bitmapTest_mark, bitmapTest_mark, bitmapTest_create, Bool.or_false, Bool.or_eq_true,
    decide_eq_true_iff, decide_eq_true_iff]
  constructor
  · rintro (rfl | rfl)
    · exact .inr rfl
    · exact .inl rfl
  · rintro (rfl | rfl)
    · exact .inr rfl
    · exact .inl rfl

/-- The free map is opened. -/
def withMap (fs : Filesys) : Filesys :=
  { fs.setInode freeMapSector (some ⟨1, false, 0, fs.device.inodeAt freeMapSector⟩) with
    freeMapFile := some ⟨freeMapSector, 0, false⟩ }

theorem withMap_self (fs : Filesys) : fs.withMap.openInodes freeMapSector =
    some ⟨1, false, 0, fs.device.inodeAt freeMapSector⟩ := by
  show (fs.setInode freeMapSector _).openInodes freeMapSector = _
  exact setInode_self

theorem mounted_withMap (hlaid : Laid fs.device fs.freeMap live)
    (htidy : fs.freeMap.Tidy) (hlive : live freeMapSector) (hopen : fs.openInodes = fun _ => none)
    (hlength : (fs.device.inodeAt freeMapSector).length = byteCnt fs.freeMap.bitCnt) :
    fs.withMap.Mounted live where
  laid := hlaid
  tidy := htidy
  mapLive := hlive
  mapLength := hlength
  mapOpen := ⟨⟨1, false, 0, fs.device.inodeAt freeMapSector⟩, fs.withMap_self, rfl⟩
  mapFile := ⟨⟨freeMapSector, 0, false⟩, rfl, rfl⟩
  cached {k ip} hk := by
    have hk : (fs.setInode freeMapSector _).openInodes k = some ip := hk
    by_cases hk0 : k = freeMapSector
    · subst hk0
      rw [setInode_self] at hk
      cases hk
      exact ⟨hlive, rfl⟩
    · rw [setInode_ne hk0, hopen] at hk
      cases hk

/-- While the disk is formatted: the free map is open, and nothing else. -/
structure Booted (fs : Filesys) (live : Nat → Prop) : Prop where
  mounted : fs.Mounted live
  synced : fs.Synced
  inodes : fs.openInodes = Function.update (fun _ => none) freeMapSector
    (some ⟨1, false, 0, fs.device.inodeAt freeMapSector⟩)
  freeMapFile : fs.freeMapFile = some ⟨freeMapSector, 0, false⟩
  files : fs.files = []

theorem inodeOpen_map (hopen : fs.openInodes freeMapSector = none)
    (hlt : freeMapSector < fs.device.size) : fs.inodeOpen freeMapSector =
      some (fs.setInode freeMapSector (some ⟨1, false, 0, fs.device.inodeAt freeMapSector⟩)) := by
  have hsome := inodeOpen_eq hlt
  unfold reopened at hsome
  rw [hopen] at hsome
  exact hsome

theorem freeMapCreate_created (h : fs.freeMapCreate = some fs') :
    ∃ fs₁, fs.inodeCreate freeMapSector (byteCnt fs.freeMap.bitCnt) = some (true, fs₁) := by
  unfold freeMapCreate at h
  obtain ⟨⟨created, fs₁⟩, hcreate, h⟩ := bind_eq_some_iff.mp h
  cases created with
  | false => cases h
  | true => exact ⟨fs₁, hcreate⟩

theorem freeMapCreate_eq {fs₁ : Filesys}
    (hcreate : fs.inodeCreate freeMapSector (byteCnt fs.freeMap.bitCnt) = some (true, fs₁))
    (hopen : fs₁.inodeOpen freeMapSector = some
      (fs₁.setInode freeMapSector (some ⟨1, false, 0, fs₁.device.inodeAt freeMapSector⟩)))
    (hwrite : fs₁.withMap.bitmapWrite ⟨freeMapSector, 0, false⟩ = some (true, fs')) :
    fs.freeMapCreate = some fs' := by
  have hwrite : bitmapWrite ⟨fs₁.device, (fs₁.setInode freeMapSector
      (some ⟨1, false, 0, fs₁.device.inodeAt freeMapSector⟩)).openInodes, fs₁.freeMap,
      some ⟨freeMapSector, 0, false⟩, fs₁.files⟩ ⟨freeMapSector, 0, false⟩ = some (true, fs') := hwrite
  simp [freeMapCreate, hcreate, hopen, hwrite]

theorem freeMapCreate_booted {d : Block} (hbound : d.size + 31 < 4294967296)
    (h : (blank d).freeMapCreate = some fs) :
    fs.Booted (· = freeMapSector) ∧ fs.freeMap.used rootDirSector ∧
      ∀ {j}, ¬ fs.device.owns (· = freeMapSector) j rootDirSector := by
  have hlaid : Laid (blank d).device (blank d).freeMap fun _ => False :=
    ⟨rfl, hbound, ⟨fun {j} => by cases j <;> exact fun h => h.1.elim,
      fun {j} => by cases j <;> exact fun h => h.1.elim⟩, False.elim, False.elim⟩
  obtain ⟨fs₁, hcreate⟩ := freeMapCreate_created h
  obtain ⟨n, hn⟩ : ∃ n, byteCnt (blank d).freeMap.bitCnt = n := ⟨_, rfl⟩
  rw [hn] at hcreate
  have hbytes : 4 * ((d.size + 31) / 32) = n := hn
  have hlength : n < 2147483648 := by omega
  obtain ⟨start, d₁, b, rfl, hcnt, hfits, hclear, hbits, hlaid₁, hinode⟩ :=
    inodeCreate_boot hlaid rfl ((blank_bits d _).mpr (.inl rfl)) hlength hcreate
  have hlive : (fun j => False ∨ j = freeMapSector) = (· = freeMapSector) :=
    funext fun j => propext (or_iff_right id)
  rw [hlive] at hlaid₁
  have hlt : freeMapSector < d₁.size := hlaid₁.header_lt rfl
  -- the sectors of the free map are neither of the two that are marked
  have hgroup : ∀ {s}, InGroup start (bytesToSectors n) s → 2 ≤ s := by
    intro s hs
    have hoff := (blank_bits d s).not.mp (Bool.eq_false_iff.mp (hclear hs))
    unfold freeMapSector rootDirSector at hoff
    omega
  have hbitCnt : (blank d).freeMap.bitCnt = d.size := rfl
  have hsize : 2 < d.size := by
    rw [← hlaid₁.size, hcnt] at hlt
    have hsome : 0 < bytesToSectors n := bytesToSectors_pos (by omega) hlength
    have hstart := hgroup ⟨Nat.le_refl start, Nat.lt_add_of_pos_right hsome⟩
    omega
  have htidy : b.Tidy := by
    intro j hj
    rw [hbits, decide_eq_false (by unfold InGroup; omega), Bool.false_or, Bool.eq_false_iff, ne_eq,
      blank_bits]
    unfold freeMapSector rootDirSector
    omega
  have hlen : (d₁.inodeAt freeMapSector).length = byteCnt b.bitCnt := by
    rw [hinode, hcnt, hn]
  let fs₁ : Filesys := { blank d with device := d₁, freeMap := b }
  have hm : fs₁.withMap.Mounted (· = freeMapSector) := mounted_withMap hlaid₁ htidy rfl rfl hlen
  obtain ⟨fs₂, hwrite, hmap, hsame⟩ := hm.bitmapWrite ⟨freeMapSector, 0, false⟩ rfl
  rw [← hn] at hcreate
  rw [freeMapCreate_eq hcreate (inodeOpen_map rfl hlt) hwrite] at h
  cases h
  have hb : ∀ {s}, bitmapTest (blank d).freeMap s = true → bitmapTest b s = true := by
    intro s hs
    rw [hbits, hs, Bool.or_true]
  refine ⟨⟨hmap.mounted, hmap.synced, ?_, hmap.memory.freeMapFile, hmap.memory.files⟩, ⟨?_, ?_⟩, ?_⟩
  · rw [hmap.memory.openInodes, hmap.device.inodeAt (hm.notHeader rfl rfl)]
    rfl
  · rw [hmap.memory.bitCnt]
    show 1 < b.bitCnt
    omega
  · rw [hsame]
    exact hb ((blank_bits d _).mpr (.inr rfl))
  · intro j
    rw [hmap.device.owns fun hj => hm.notHeader rfl hj]
    cases j with
    | header j =>
      rintro ⟨rfl, hs⟩
      cases hs
    | data j =>
      rintro ⟨rfl, hs⟩
      have hs : InGroup (d₁.inodeAt freeMapSector).start
        (bytesToSectors (d₁.inodeAt freeMapSector).length) rootDirSector := hs
      rw [hinode] at hs
      have htwo := hgroup hs
      unfold rootDirSector at htwo
      omega

/-! ## The root directory -/

theorem Booted.createRoot (hb : fs.Booted live)
    (hused : fs.freeMap.used rootDirSector) (hfree : ∀ {j}, ¬ fs.device.owns live j rootDirSector)
    (hn : n < 2147483648) (h : fs.inodeCreate rootDirSector n = some (true, fs')) :
    fs'.Booted (fun j => live j ∨ j = rootDirSector) ∧
      ∃ start, fs'.device.inodeAt rootDirSector = ⟨start, n⟩ ∧
        ∀ o < n, fs'.device.byteFrom start o = 0 := by
  rcases hb.mounted.inodeCreate hn hused hfree with ⟨-, hfalse⟩ | ⟨start, fs₁, -, htrue, hcreated⟩
  · rw [hfalse] at h
    cases h
  · rw [htrue] at h
    cases h
    have hmap : fs'.device.inodeAt freeMapSector = fs.device.inodeAt freeMapSector := by
      refine hcreated.device.inodeAt ?_
      rintro (hin | h0 | hin)
      · exact hb.mounted.notHeader hb.mounted.mapLive hb.mounted.mapLive hin
      · cases h0
      · exact hb.mounted.unowned (hcreated.clear hin) (j := .header freeMapSector)
          ⟨hb.mounted.mapLive, rfl⟩
    refine ⟨⟨hcreated.mounted, hcreated.synced, ?_, hcreated.memory.freeMapFile.trans hb.freeMapFile,
      hcreated.memory.files.trans hb.files⟩, start, hcreated.inode, hcreated.zeros⟩
    rw [hcreated.memory.openInodes, hmap]
    exact hb.inodes

/-! ## Reading the free map -/

theorem bitmapRead_eq {ip : OpenInode} (hip : fs.openInodes freeMapSector = some ip)
    (hon : ip.data.OnDevice fs.device) (hsize : fs.device.size < 4294967296)
    (hlength : ip.data.length = byteCnt fs.freeMap.bitCnt) (hpos : 0 < fs.freeMap.bitCnt) (file : File)
    (hfile : file.inode = freeMapSector) :
    fs.bitmapRead file = some (true, { fs with
      freeMap := bitmapLoad fs.freeMap ((bitmapBytes fs.freeMap).write 0 (byteCnt fs.freeMap.bitCnt)
        fun i => fs.device.byteFrom ip.data.start (0 + i)) }) := by
  have hall : sliceLength ip.data.length (byteCnt fs.freeMap.bitCnt) 0 = byteCnt fs.freeMap.bitCnt := by
    rw [hlength]
    unfold sliceLength
    omega
  have hread : fs.inodeReadAt true freeMapSector (bitmapBytes fs.freeMap) 0
      (byteCnt fs.freeMap.bitCnt) 0 = some (byteCnt fs.freeMap.bitCnt,
        (bitmapBytes fs.freeMap).write 0 (byteCnt fs.freeMap.bitCnt)
          fun i => fs.device.byteFrom ip.data.start (0 + i)) := by
    unfold inodeReadAt
    rw [hip, bind_eq_bind, bind_some, readAt_eq hon hsize, hall]
  simp [bitmapRead, hpos, hfile, hread]

theorem freeMapOpen_eq (hopen : fs.inodeOpen freeMapSector = some
      (fs.setInode freeMapSector (some ⟨1, false, 0, fs.device.inodeAt freeMapSector⟩)))
    (hread : fs.withMap.bitmapRead ⟨freeMapSector, 0, false⟩ = some (true, fs')) :
    fs.freeMapOpen = some fs' := by
  have hread : bitmapRead ⟨fs.device, (fs.setInode freeMapSector
      (some ⟨1, false, 0, fs.device.inodeAt freeMapSector⟩)).openInodes, fs.freeMap,
      some ⟨freeMapSector, 0, false⟩, fs.files⟩ ⟨freeMapSector, 0, false⟩ = some (true, fs') := hread
  simp [freeMapOpen, hopen, hread]

theorem Booted.reopen (hb : fs.Booted live) :
    fs.freeMapClose = some (fs.setInode freeMapSector none) ∧
      (fs.setInode freeMapSector none).freeMapOpen = some fs := by
  have hip : fs.openInodes freeMapSector =
      some ⟨1, false, 0, fs.device.inodeAt freeMapSector⟩ := by
    rw [hb.inodes, Function.update_self]
  have hlt : freeMapSector < fs.device.size := hb.mounted.laid.header_lt hb.mounted.mapLive
  have hsame : (fs.setInode freeMapSector none).withMap = fs := by
    unfold withMap setInode
    simp only
    rw [Function.update_idem, ← hip, Function.update_eq_self, ← hb.freeMapFile]
  constructor
  · have hclose : fs.inodeClose freeMapSector = some (fs.setInode freeMapSector none) :=
      inodeClose_last hip rfl rfl
    simp [freeMapClose, hb.freeMapFile, hclose]
  · refine freeMapOpen_eq (inodeOpen_map setInode_self hlt) ?_
    have hread := bitmapRead_eq hip (hb.mounted.laid.onDevice hb.mounted.mapLive) hb.mounted.sizeLt
      hb.mounted.mapLength (hb.mounted.laid.size ▸ Nat.zero_lt_of_lt hlt)
      ⟨freeMapSector, 0, false⟩ rfl
    -- the disk has what is in memory
    have hbytes : (bitmapBytes fs.freeMap).write 0 (byteCnt fs.freeMap.bitCnt)
        (fun i => fs.device.byteFrom (fs.device.inodeAt freeMapSector).start (0 + i)) =
        bitmapBytes fs.freeMap := by
      funext i
      by_cases hi : i < byteCnt fs.freeMap.bitCnt
      · rw [Mem.write_in (by omega) (by omega), Nat.sub_zero, Nat.zero_add]
        exact hb.synced i hi
      · rw [Mem.write_out (by omega)]
    rw [hsame, hread, hbytes, bitmapLoad_bytes hb.mounted.tidy]

/-! ## The formatted disk -/

theorem Mounted.consistent (hm : fs.Mounted fs.Live) (hs : fs.Synced)
    (hlength : (fs.device.inodeAt rootDirSector).length % 20 = 0)
    (honly : ∀ {k}, k ≠ freeMapSector → fs.openInodes k = none) (hfiles : fs.files = [])
    (hentry : ∀ {k}, fs.Named k → IsFile k)
    (hunique : ∀ {i j}, i < fs.device.slots rootDirSector → j < fs.device.slots rootDirSector →
      DirEntry.inUse (fs.device.slot rootDirSector i) = true →
      DirEntry.inUse (fs.device.slot rootDirSector j) = true →
      DirEntry.inodeSector (fs.device.slot rootDirSector i) =
        DirEntry.inodeSector (fs.device.slot rootDirSector j) → i = j) : fs.Consistent := by
  have hclosed : ∀ {k ip}, fs.openInodes k = some ip → ¬ IsFile k := by
    rintro k ip hk ⟨h0, -⟩
    rw [honly h0] at hk
    cases hk
  refine ⟨hm, hs, hlength, honly (by decide), hentry, hunique, ?_, ?_, ?_, ?_⟩
  · exact fun hk hfile => absurd hfile (hclosed hk)
  · exact fun hk hfile => absurd hfile (hclosed hk)
  · exact fun hk hfile => absurd hfile (hclosed hk)
  · intro k hk
    unfold handles at hk
    rw [hfiles] at hk
    cases hk

theorem Booted.consistent (hb : fs.Booted fun j => j = freeMapSector ∨ j = rootDirSector)
    (hinode : fs.device.inodeAt rootDirSector = ⟨start, 320⟩)
    (hzeros : ∀ o < 320, fs.device.byteFrom start o = 0) : fs.Consistent := by
  have hunused : ∀ {i}, i < fs.device.slots rootDirSector →
      ¬ DirEntry.inUse (fs.device.slot rootDirSector i) = true := by
    intro i hi
    unfold Block.slots Inode.slots at hi
    unfold Block.slot Inode.slot DirEntry.inUse
    rw [hinode] at hi ⊢
    have hi : i < 320 / 20 := hi
    show ¬ decide (fs.device.byteFrom start (20 * i + 19) ≠ 0) = true
    rw [hzeros (20 * i + 19) (by omega)]
    decide
  have hnamed : ∀ {k}, ¬ fs.Named k := by
    rintro k ⟨i, hi, huse, -⟩
    exact hunused hi huse
  have honly : ∀ {k}, k ≠ freeMapSector → fs.openInodes k = none := by
    intro k hk
    rw [hb.inodes, Function.update_of_ne hk]
  have hlive : ∀ j, fs.Live j ↔ j = freeMapSector ∨ j = rootDirSector := by
    intro j
    constructor
    · rintro (h0 | h1 | hj | hj)
      · exact .inl h0
      · exact .inr h1
      · exact absurd hj hnamed
      · by_contra hne
        rw [honly fun h0 => hne (.inl h0)] at hj
        cases hj
    · rintro (h0 | h1)
      · exact .inl h0
      · exact .inr (.inl h1)
  have hlength : (fs.device.inodeAt rootDirSector).length = 320 := congrArg Inode.length hinode
  exact (hb.mounted.congr hlive).consistent hb.synced (by omega) honly hb.files
    (fun hk => absurd hk hnamed) fun hi _ huse => absurd huse (hunused hi)

theorem init_consistent {d : Block} (hbound : d.size + 31 < 4294967296)
    (h : init d true = some fs) : fs.Consistent := by
  rw [init_true] at h
  obtain ⟨fs₃, hformat, hopen⟩ := bind_eq_some_iff.mp h
  unfold doFormat at hformat
  obtain ⟨fs₁, hmap, hformat⟩ := bind_eq_some_iff.mp hformat
  obtain ⟨⟨created, fs₂⟩, hcreate, hclose⟩ := bind_eq_some_iff.mp hformat
  obtain ⟨hb₁, hused, hfree⟩ := freeMapCreate_booted hbound hmap
  cases created with
  | false => cases hclose
  | true =>
    have hcreate : fs₁.inodeCreate rootDirSector ((320 : Nat) : Int) = some (true, fs₂) := hcreate
    have hclose : fs₂.freeMapClose = some fs₃ := hclose
    obtain ⟨hb, start, hinode, hzeros⟩ := hb₁.createRoot hused hfree (by omega) hcreate
    rw [hb.reopen.1] at hclose
    cases hclose
    rw [hb.reopen.2] at hopen
    cases hopen
    exact hb.consistent hinode hzeros

/-! ## The same disk again -/

/-- `filesys_init` without formatting. -/
def remounted (fs : Filesys) : Filesys := { (blank fs.device).withMap with freeMap := fs.freeMap }

theorem Consistent.remount (hc : fs.Consistent) : init fs.device false = some fs.remounted := by
  have hm := hc.mounted
  have hsize : (blank fs.device).freeMap.bitCnt = fs.freeMap.bitCnt := hm.laid.size.symm
  have hroot : 1 < (blank fs.device).freeMap.bitCnt := hm.laid.header_lt fs.live_root
  have hlength : (fs.device.inodeAt freeMapSector).length = byteCnt (blank fs.device).freeMap.bitCnt := by
    rw [hm.mapLength, hsize]
  have hpos : 0 < (blank fs.device).withMap.freeMap.bitCnt := Nat.zero_lt_of_lt hroot
  have hopen : (blank fs.device).inodeOpen freeMapSector = some _ :=
    inodeOpen_map rfl (hm.laid.header_lt fs.live_map)
  have hread := bitmapRead_eq (blank fs.device).withMap_self (hm.laid.onDevice fs.live_map) hm.sizeLt
    hlength hpos ⟨freeMapSector, 0, false⟩ rfl
  -- what has been read is the free map in its bits, and tidy behind them
  have hload : bitmapLoad (blank fs.device).freeMap ((bitmapBytes (blank fs.device).freeMap).write 0
      (byteCnt (blank fs.device).freeMap.bitCnt)
      fun i => fs.device.byteFrom (fs.device.inodeAt freeMapSector).start (0 + i)) = fs.freeMap := by
    refine Bitmap.ext_bits hsize fun j => ?_
    by_cases hj : j < fs.freeMap.bitCnt
    · refine bitmapTest_load hsize (fun i hi => ?_) hj
      rw [← hsize] at hi
      rw [Mem.write_in (by omega) (by omega), Nat.sub_zero, Nat.zero_add]
      exact hc.synced i (hsize ▸ hi)
    · have hj : fs.freeMap.bitCnt ≤ j := Nat.le_of_not_lt hj
      have htidy : (blank fs.device).freeMap.Tidy := by
        intro s hs
        rw [Bool.eq_false_iff, ne_eq, blank_bits]
        unfold freeMapSector rootDirSector
        omega
      rw [hm.tidy j hj]
      refine bitmapLoad_tidy htidy hpos (fun i hi => ?_) j (hsize.symm ▸ hj)
      rw [Mem.write_out (by omega)]
  rw [init_false]
  refine freeMapOpen_eq hopen (hread.trans ?_)
  exact congrArg (fun b => some (true, ({ (blank fs.device).withMap with freeMap := b } : Filesys))) hload

theorem Consistent.remounted (hc : fs.Consistent) : fs.remounted.Consistent := by
  have honly : ∀ {k}, k ≠ freeMapSector → fs.remounted.openInodes k = none := fun hk => setInode_ne hk
  have hlive : ∀ {j}, fs.remounted.Live j → fs.Live j := by
    rintro j (h0 | h1 | hj | hj)
    · exact .inl h0
    · exact .inr (.inl h1)
    · exact .inr (.inr (.inl hj))
    · by_cases h0 : j = freeMapSector
      · exact .inl h0
      · rw [honly h0] at hj
        cases hj
  have hlaid : Laid fs.device fs.freeMap fs.remounted.Live :=
    hc.mounted.laid.mono hlive rfl fun hs => hs
  let fs₁ : Filesys := { blank fs.device with freeMap := fs.freeMap }
  have hmounted : fs₁.withMap.Mounted fs.remounted.Live :=
    mounted_withMap hlaid hc.mounted.tidy fs.remounted.live_map rfl hc.mounted.mapLength
  exact Mounted.consistent hmounted hc.synced hc.rootLength honly rfl hc.entryFile hc.entryUnique

end Filesys

end Pintos
