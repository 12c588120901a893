import Pintos.Filesys.NameOps

/-!
# `filesys_create`

`filesys_create` takes a sector for the inode, creates the inode and adds its name to the root
directory. If one of these fails it releases the sector of the inode (`Consistent.undo`), and not the
sectors that `inode_create` has taken for the data.
-/

namespace Pintos

open Lib DirEntry

namespace Filesys

variable {fs fs' fs₁ : Filesys} {k : Nat}

/-- `filesys_create` finds a sector for the inode, and then sectors for `n` bytes. -/
def HasRoom (fs : Filesys) (n : Nat) : Prop :=
  ∃ k, bitmapScan fs.freeMap 0 1 false = some k ∧
    (bitmapScan (bitmapSetMultiple fs.freeMap k 1 true) 0 (bytesToSectors n) false).isSome = true

/-- The free map after `bitmap_scan_and_flip` has found a group. -/
def takeGroup (b : Bitmap) (cnt : Nat) : Option Bitmap :=
  (bitmapScan b 0 cnt false).map fun start => bitmapSetMultiple b start cnt true

/-- The free map after `filesys_create` has found its sectors. -/
def takeSectors (b : Bitmap) (n : Nat) : Option Bitmap :=
  (takeGroup b 1).bind fun b => takeGroup b (bytesToSectors n)

theorem takeGroup_eq {b : Bitmap} {cnt start : Nat} (h : bitmapScan b 0 cnt false = some start) :
    takeGroup b cnt = some (bitmapSetMultiple b start cnt true) := by
  rw [takeGroup, h, Option.map_some]

/-- The name is in the root directory, for an inode of `n` bytes that was not there before. -/
structure Linked (fs fs' : Filesys) (name : Name) (k n : Nat) : Prop where
  fresh : ¬ fs.Live k
  openInodes : fs'.openInodes = fs.openInodes
  inode : (fs'.device.inodeAt k).length = n
  root : fs'.device.inodeAt rootDirSector = fs.device.inodeAt rootDirSector
  slot : ∃ i < fs.device.slots rootDirSector, DirEntry.inUse (fs.device.slot rootDirSector i) = false ∧
    fs'.device.Lists rootDirSector name.1 i ∧
    DirEntry.inodeSector (fs'.device.slot rootDirSector i) = k ∧
    ∀ j < fs.device.slots rootDirSector, j ≠ i →
      SameEntry (fs'.device.slot rootDirSector j) (fs.device.slot rootDirSector j)

/-! ## Failure -/

/-- What is left of an operation that has failed: the sectors in `leaked` are marked. -/
structure Undone (fs fs' : Filesys) (leaked : Nat → Prop) : Prop where
  mounted : fs'.Mounted fs.Live
  synced : fs'.Synced
  memory : fs.SameMemory fs'
  device : fs.device.SameBut fs'.device fs.Scratch
  clear : ∀ {s}, leaked s → bitmapTest fs.freeMap s = false
  bits : ∀ s, bitmapTest fs'.freeMap s = true ↔ bitmapTest fs.freeMap s = true ∨ leaked s

theorem Consistent.undone_refl (hc : fs.Consistent) : fs.Undone fs fun _ => False where
  mounted := hc.mounted
  synced := hc.synced
  memory := ⟨rfl, rfl, rfl, rfl⟩
  device := .refl ..
  clear := False.elim
  bits _ := (or_iff_left id).symm

variable {fs₀ fs₂ fs₃ : Filesys} {leaked : Nat → Prop} {n : Int} {name : Name}

theorem Undone.sameRoot (hc : fs.Consistent) (hu : fs.Undone fs' leaked) :
    fs.SameRoot fs' :=
  sameRoot_of_sameBut hc.mounted fs.live_root hu.device (hc.mounted.header_kept fs.live_root)
    (hc.mounted.data_kept fs.live_root (by decide))

theorem Undone.effect (hc : fs.Consistent) (hu : fs.Undone fs' leaked) :
    fs.Keeps fs' := by
  have hroot := hu.sameRoot hc
  have hlive : ∀ j, fs'.Live j ↔ fs.Live j := by
    intro j
    unfold Live
    rw [hroot.named, hu.memory.openInodes]
  have hc' := hc.transfer (hu.mounted.congr hlive) hu.synced hu.memory.openInodes hu.memory.files hroot
  refine hc.effect hc' hu.device .inl (.of_eq hu.memory.files) ?_ ?_
  · intro s hset hclear
    rw [(hu.bits s).mpr (.inl hset)] at hclear
    cases hclear
  · intro j s hj hgone
    exact absurd ((hlive j).mpr hj) hgone

theorem Consistent.undo (hc : fs.Consistent) (hm : fs₁.Mounted fs.Live)
    (hmemory : fs.withRoot.SameMemory fs₁) (hd : fs.device.SameBut fs₁.device fs.Scratch)
    (hk : k < fs.freeMap.bitCnt) (hclear : bitmapTest fs.freeMap k = false) (hleak : ¬ leaked k)
    (hleaked : ∀ {s}, leaked s → bitmapTest fs.freeMap s = false)
    (hbits : ∀ s, bitmapTest fs₁.freeMap s = true ↔
      bitmapTest fs.freeMap s = true ∨ s = k ∨ leaked s) :
    ∃ fs₂ fs', fs₁.freeMapRelease k 1 = some fs₂ ∧ fs₂.dirClose = some fs' ∧
      fs.Undone fs' leaked := by
  have hone : ∀ {s}, InGroup k 1 s ↔ s = k := by
    intro s
    unfold InGroup
    omega
  have hheads : ∀ {j}, fs.Live j → ¬ fs.Scratch j := fun hj => hc.mounted.header_kept hj
  have hfits : k + 1 ≤ fs₁.freeMap.bitCnt := by
    rw [hmemory.bitCnt]
    exact hk
  have hmarked : ∀ {s}, InGroup k 1 s → bitmapTest fs₁.freeMap s = true :=
    fun hs => (hbits _).mpr (.inr (.inl (hone.mp hs)))
  have hfree : ∀ {s j}, InGroup k 1 s → ¬ fs₁.device.owns fs.Live j s := by
    intro s j hs
    rw [hone.mp hs, hd.owns hheads]
    exact hc.mounted.unowned hclear
  obtain ⟨fs₂, hrelease, hreleased⟩ := hm.freeMapRelease hfits hmarked hfree
  have hopen : fs₂.openInodes = fs.withRoot.openInodes :=
    hreleased.memory.openInodes.trans hmemory.openInodes
  have hroot : fs₂.openInodes rootDirSector = some fs.rootInode := by
    rw [hopen]
    exact fs.withRoot_root
  refine ⟨fs₂, _, hrelease, closeRoot hroot, ?_⟩
  have hmap : fs₁.device.inodeAt freeMapSector = fs.device.inodeAt freeMapSector :=
    hd.inodeAt (hheads fs.live_map)
  constructor
  · exact hreleased.mounted.closeRoot
  · exact hreleased.synced
  · exact ⟨hc.closedRoot hopen, hreleased.memory.freeMapFile.trans hmemory.freeMapFile,
      hreleased.memory.files.trans hmemory.files, hreleased.memory.bitCnt.trans hmemory.bitCnt⟩
  · refine (hd.trans hreleased.device).mono ?_
    rintro s (hin | hin)
    · exact hin
    · refine .inl ?_
      unfold dataOf at hin ⊢
      rw [← hmap]
      exact hin
  · exact hleaked
  · intro s
    show bitmapTest fs₂.freeMap s = true ↔ _
    rw [hreleased.bits, Bool.and_eq_true, Bool.not_eq_true', decide_eq_false_iff_not, hone, hbits]
    constructor
    · rintro ⟨hne, hset | heq | hin⟩
      · exact .inl hset
      · exact absurd heq hne
      · exact .inr hin
    · rintro (hset | hin)
      · refine ⟨?_, .inl hset⟩
        rintro rfl
        rw [hset] at hclear
        cases hclear
      · refine ⟨?_, .inr (.inr hin)⟩
        rintro rfl
        exact hleak hin

/-! ## Success -/

theorem Consistent.link (hc : fs.Consistent) (hk : IsFile k) (hnew : ¬ fs.Live k)
    (hm : fs'.Mounted fun j => fs.Live j ∨ j = k) (hs : fs'.Synced)
    (hopen : fs'.openInodes = fs.openInodes) (hfiles : fs'.files = fs.files)
    (hinode : fs'.device.inodeAt rootDirSector = fs.device.inodeAt rootDirSector) {i : Nat}
    (hi : i < fs.device.slots rootDirSector)
    (hfree : DirEntry.inUse (fs.device.slot rootDirSector i) = false)
    (huse : DirEntry.inUse (fs'.device.slot rootDirSector i) = true)
    (hsector : DirEntry.inodeSector (fs'.device.slot rootDirSector i) = k)
    (hothers : ∀ {j}, j < fs.device.slots rootDirSector → j ≠ i →
      SameEntry (fs'.device.slot rootDirSector j) (fs.device.slot rootDirSector j)) :
    fs'.Consistent ∧ ∀ j, fs'.Live j ↔ fs.Live j ∨ j = k := by
  have hslots : fs'.device.slots rootDirSector = fs.device.slots rootDirSector := by
    unfold Block.slots
    rw [hinode]
  -- the entries are the new one and the old ones
  have hentry : ∀ {j}, j < fs'.device.slots rootDirSector →
      inUse (fs'.device.slot rootDirSector j) = true →
      j = i ∨ j < fs.device.slots rootDirSector ∧
        inUse (fs.device.slot rootDirSector j) = true ∧
        inodeSector (fs'.device.slot rootDirSector j) =
          inodeSector (fs.device.slot rootDirSector j) := by
    intro j hj hjuse
    rw [hslots] at hj
    by_cases hji : j = i
    · exact .inl hji
    · rw [(hothers hj hji).inUse] at hjuse
      exact .inr ⟨hj, hjuse, (hothers hj hji).inodeSector⟩
  have hnamed : ∀ j, fs'.Named j ↔ fs.Named j ∨ j = k := by
    intro j
    constructor
    · rintro ⟨a, ha, hause, rfl⟩
      rcases hentry ha hause with rfl | ⟨ha, hause, heq⟩
      · exact .inr hsector
      · exact .inl ⟨a, ha, hause, heq.symm⟩
    · rintro (⟨a, ha, hause, rfl⟩ | rfl)
      · have hai : a ≠ i := by
          rintro rfl
          rw [hfree] at hause
          cases hause
        exact ⟨a, hslots.symm ▸ ha, (hothers ha hai).inUse.trans hause, (hothers ha hai).inodeSector⟩
      · exact ⟨i, hslots.symm ▸ hi, huse, hsector⟩
  have hlive : ∀ j, fs'.Live j ↔ fs.Live j ∨ j = k := by
    intro j
    unfold Live
    rw [hnamed, hopen]
    tauto
  have hopenNe : ∀ {j ip}, fs.openInodes j = some ip → j ≠ k := by
    rintro j ip hj rfl
    exact hnew (hc.mounted.cached hj).1
  -- an old entry does not name the new inode
  have hold : ∀ {a}, a < fs.device.slots rootDirSector →
      inUse (fs.device.slot rootDirSector a) = true →
      inodeSector (fs.device.slot rootDirSector a) ≠ k := by
    intro a ha hause heq
    exact hnew (.inr (.inr (.inl ⟨a, ha, hause, heq⟩)))
  refine ⟨⟨hm.congr hlive, hs, ?_, ?_, ?_, ?_, ?_, ?_, ?_, ?_⟩, hlive⟩
  · rw [hinode]
    exact hc.rootLength
  · rw [hopen]
    exact hc.rootClosed
  · intro j hj
    rcases (hnamed j).mp hj with hj | rfl
    · exact hc.entryFile hj
    · exact hk
  · intro a b ha hb hause hbuse heq
    rcases hentry ha hause with rfl | ⟨ha, hause, hasector⟩
    · rcases hentry hb hbuse with rfl | ⟨hb, hbuse, hbsector⟩
      · rfl
      · exact absurd ((hbsector.symm.trans heq.symm).trans hsector) (hold hb hbuse)
    · rcases hentry hb hbuse with rfl | ⟨hb, hbuse, hbsector⟩
      · exact absurd ((hasector.symm.trans heq).trans hsector) (hold ha hause)
      · exact hc.entryUnique ha hb hause hbuse ((hasector.symm.trans heq).trans hbsector)
  · intro j ip hj hfile
    rw [hopen] at hj
    rw [hnamed, or_iff_left (hopenNe hj)]
    exact hc.removed hj hfile
  · rw [hopen]
    unfold handles
    rw [hfiles]
    exact hc.openCnt
  · rw [hopen]
    unfold denials
    rw [hfiles]
    exact hc.denyCnt
  · unfold handles
    rw [hopen, hfiles]
    exact hc.handle

/-! ## The operation -/

theorem SameRoot.canAdd (hr : fs.SameRoot fs') {name : List UInt8} :
    CanAdd fs'.device rootDirSector name ↔ CanAdd fs.device rootDirSector name := by
  have hlists : ∀ {i}, i < fs.device.slots rootDirSector →
      (fs'.device.Lists rootDirSector name i ↔ fs.device.Lists rootDirSector name i) := by
    intro i hi
    simp only [Block.lists_iff]
    rw [(hr.2 i hi).inUse, (hr.2 i hi).name]
  constructor
  · rintro ⟨hne, hshort, hnew, i, hi, hfree⟩
    rw [hr.slots] at hnew hi
    refine ⟨hne, hshort, fun j hj => (hlists hj).not.mp (hnew j hj), i, hi, ?_⟩
    rw [← (hr.2 i hi).inUse]
    exact hfree
  · rintro ⟨hne, hshort, hnew, i, hi, hfree⟩
    refine ⟨hne, hshort, ?_, i, hr.slots.symm ▸ hi, (hr.2 i hi).inUse.trans hfree⟩
    rw [hr.slots]
    exact fun j hj => (hlists hj).not.mpr (hnew j hj)

/-! The ways through `filesys_create`. -/

theorem create_eq_full (hopen : fs.dirOpenRoot = some fs₀)
    (halloc : fs₀.freeMapAllocate 1 = some (none, fs₁)) (hclose : fs₁.dirClose = some fs') :
    fs.create name n = some (false, fs') := by
  simp [Filesys.create, hopen, halloc, hclose]

section

variable (hk : k ≠ 0) (hopen : fs.dirOpenRoot = some fs₀)
  (halloc : fs₀.freeMapAllocate 1 = some (some k, fs₁))
include hk hopen halloc

theorem create_eq_noInode (hcreate : fs₁.inodeCreate k n = some (false, fs₂))
    (hrelease : fs₂.freeMapRelease k 1 = some fs₃) (hclose : fs₃.dirClose = some fs') :
    fs.create name n = some (false, fs') := by
  simp [Filesys.create, hopen, halloc, hcreate, hk, hrelease, hclose]

theorem create_eq_noEntry {fs₄ : Filesys} (hcreate : fs₁.inodeCreate k n = some (true, fs₂))
    (hadd : fs₂.dirAdd .all rootDirSector name k = some (false, fs₃))
    (hrelease : fs₃.freeMapRelease k 1 = some fs₄) (hclose : fs₄.dirClose = some fs') :
    fs.create name n = some (false, fs') := by
  simp [Filesys.create, hopen, halloc, hcreate, hadd, hk, hrelease, hclose]

end

theorem create_eq_done
    (hopen : fs.dirOpenRoot = some fs₀) (halloc : fs₀.freeMapAllocate 1 = some (some k, fs₁))
    (hcreate : fs₁.inodeCreate k n = some (true, fs₂))
    (hadd : fs₂.dirAdd .all rootDirSector name k = some (true, fs₃))
    (hclose : fs₃.dirClose = some fs') : fs.create name n = some (true, fs') := by
  simp [Filesys.create, hopen, halloc, hcreate, hadd, hclose]

/-- The inode of a new file has been made in sector `k`, with its data from `start` on. Only the free map
and free sectors have changed. -/
structure Prepared (fs fs₂ : Filesys) (k start n : Nat) : Prop where
  fits : k + 1 ≤ fs.freeMap.bitCnt
  clear : bitmapTest fs.freeMap k = false
  leaked : ∀ {s}, InGroup start (bytesToSectors n) s → s ≠ k ∧ bitmapTest fs.freeMap s = false
  bits : ∀ s, bitmapTest fs₂.freeMap s = true ↔
    bitmapTest fs.freeMap s = true ∨ s = k ∨ InGroup start (bytesToSectors n) s
  device : fs.device.SameBut fs₂.device fs.Scratch
  memory : fs.withRoot.SameMemory fs₂

theorem Consistent.prepared (hc : fs.Consistent) {n start : Nat}
    (halloc : fs.withRoot.Allocated fs₁ fs.Live k 1)
    (hcreated : fs₁.Created fs₂ fs.Live k start n) : fs.Prepared fs₂ k start n := by
  have hclear : bitmapTest fs.freeMap k = false := halloc.clear ⟨Nat.le_refl k, Nat.lt_succ_self k⟩
  have hbits₁ : ∀ s, bitmapTest fs₁.freeMap s = true ↔ s = k ∨ bitmapTest fs.freeMap s = true := by
    intro s
    have hone : InGroup k 1 s ↔ s = k := by
      unfold InGroup
      omega
    rw [halloc.bits, Bool.or_eq_true, decide_eq_true_iff, hone]
    exact Iff.rfl
  have hleaked : ∀ {s}, InGroup start (bytesToSectors n) s →
      s ≠ k ∧ bitmapTest fs.freeMap s = false := by
    intro s hs
    have hoff := (hbits₁ s).not.mp (Bool.eq_false_iff.mp (hcreated.clear hs))
    rw [not_or] at hoff
    exact ⟨hoff.1, Bool.eq_false_iff.mpr hoff.2⟩
  refine ⟨halloc.fits, hclear, hleaked, fun s => ?_, ?_, ?_⟩
  · rw [hcreated.bits, Bool.or_eq_true, decide_eq_true_iff, hbits₁]
    tauto
  · have hmap : fs₁.device.inodeAt freeMapSector = fs.device.inodeAt freeMapSector :=
      halloc.device.inodeAt (hc.mounted.notHeader fs.live_map fs.live_map)
    refine (halloc.device.trans hcreated.device).mono ?_
    rintro s (hin | hin | rfl | hin)
    · exact .inl hin
    · refine .inl ?_
      unfold dataOf at hin ⊢
      rw [← hmap]
      exact hin
    · exact .inr hclear
    · exact .inr (hleaked hin).2
  · exact ⟨hcreated.memory.openInodes.trans halloc.memory.openInodes,
      hcreated.memory.freeMapFile.trans halloc.memory.freeMapFile,
      hcreated.memory.files.trans halloc.memory.files,
      hcreated.memory.bitCnt.trans halloc.memory.bitCnt⟩

namespace Prepared

variable {fs₂ : Filesys} {start n : Nat}

section

variable (hp : fs.Prepared fs₂ k start n)
include hp

theorem isNew (hc : fs.Consistent) : ¬ fs.Live k :=
  fun hk => hc.mounted.unowned hp.clear (j := .header k) ⟨hk, rfl⟩

theorem isFile (hc : fs.Consistent) : IsFile k := by
  have hnew := hp.isNew hc
  constructor
  · rintro rfl
    exact hnew fs.live_map
  · rintro rfl
    exact hnew fs.live_root

theorem sameRoot (hc : fs.Consistent) : fs.SameRoot fs₂ :=
  sameRoot_of_sameBut hc.mounted fs.live_root hp.device (hc.mounted.header_kept fs.live_root)
    (hc.mounted.data_kept fs.live_root (by decide))

theorem rootOpen : fs₂.openInodes rootDirSector = some fs.rootInode := by
  rw [hp.memory.openInodes]
  exact fs.withRoot_root

theorem undo (hc : fs.Consistent) (hm : fs₂.Mounted fun j => fs.Live j ∨ j = k) {d : Block}
    (hd : fs₂.device.SameBut d fun _ => False) :
    ∃ fs₄ fs', freeMapRelease { fs₂ with device := d } k 1 = some fs₄ ∧
      fs₄.dirClose = some fs' ∧ fs.Undone fs' (InGroup start (bytesToSectors n)) := by
  have hm : Mounted { fs₂ with device := d } fs.Live := by
    refine (hm.frame hd fun _ => id).restrict .inl fs.live_map ?_
    intro j ip hj
    have hj : fs.withRoot.openInodes j = some ip := by
      rw [← hp.memory.openInodes]
      exact hj
    exact (hc.mountedRoot.cached hj).1
  have hdevice : fs.device.SameBut d fs.Scratch := by
    refine (hp.device.trans hd).mono ?_
    rintro s (hin | hin)
    · exact hin
    · exact hin.elim
  have hmemory : fs.withRoot.SameMemory { fs₂ with device := d } :=
    ⟨hp.memory.openInodes, hp.memory.freeMapFile, hp.memory.files, hp.memory.bitCnt⟩
  exact hc.undo hm hmemory hdevice hp.fits hp.clear (fun hin => (hp.leaked hin).1 rfl)
    (fun hin => (hp.leaked hin).2) hp.bits

end

end Prepared

theorem Prepared.linked {fs₂ : Filesys} {name : Name} {start n i : Nat} {d : Block} {e : Nat → UInt8}
    (hp : fs.Prepared fs₂ k start n) (hc : fs.Consistent)
    (hcreated : fs₁.Created fs₂ fs.Live k start n) (hi : i < fs₂.device.slots rootDirSector)
    (hfree : DirEntry.inUse (fs₂.device.slot rootDirSector i) = false)
    (hwritten : fs₂.SlotWritten { fs₂ with device := d } (fun j => fs.Live j ∨ j = k)
      rootDirSector i e) (huse : DirEntry.inUse e = true) (hename : DirEntry.name e = name.1)
    (hsector : DirEntry.inodeSector e = k % 4294967296) :
    fs.Keeps (Filesys.setInode { fs₂ with device := d } rootDirSector none) ∧
      fs.Linked (Filesys.setInode { fs₂ with device := d } rootDirSector none) name k n := by
  have hroot := hp.sameRoot hc
  have hsector : inodeSector (d.slot rootDirSector i) = k := by
    have hfits := hp.fits
    have hsize : fs.freeMap.bitCnt = fs.device.size := hc.mounted.laid.size
    have hlt := hc.mounted.sizeLt
    rw [hwritten.slot.inodeSector, hsector, Nat.mod_eq_of_lt (by omega)]
  have hroot₃ : d.inodeAt rootDirSector = fs.device.inodeAt rootDirSector := by
    rw [← hroot.1]
    exact hwritten.device.inodeAt (hcreated.mounted.notHeader (.inl fs.live_root) (.inl fs.live_root))
  have hsynced : Synced { fs₂ with device := d } :=
    .frame hcreated.mounted hcreated.synced hwritten.device
      (hcreated.mounted.notHeader (.inl fs.live_root) (.inl fs.live_map))
      (hcreated.mounted.data_disjoint (.inl fs.live_map) (.inl fs.live_root) (by decide))
  have hothers : ∀ {j}, j < fs.device.slots rootDirSector → j ≠ i →
      SameEntry (d.slot rootDirSector j) (fs.device.slot rootDirSector j) :=
    fun hj hji o ho => (hwritten.others hji o ho).trans (hroot.2 _ hj o ho)
  rw [hroot.slots] at hi
  rw [(hroot.2 i hi).inUse] at hfree
  have hclosed : (Filesys.setInode { fs₂ with device := d } rootDirSector none).openInodes =
      fs.openInodes := hc.closedRoot hp.memory.openInodes
  obtain ⟨hc', hlive⟩ := hc.link (hp.isFile hc) (hp.isNew hc) hwritten.mounted.closeRoot hsynced
    hclosed hp.memory.files hroot₃ hi hfree (hwritten.slot.inUse.trans huse) hsector hothers
  have hinode : d.inodeAt k = ⟨start, n⟩ := by
    rw [← hcreated.inode]
    exact hwritten.device.inodeAt (hcreated.mounted.notHeader (.inl fs.live_root) (.inr rfl))
  refine ⟨?_, hp.isNew hc, hclosed, congrArg Inode.length hinode, hroot₃, i, hi, hfree,
    ⟨hwritten.slot.inUse.trans huse, hwritten.slot.name.trans hename⟩, hsector,
    fun j hj hji => hothers hj hji⟩
  refine hc.effect hc' (hp.device.trans hwritten.device) ?_ (.of_eq hp.memory.files) ?_ ?_
  · rintro s (hin | hin)
    · exact .inl hin
    · refine .inr ?_
      unfold dataOf at hin ⊢
      rw [← hroot.1]
      exact hin
  · intro s hset hclear
    have hclear : bitmapTest fs₂.freeMap s = false := hclear
    rw [(hp.bits s).mpr (.inl hset)] at hclear
    cases hclear
  · intro j s hj hgone
    exact absurd ((hlive j).mpr (.inl hj)) hgone

theorem Consistent.addName (hc : fs.Consistent) (name : Name) {n start : Nat} {fs₂ : Filesys}
    (halloc : fs.withRoot.Allocated fs₁ fs.Live k 1)
    (hcreated : fs₁.Created fs₂ fs.Live k start n) :
    (∃ fs₃ fs₄ fs', fs₂.dirAdd .all rootDirSector name k = some (false, fs₃) ∧
      fs₃.freeMapRelease k 1 = some fs₄ ∧ fs₄.dirClose = some fs' ∧
      ¬ CanAdd fs.device rootDirSector name.1 ∧
      fs.Undone fs' (InGroup start (bytesToSectors n))) ∨
    ∃ fs₃ fs', fs₂.dirAdd .all rootDirSector name k = some (true, fs₃) ∧
      fs₃.dirClose = some fs' ∧ CanAdd fs.device rootDirSector name.1 ∧
      fs.Keeps fs' ∧ fs'.freeMap = fs₂.freeMap ∧ fs.Linked fs' name k n := by
  have hp := hc.prepared halloc hcreated
  have hroot := hp.sameRoot hc
  have hlen : (fs₂.device.inodeAt rootDirSector).length % 20 = 0 := by
    rw [hroot.1]
    exact hc.rootLength
  rcases hcreated.mounted.dirAdd hp.rootOpen rfl hlen name k with
    ⟨d, hcannot, hd, hadd⟩ | ⟨i, d, e, hcan, hi, hfree, hadd, hwritten, huse, hename, hsector⟩
  · obtain ⟨fs₄, fs', hrelease, hclose, hundone⟩ := hp.undo hc hcreated.mounted hd
    exact .inl ⟨_, fs₄, fs', hadd, hrelease, hclose, hroot.canAdd.not.mp hcannot, hundone⟩
  · obtain ⟨hkeeps, hlinked⟩ := hp.linked hc hcreated hi hfree hwritten huse hename hsector
    exact .inr ⟨_, _, hadd, closeRoot hp.rootOpen, hroot.canAdd.mp hcan, hkeeps, rfl, hlinked⟩

/-- `filesys_create` succeeds if there is room on the disk and in the directory. If there is none in the
directory it leaks the sectors of the data. -/
theorem Consistent.create (hc : fs.Consistent) (name : Name) {n : Nat} (hn : n < 2147483648) :
    (∃ fs' leaked, fs.create name n = some (false, fs') ∧ fs.Undone fs' leaked ∧
      (¬ fs.HasRoom n ∧ (∀ s, ¬ leaked s) ∨
        fs.HasRoom n ∧ ¬ CanAdd fs.device rootDirSector name.1 ∧
          ∃ start, leaked = InGroup start (bytesToSectors n))) ∨
    ∃ fs' k, fs.create name n = some (true, fs') ∧ fs.HasRoom n ∧
      CanAdd fs.device rootDirSector name.1 ∧ fs.Keeps fs' ∧
      takeSectors fs.freeMap n = some fs'.freeMap ∧ fs.Linked fs' name k n := by
  have hopen := hc.openRoot
  rcases hc.mountedRoot.freeMapAllocate 1 with ⟨hscan, hnone⟩ | ⟨k, fs₁, hscan, hsome, halloc⟩
  · have hscan : bitmapScan fs.freeMap 0 1 false = none := hscan
    refine .inl ⟨fs, _, create_eq_full hopen hnone hc.withRoot_close, hc.undone_refl, .inl ⟨?_, fun _ => id⟩⟩
    · rintro ⟨k, hk, -⟩
      rw [hscan] at hk
      cases hk
  · have hscan : bitmapScan fs.freeMap 0 1 false = some k := hscan
    have hclear : bitmapTest fs.freeMap k = false := halloc.clear ⟨Nat.le_refl k, Nat.lt_succ_self k⟩
    have hk : k ≠ 0 := by
      rintro rfl
      exact hc.mounted.unowned hclear (j := .header 0) ⟨fs.live_map, rfl⟩
    have hroom : fs.HasRoom n ↔
        (bitmapScan fs₁.freeMap 0 (bytesToSectors n) false).isSome = true := by
      rw [halloc.map]
      constructor
      · rintro ⟨j, hj, hsome⟩
        rw [hscan] at hj
        cases hj
        exact hsome
      · exact fun hsome => ⟨k, hscan, hsome⟩
    have hone : ∀ {s}, InGroup k 1 s ↔ s = k := by
      intro s
      unfold InGroup
      omega
    have hbits : ∀ s, bitmapTest fs₁.freeMap s = true ↔
        bitmapTest fs.freeMap s = true ∨ s = k ∨ False := by
      intro s
      rw [halloc.bits, Bool.or_eq_true, decide_eq_true_iff, hone, or_false, or_comm]
      exact Iff.rfl
    have hused : fs₁.freeMap.used k := by
      refine ⟨?_, (hbits k).mpr (.inr (.inl rfl))⟩
      rw [halloc.memory.bitCnt]
      exact halloc.fits
    have hheads : ∀ {j}, fs.Live j → ¬ fs.withRoot.dataOf freeMapSector j :=
      fun hj => hc.mounted.notHeader fs.live_map hj
    have hfree : ∀ {j}, ¬ fs₁.device.owns fs.Live j k := by
      intro j
      rw [halloc.device.owns hheads]
      exact hc.mounted.unowned hclear
    rcases halloc.mounted.inodeCreate hn hused hfree with
      ⟨hnoroom, hcreate⟩ | ⟨start, fs₂, hscan₂, hcreate, hcreated⟩
    · obtain ⟨fs₂, fs', hrelease, hclose, hundone⟩ := hc.undo halloc.mounted halloc.memory
        (halloc.device.mono .inl) halloc.fits hclear id False.elim hbits
      refine .inl ⟨fs', _, create_eq_noInode hk hopen hsome hcreate hrelease hclose, hundone,
        .inl ⟨?_, fun _ => id⟩⟩
      rw [hroom, hnoroom]
      exact Bool.false_ne_true
    · have hroom : fs.HasRoom n := by
        rw [hroom, hscan₂]
        rfl
      rcases hc.addName name halloc hcreated with
        ⟨fs₃, fs₄, fs', hadd, hrelease, hclose, hcannot, hundone⟩ |
          ⟨fs₃, fs', hadd, hclose, hcan, he, hmap, hlinked⟩
      · exact .inl ⟨fs', _, create_eq_noEntry hk hopen hsome hcreate hadd hrelease hclose, hundone,
          .inr ⟨hroom, hcannot, start, rfl⟩⟩
      · refine .inr ⟨fs', k, create_eq_done hopen hsome hcreate hadd hclose, hroom, hcan, he, ?_, hlinked⟩
        have hmap₁ : fs₁.freeMap = bitmapSetMultiple fs.freeMap k 1 true := halloc.map
        rw [hmap₁] at hscan₂
        rw [takeSectors, takeGroup_eq hscan, Option.bind_some, takeGroup_eq hscan₂, hmap, hcreated.map,
          hmap₁]

end Filesys

end Pintos
