import Pintos.Filesys.Denial

/-!
# The calls on a directory

What `dir_add` and `dir_remove` do to the slots of a directory, for every pattern of bounce buffers that
can be had, in the free map's writes too.
-/

namespace Pintos

open Lib Function Option DirEntry

/-! ## Entries -/

namespace Inode

variable {dir : Inode} {d d' : Block} {name : List UInt8} {i j s : Nat}

/-- The entry in slot `i`, if it is in use: its name and the sector of the inode. -/
def entry (dir : Inode) (d : Block) (i : Nat) : Option (List UInt8 × Nat) :=
  if DirEntry.inUse (dir.slot d i) then
    some (DirEntry.name (dir.slot d i), DirEntry.inodeSector (dir.slot d i))
  else none

/-- The entries in use. -/
def entries (dir : Inode) (d : Block) : List (List UInt8 × Nat) :=
  (List.range dir.slots).filterMap (dir.entry d)

/-- All slots are the same on two disks. -/
def SameSlots (dir : Inode) (d d' : Block) : Prop :=
  ∀ i < dir.slots, SameEntry (dir.slot d' i) (dir.slot d i)

theorem SameSlots.refl (dir : Inode) (d : Block) : dir.SameSlots d d := fun _ _ _ _ => rfl

theorem SameSlots.trans {d₁ : Block} (h : dir.SameSlots d d₁) (h' : dir.SameSlots d₁ d') :
    dir.SameSlots d d' := fun i hi o ho => (h' i hi o ho).trans (h i hi o ho)

theorem entry_congr (h : SameEntry (dir.slot d' i) (dir.slot d i)) :
    dir.entry d' i = dir.entry d i := by
  unfold entry
  rw [h.inUse, h.name, h.inodeSector]

theorem SameSlots.entries (h : dir.SameSlots d d') : dir.entries d' = dir.entries d := by
  unfold Inode.entries
  refine List.filterMap_congr fun i hi => entry_congr (h i (List.mem_range.mp hi))

theorem entry_eq_none : dir.entry d i = none ↔ DirEntry.inUse (dir.slot d i) = false := by
  unfold entry
  cases inUse (dir.slot d i) <;> simp

theorem entry_eq_some : dir.entry d i = some (name, s) ↔
    dir.Lists d name i ∧ DirEntry.inodeSector (dir.slot d i) = s := by
  unfold entry Lists
  cases inUse (dir.slot d i) <;> simp

/-- A sector of the file. -/
def Covers (inode : Inode) (s : Nat) : Prop := inode.start ≤ s ∧ s < inode.start + inode.sectors

/-- The two files share no sector. -/
def Apart (inode inode' : Inode) : Prop := ∀ s, inode.Covers s → ¬ inode'.Covers s

theorem sameSlots_of_sectors (h : ∀ s o, dir.Covers s → o < 512 → d'.data s o = d.data s o) :
    dir.SameSlots d d' := by
  intro i hi o ho
  unfold slots at hi
  refine h _ _ ⟨Nat.le_add_right .., ?_⟩ (Nat.mod_lt _ (by omega))
  unfold sectors
  omega

/-- `lookup` has not found the name: it has come to a slot that it could not read, or to the end. -/
def Missed (dir : Inode) (d : Block) (malloc : Nat → Bool) (name : List UInt8) : Prop :=
  ∃ c ≤ dir.slots, (c < dir.slots → malloc c = false) ∧ ∀ a < c, ¬ dir.Lists d name a

/-- The search of `dir_add` stops at slot `j`, which is free or cannot be read, or the end. -/
structure StopsAt (dir : Inode) (d : Block) (malloc : Nat → Bool) (j : Nat) : Prop where
  le : j ≤ dir.slots
  before : ∀ a < j, malloc a = true ∧ DirEntry.inUse (dir.slot d a) = true
  stop : j < dir.slots → malloc j = false ∨ DirEntry.inUse (dir.slot d j) = false

/-! ## Names -/

/-- At most one entry in use has a given name. -/
def Distinct (dir : Inode) (d : Block) : Prop :=
  ∀ ⦃i j name⦄, i < dir.slots → j < dir.slots → dir.Lists d name i → dir.Lists d name j → i = j

/-- Some entry in use has the name. -/
def Present (dir : Inode) (d : Block) (name : List UInt8) : Prop :=
  ∃ i < dir.slots, dir.Lists d name i

theorem lists_congr (h : SameEntry (dir.slot d' i) (dir.slot d i)) :
    dir.Lists d' name i ↔ dir.Lists d name i := by
  unfold Lists
  rw [h.inUse, h.name]

theorem Distinct.sameSlots (h : dir.Distinct d) (hsame : dir.SameSlots d d') : dir.Distinct d' := by
  intro i j name hi hj hli hlj
  exact h hi hj ((lists_congr (hsame i hi)).mp hli) ((lists_congr (hsame j hj)).mp hlj)

theorem not_lists_of_entry (h : dir.entry d i = none) : ¬ dir.Lists d name i := by
  rintro ⟨huse, -⟩
  rw [entry_eq_none.mp h] at huse
  cases huse

/-- All slots but `j` are as they were. -/
def SameBut (dir : Inode) (d d' : Block) (j : Nat) : Prop :=
  ∀ i < dir.slots, i ≠ j → SameEntry (dir.slot d' i) (dir.slot d i)

theorem Distinct.add (h : dir.Distinct d) (hnew : ¬ dir.Present d name)
    (hsame : dir.SameBut d d' j) (hname : DirEntry.name (dir.slot d' j) = name) :
    dir.Distinct d' := by
  have hother : ∀ {a other}, a < dir.slots → a ≠ j → dir.Lists d' other a → other ≠ name := by
    rintro a other ha hne hl rfl
    exact hnew ⟨a, ha, (lists_congr (hsame a ha hne)).mp hl⟩
  intro a b other ha hb hla hlb
  by_cases haj : a = j
  · subst haj
    by_contra hab
    exact hother hb (fun heq => hab heq.symm) hlb (hla.2.symm.trans hname)
  · by_cases hbj : b = j
    · subst hbj
      exact absurd (hlb.2.symm.trans hname) (hother ha haj hla)
    · exact h ha hb ((lists_congr (hsame a ha haj)).mp hla) ((lists_congr (hsame b hb hbj)).mp hlb)

theorem Distinct.erase (h : dir.Distinct d) (hsame : dir.SameBut d d' j)
    (hnone : dir.entry d' j = none) : dir.Distinct d' := by
  have hold : ∀ {a other}, a < dir.slots → dir.Lists d' other a → dir.Lists d other a := by
    intro a other ha hl
    refine (lists_congr (hsame a ha ?_)).mp hl
    rintro rfl
    exact not_lists_of_entry hnone hl
  intro a b other ha hb hla hlb
  exact h ha hb (hold ha hla) (hold hb hlb)

end Inode

namespace Filesys

/-- What the calls on the directory `dir`, which is inode `k`, rest on. The free map is written when a
file is removed, so it must lie elsewhere. -/
structure DirReady (fs : Filesys) (k : Nat) (dir : Inode) : Prop extends Opens fs k dir where
  allowed : ∀ {ip}, fs.openInodes k = some ip → ip.denyWriteCnt = 0
  counts : ∀ {j ip}, fs.openInodes j = some ip → 0 < ip.openCnt
  map : ∀ {file}, fs.freeMapFile = some file → ∃ ip, fs.openInodes file.inode = some ip ∧
    ip.data.OnDevice fs.device ∧ dir.Apart ip.data

variable {fs fs' fs₁ : Filesys} {k s : Nat} {dir : Inode} {ip ip₁ : OpenInode} {name : Name}
  {malloc : Mallocs}

/-! ## What the calls do beside writing the slot -/

section

variable (h : fs.DirReady k dir)
include h

theorem DirReady.congr (hsize : fs'.device.size = fs.device.size)
    (hfile : fs'.freeMapFile = fs.freeMapFile)
    (hopen : ∀ {j ip}, fs.openInodes j = some ip → ∃ ip', fs'.openInodes j = some ip' ∧
      ip'.data = ip.data ∧ ip'.denyWriteCnt = ip.denyWriteCnt)
    (hcounts : ∀ {j ip}, fs'.openInodes j = some ip → 0 < ip.openCnt) : fs'.DirReady k dir where
  size := hsize ▸ h.size
  onDevice := ⟨h.onDevice.length, hsize ▸ h.onDevice.extent⟩
  inode := by
    obtain ⟨ip, hip, hdata⟩ := h.inode
    obtain ⟨ip', hip', hdata', -⟩ := hopen hip
    exact ⟨ip', hip', hdata'.trans hdata⟩
  allowed {ip'} hip' := by
    obtain ⟨ip, hip, -⟩ := h.inode
    obtain ⟨ip'', hip'', -, hdeny⟩ := hopen hip
    rw [hip'] at hip''
    cases hip''
    exact hdeny.trans (h.allowed hip)
  counts := hcounts
  map {file} hf := by
    rw [hfile] at hf
    obtain ⟨ip, hip, hdev, hapart⟩ := h.map hf
    obtain ⟨ip', hip', hdata, -⟩ := hopen hip
    rw [← hdata] at hdev hapart
    exact ⟨ip', hip', ⟨hdev.length, hsize ▸ hdev.extent⟩, hapart⟩

theorem DirReady.setDevice {d : Block} (hsize : d.size = fs.device.size) :
    DirReady { fs with device := d } k dir :=
  h.congr hsize rfl (fun hip => ⟨_, hip, rfl, rfl⟩) h.counts

theorem DirReady.bitmapWrite (malloc : Bool) {file : File} (hfile : fs.freeMapFile = some file) :
    ∃ r d, fs.bitmapWriteWith malloc file = some (r, { fs with device := d }) ∧
      d.size = fs.device.size ∧ dir.SameSlots fs.device d := by
  obtain ⟨ip, hip, hdev, hapart⟩ := h.map hfile
  by_cases hdeny : ip.denyWriteCnt = 0
  · obtain ⟨n, d, hd, hn, hwrote⟩ := @writeAt_short fs.device ip.data 0 0 (bitmapBytes fs.freeMap)
      (byteCnt fs.freeMap.bitCnt) malloc hdev h.size
    refine ⟨decide (n = byteCnt fs.freeMap.bitCnt), d, ?_, hwrote.size,
      Inode.sameSlots_of_sectors fun s o hs ho => hwrote.other ?_ ho⟩
    · simp [bitmapWriteWith, Filesys.inodeWriteAt, hip, hdeny, hd]
    · have hout := hapart s hs
      unfold Inode.Covers Inode.sectors at hout
      unfold sliceLength at hn
      omega
  · refine ⟨decide (0 = byteCnt fs.freeMap.bitCnt), fs.device, ?_, rfl, .refl dir _⟩
    simp [bitmapWriteWith, Filesys.inodeWriteAt, hip, hdeny]

theorem DirReady.freeMapRelease (malloc : Bool) {file : File} (hfile : fs.freeMapFile = some file)
    {sector cnt : Nat}
    (hbits : sector + cnt ≤ fs.freeMap.bitCnt ∧ bitmapAll fs.freeMap sector cnt = true) :
    ∃ d, fs.freeMapReleaseWith malloc sector cnt =
        some { fs with device := d, freeMap := bitmapSetMultiple fs.freeMap sector cnt false } ∧
      d.size = fs.device.size ∧ dir.SameSlots fs.device d := by
  have h₁ : DirReady { fs with freeMap := bitmapSetMultiple fs.freeMap sector cnt false } k dir :=
    h.congr rfl rfl (fun hip => ⟨_, hip, rfl, rfl⟩) h.counts
  obtain ⟨r, d, hwrite, hsize, hsame⟩ := h₁.bitmapWrite malloc hfile
  refine ⟨d, ?_, hsize, hsame⟩
  unfold freeMapReleaseWith
  rw [if_pos hbits]
  exact bind_eq_some_iff.mpr ⟨file, hfile, bind_eq_some_iff.mpr ⟨_, hwrite, rfl⟩⟩

theorem DirReady.freeMapRelease_same {malloc : Bool} {sector cnt : Nat}
    (hrelease : fs.freeMapReleaseWith malloc sector cnt = some fs') :
    fs'.DirReady k dir ∧ dir.SameSlots fs.device fs'.device := by
  by_cases hbits : sector + cnt ≤ fs.freeMap.bitCnt ∧ bitmapAll fs.freeMap sector cnt = true
  · cases hfile : fs.freeMapFile with
    | none =>
      unfold freeMapReleaseWith at hrelease
      rw [if_pos hbits] at hrelease
      simp [hfile] at hrelease
    | some file =>
      obtain ⟨d, heq, hsize, hsame⟩ := h.freeMapRelease malloc hfile hbits
      rw [heq] at hrelease
      cases hrelease
      exact ⟨h.congr hsize rfl (fun hip => ⟨_, hip, rfl, rfl⟩) h.counts, hsame⟩
  · unfold freeMapReleaseWith at hrelease
    rw [if_neg hbits] at hrelease
    cases hrelease

end

/-- The inode `s` was opened once more before: `ip₁` is what has become of it. -/
structure OpenedAs (fs : Filesys) (s : Nat) (ip₁ : OpenInode) : Prop where
  old : ∀ {ip}, fs.openInodes s = some ip →
    ip₁.openCnt = ip.openCnt + 1 ∧ ip₁.data = ip.data ∧ ip₁.denyWriteCnt = ip.denyWriteCnt
  new : fs.openInodes s = none → ip₁.openCnt = 1

theorem DirReady.inodeOpen (h : fs.DirReady k dir) (hopen : fs.inodeOpen s = some fs₁) :
    ∃ ip₁, fs₁ = fs.setInode s (some ip₁) ∧ fs.OpenedAs s ip₁ ∧ fs₁.DirReady k dir := by
  have hready : ∀ {ip₁}, fs.OpenedAs s ip₁ → (fs.setInode s (some ip₁)).DirReady k dir := by
    intro ip₁ has
    refine h.congr rfl rfl (fun {j ip} hip => ?_) fun {j ip} hip => ?_
    · by_cases hj : j = s
      · subst hj
        obtain ⟨-, hdata, hdeny⟩ := has.old hip
        exact ⟨ip₁, setInode_self, hdata, hdeny⟩
      · exact ⟨ip, (setInode_ne hj).trans hip, rfl, rfl⟩
    · by_cases hj : j = s
      · subst hj
        rw [setInode_self] at hip
        cases hip
        cases hold : fs.openInodes j with
        | some ip =>
          have hcnt := (has.old hold).1
          omega
        | none =>
          have hcnt := has.new hold
          omega
      · rw [setInode_ne hj] at hip
        exact h.counts hip
  unfold Filesys.inodeOpen at hopen
  split at hopen
  · next ip hip =>
    cases hopen
    have has : fs.OpenedAs s { ip with openCnt := ip.openCnt + 1 } := by
      refine ⟨fun {ip'} hip' => ?_, fun hnone => ?_⟩
      · rw [hip] at hip'
        cases hip'
        exact ⟨rfl, rfl, rfl⟩
      · rw [hip] at hnone
        cases hnone
    exact ⟨_, rfl, has, hready has⟩
  · next hnone =>
    simp only [bind_eq_bind, bind_eq_some_iff] at hopen
    obtain ⟨m, -, heq⟩ := hopen
    cases heq
    have has : fs.OpenedAs s ⟨1, false, 0, .ofHeader m⟩ := by
      refine ⟨fun {ip'} hip' => ?_, fun _ => rfl⟩
      rw [hnone] at hip'
      cases hip'
    exact ⟨_, rfl, has, hready has⟩

theorem DirReady.inodeClose {release : Bool × Bool} (h : fs.DirReady k dir) (has : fs.OpenedAs s ip₁)
    (hclose : fs₁.inodeCloseWith release s = some fs')
    (hopen : fs₁.openInodes = update fs.openInodes s (some ip₁))
    (hfile : fs₁.freeMapFile = fs.freeMapFile) (hsize : fs₁.device.size = fs.device.size) :
    fs'.DirReady k dir ∧ dir.SameSlots fs₁.device fs'.device := by
  have hip : fs₁.openInodes s = some ip₁ := by
    rw [hopen, update_self]
  simp only [inodeCloseWith, hip, bind_eq_bind, bind_some] at hclose
  cases hold : fs.openInodes s with
  | some ip =>
    obtain ⟨hcnt, hdata, hdeny⟩ := has.old hold
    have hpos := h.counts hold
    rw [if_neg (by omega)] at hclose
    cases hclose
    refine ⟨h.congr hsize hfile (fun {j ip'} hj => ?_) fun {j ip'} hj => ?_, .refl dir _⟩
    · by_cases hjs : j = s
      · subst hjs
        rw [hold] at hj
        cases hj
        exact ⟨_, setInode_self, hdata, hdeny⟩
      · refine ⟨ip', ?_, rfl, rfl⟩
        rw [setInode_ne hjs, hopen, update_of_ne hjs, hj]
    · by_cases hjs : j = s
      · subst hjs
        rw [setInode_self] at hj
        cases hj
        show 0 < ip₁.openCnt - 1
        omega
      · rw [setInode_ne hjs, hopen, update_of_ne hjs] at hj
        exact h.counts hj
  | none =>
    -- it was not open before, so neither the directory nor the free map is this inode
    have hback : (fs₁.setInode s none).openInodes = fs.openInodes := by
      show update fs₁.openInodes s none = _
      rw [hopen, update_idem, ← hold, update_eq_self]
    have hready : (fs₁.setInode s none).DirReady k dir :=
      h.congr hsize hfile (fun hj => ⟨_, by rw [hback]; exact hj, rfl, rfl⟩)
        (fun hj => h.counts (by rw [hback] at hj; exact hj))
    rw [if_pos (has.new hold)] at hclose
    split at hclose
    · simp only [bind_eq_some_iff] at hclose
      obtain ⟨fs₂, hrelease, hrelease'⟩ := hclose
      obtain ⟨hready₂, hsame₂⟩ := hready.freeMapRelease_same hrelease
      obtain ⟨hready', hsame'⟩ := hready₂.freeMapRelease_same hrelease'
      exact ⟨hready', hsame₂.trans hsame'⟩
    · cases hclose
      exact ⟨hready, .refl dir _⟩

/-! ## Adding -/

/-- What `dir_add` may have done. -/
inductive Added (fs : Filesys) (k : Nat) (dir : Inode) (malloc : Mallocs) (name : Name)
    (sector : Nat) : Bool → Filesys → Prop
  | badName : name.1 = [] ∨ nameMax < name.1.length → Added fs k dir malloc name sector false fs
  | found {j : Nat} : j < dir.slots → (∀ a ≤ j, malloc.lookup a = true) →
      dir.Lists fs.device name.1 j → Added fs k dir malloc name sector false fs
  /-- There is no slot, or no buffer to write it. -/
  | full {j : Nat} {d : Block} : name.1 ≠ [] → name.1.length ≤ nameMax →
      dir.Missed fs.device malloc.lookup name.1 → dir.StopsAt fs.device malloc.slot j →
      ¬ (malloc.store = true ∧ j < dir.slots) → dir.SameSlots fs.device d →
      Added fs k dir malloc name sector false { fs with device := d }
  | stored {j : Nat} {d : Block} : name.1 ≠ [] → name.1.length ≤ nameMax →
      dir.Missed fs.device malloc.lookup name.1 → dir.StopsAt fs.device malloc.slot j →
      malloc.store = true → j < dir.slots → dir.entry d j = some (name.1, sector % 4294967296) →
      (∀ i < dir.slots, i ≠ j → SameEntry (dir.slot d i) (dir.slot fs.device i)) →
      Added fs k dir malloc name sector true { fs with device := d }

theorem DirReady.dirAdd (h : fs.DirReady k dir) (malloc : Mallocs) (name : Name) (sector : Nat) :
    ∃ r fs', fs.dirAdd malloc k name sector = some (r, fs') ∧ fs'.DirReady k dir ∧
      fs.Added k dir malloc name sector r fs' := by
  by_cases hbad : name.1 = [] ∨ nameMax < name.1.length
  · exact ⟨false, fs, by simp only [Filesys.dirAdd, if_pos hbad], h, .badName hbad⟩
  have hgood := hbad
  rw [not_or, Nat.not_lt] at hgood
  rcases h.lookup malloc.lookup name.1 with
    ⟨j, e, hj, hread, hlists, -, hfound⟩ | ⟨c, hc, hcut, hnone, hmissed⟩
  · refine ⟨false, fs, ?_, h, .found hj (fun a ha => (hread a ha).1) hlists⟩
    simp only [Filesys.dirAdd, if_neg hbad, hfound, bind_eq_bind, bind_some]
    rfl
  obtain ⟨j, e, hj, hbefore, hstop, hslot⟩ := h.freeSlot malloc.slot
  obtain ⟨n, d, hwrite, hn, hsize, hnew, hothers⟩ :=
    h.writeSlot (fun _ hip => h.allowed hip) malloc.store
      ((setName (setInUse e true) name.1).setWord 0 sector) j
  have hadd : fs.dirAdd malloc k name sector = some (decide (n = 20), { fs with device := d }) := by
    simp only [Filesys.dirAdd, if_neg hbad, hmissed, hslot, hwrite, bind_eq_bind, bind_some]
    rfl
  refine ⟨_, _, hadd, h.setDevice hsize, ?_⟩
  have hmissed : dir.Missed fs.device malloc.lookup name.1 := ⟨c, hc, hcut, hnone⟩
  have hstops : dir.StopsAt fs.device malloc.slot j := ⟨hj, hbefore, hstop⟩
  by_cases hall : n = 20
  · rw [decide_eq_true hall]
    obtain ⟨hstore, hlt⟩ := hn.mp hall
    refine .stored hgood.1 hgood.2 hmissed hstops hstore hlt ?_ fun i hi hne => hothers i hi fun _ => hne
    obtain ⟨huse, hname, hsector⟩ := newEntry_fields e name hgood.2 sector
    have hentry := hnew hall
    rw [Inode.entry_eq_some]
    exact ⟨⟨hentry.inUse.trans huse, hentry.name.trans hname⟩, hentry.inodeSector.trans hsector⟩
  · rw [decide_eq_false hall]
    exact .full hgood.1 hgood.2 hmissed hstops (fun hin => hall (hn.mpr hin)) fun i hi =>
      hothers i hi fun h20 => absurd h20 hall

/-! ## Removing -/

/-- What `dir_remove` may have done. -/
inductive Removed (fs : Filesys) (dir : Inode) (malloc : Mallocs) (name : Name) :
    Bool → Filesys → Prop
  | missed : dir.Missed fs.device malloc.lookup name.1 → Removed fs dir malloc name false fs
  /-- There is no buffer to write the slot. -/
  | kept {j : Nat} {fs' : Filesys} : j < dir.slots → dir.Lists fs.device name.1 j →
      malloc.store = false → dir.SameSlots fs.device fs'.device → Removed fs dir malloc name false fs'
  | erased {j : Nat} {fs' : Filesys} : j < dir.slots → dir.Lists fs.device name.1 j →
      malloc.store = true → dir.entry fs'.device j = none →
      (∀ i < dir.slots, i ≠ j → SameEntry (dir.slot fs'.device i) (dir.slot fs.device i)) →
      Removed fs dir malloc name true fs'

theorem inUse_setInUse (e : Mem) (inUse : Bool) :
    DirEntry.inUse (DirEntry.setInUse e inUse) = inUse := by
  unfold DirEntry.inUse DirEntry.setInUse
  rw [Mem.write_in (by omega) (by omega)]
  cases inUse <;> rfl

theorem DirReady.dirRemove (h : fs.DirReady k dir) {release : Bool × Bool} {r : Bool}
    (hremove : fs.dirRemoveWith malloc release k name = some (r, fs')) :
    fs'.DirReady k dir ∧ fs.Removed dir malloc name r fs' := by
  rcases h.lookup malloc.lookup name.1 with
    ⟨j, e, hj, hread, hlists, hsame, hfound⟩ | ⟨c, hc, hcut, hnone, hmissed⟩
  swap
  · simp only [dirRemoveWith, hmissed, bind_eq_bind, bind_some] at hremove
    cases hremove
    exact ⟨h, .missed ⟨c, hc, hcut, hnone⟩⟩
  simp only [dirRemoveWith, hfound, bind_eq_bind, bind_some, bind_eq_some_iff]
    at hremove
  obtain ⟨fs₁, hopen, hremove⟩ := hremove
  obtain ⟨ip₁, rfl, has, h₁⟩ := h.inodeOpen hopen
  obtain ⟨n, d, hwrite, hn, hsize, hnew, hothers⟩ :=
    h₁.writeSlot (fun _ hip => h₁.allowed hip) malloc.store (setInUse e false) j
  simp only [hwrite, Option.some.injEq, exists_eq_left'] at hremove
  by_cases hall : n = 20
  · obtain ⟨hstore, -⟩ := hn.mp hall
    rw [if_pos hall] at hremove
    simp only [Filesys.inodeRemove, bind_eq_bind, bind_eq_some_iff] at hremove
    obtain ⟨fs₂, ⟨ip₂, hip₂, heq⟩, fs₃, hclose, heq'⟩ := hremove
    have hip₂ : (fs.setInode (inodeSector e) (some ip₁)).openInodes _ = some ip₂ := hip₂
    rw [setInode_self] at hip₂
    cases hip₂
    cases heq
    cases heq'
    have has' : fs.OpenedAs (inodeSector e) { ip₁ with removed := true } :=
      ⟨fun hip => has.old hip, fun hnone => has.new hnone⟩
    obtain ⟨hready, hkept⟩ := h.inodeClose has' hclose (update_idem ..) rfl hsize
    refine ⟨hready, .erased hj hlists hstore ?_ fun i hi hne => ?_⟩
    · rw [Inode.entry_congr (hkept j hj), Inode.entry_eq_none]
      exact (hnew hall).inUse.trans (inUse_setInUse e false)
    · exact fun o ho => (hkept i hi o ho).trans (hothers i hi (fun _ => hne) o ho)
  · rw [if_neg hall] at hremove
    simp only [bind_eq_some_iff] at hremove
    obtain ⟨fs₃, hclose, heq⟩ := hremove
    cases heq
    obtain ⟨hready, hkept⟩ := h.inodeClose has hclose rfl rfl hsize
    refine ⟨hready, .kept hj hlists ?_ fun i hi o ho => ?_⟩
    · exact Bool.eq_false_iff.mpr fun hstore => hall (hn.mpr ⟨hstore, hj⟩)
    · exact (hkept i hi o ho).trans (hothers i hi (fun h20 => absurd h20 hall) o ho)

/-! ## When `dir_remove` returns -/

/-- `dir_remove` can remove inode `s`: it is on the disk, and it is open or its sectors are marked in
the free map. -/
structure Removable (fs : Filesys) (s : Nat) : Prop where
  header : s < fs.device.size
  marked : fs.openInodes s = none → fs.freeMapFile.isSome = true ∧
    s < fs.freeMap.bitCnt ∧ bitmapTest fs.freeMap s = true ∧
    (fs.device.inodeAt s).start + bytesToSectors (fs.device.inodeAt s).length ≤ fs.freeMap.bitCnt ∧
    ∀ i < bytesToSectors (fs.device.inodeAt s).length, (fs.device.inodeAt s).start + i ≠ s ∧
      bitmapTest fs.freeMap ((fs.device.inodeAt s).start + i) = true

theorem bitmapAll_iff {b : Bitmap} {start cnt : Nat} :
    bitmapAll b start cnt = true ↔ ∀ i < cnt, bitmapTest b (start + i) = true := by
  unfold bitmapAll
  rw [Bool.not_eq_true', bitmapContains_eq_false, Bool.not_false]

theorem inodeCloseWith_last {fs₂ : Filesys} {release : Bool × Bool}
    (hip : fs.openInodes s = some ip) (hcnt : ip.openCnt = 1) (hremoved : ip.removed = true)
    (hheader : (fs.setInode s none).freeMapReleaseWith release.1 s 1 = some fs₂)
    (hdata : fs₂.freeMapReleaseWith release.2 ip.data.start (bytesToSectors ip.data.length) =
      some fs') : fs.inodeCloseWith release s = some fs' := by
  unfold inodeCloseWith
  rw [hip, bind_eq_bind, bind_some, if_pos hcnt]
  simp only
  rw [if_pos hremoved, hheader, bind_eq_bind, bind_some, hdata]

theorem DirReady.inodeClose_removed (h : fs.DirReady k dir) (hs : fs.Removable s)
    (hnone : fs.openInodes s = none) (release : Bool × Bool)
    (hopen : fs₁.openInodes = update fs.openInodes s (some ip₁))
    (hcnt : ip₁.openCnt = 1) (hremoved : ip₁.removed = true) (hinode : ip₁.data = fs.device.inodeAt s)
    (hfile : fs₁.freeMapFile = fs.freeMapFile) (hmap : fs₁.freeMap = fs.freeMap)
    (hsize : fs₁.device.size = fs.device.size) :
    (fs₁.inodeCloseWith release s).isSome = true := by
  obtain ⟨hsome, hlt, hbit, hdata, hbits⟩ := hs.marked hnone
  obtain ⟨file, hf⟩ := isSome_iff_exists.mp hsome
  have hback : (fs₁.setInode s none).openInodes = fs.openInodes := by
    show update fs₁.openInodes s none = _
    rw [hopen, update_idem, ← hnone, update_eq_self]
  have hready : (fs₁.setInode s none).DirReady k dir :=
    h.congr hsize hfile (fun hj => ⟨_, by rw [hback]; exact hj, rfl, rfl⟩)
      (fun hj => h.counts (by rw [hback] at hj; exact hj))
  have hfile₁ : (fs₁.setInode s none).freeMapFile = some file := hfile.trans hf
  have hmap₁ : (fs₁.setInode s none).freeMap = fs.freeMap := hmap
  have hbits₁ : s + 1 ≤ (fs₁.setInode s none).freeMap.bitCnt ∧
      bitmapAll (fs₁.setInode s none).freeMap s 1 = true := by
    rw [hmap₁, bitmapAll_iff]
    refine ⟨hlt, fun i hi => ?_⟩
    rw [Nat.lt_one_iff.mp hi]
    exact hbit
  obtain ⟨d, hrelease, -⟩ := hready.freeMapRelease release.1 hfile₁ hbits₁
  generalize hfs₂ : ({ fs₁.setInode s none with
    device := d, freeMap := bitmapSetMultiple (fs₁.setInode s none).freeMap s 1 false } : Filesys) = fs₂
    at hrelease
  have hmap₂ : fs₂.freeMap = bitmapSetMultiple fs.freeMap s 1 false := by
    rw [← hfs₂, ← hmap₁]
  have hfile₂ : fs₂.freeMapFile = some file := by
    rw [← hfs₂]
    exact hfile₁
  have hbits₂ : (fs.device.inodeAt s).start + bytesToSectors (fs.device.inodeAt s).length ≤
      fs₂.freeMap.bitCnt ∧ bitmapAll fs₂.freeMap (fs.device.inodeAt s).start
        (bytesToSectors (fs.device.inodeAt s).length) = true := by
    rw [hmap₂, bitmapAll_iff, bitmapSetMultiple_bitCnt]
    refine ⟨hdata, fun i hi => ?_⟩
    -- the sector that has just been released is not among these
    obtain ⟨hne, hset⟩ := hbits i hi
    rw [bitmapTest_setMultiple, if_neg (by omega)]
    exact hset
  obtain ⟨d', hrelease', -⟩ :=
    (hready.freeMapRelease_same hrelease).1.freeMapRelease release.2 hfile₂ hbits₂
  have hip : fs₁.openInodes s = some ip₁ := by
    rw [hopen, update_self]
  rw [← hinode] at hrelease'
  exact isSome_iff_exists.mpr ⟨_, inodeCloseWith_last hip hcnt hremoved hrelease hrelease'⟩

theorem DirReady.inodeClose_returns (h : fs.DirReady k dir) (hs : fs.Removable s)
    (has : fs.OpenedAs s ip₁) (hinode : fs.openInodes s = none → ip₁.data = fs.device.inodeAt s)
    (release : Bool × Bool)
    (hopen : fs₁.openInodes = update fs.openInodes s (some ip₁))
    (hfile : fs₁.freeMapFile = fs.freeMapFile) (hmap : fs₁.freeMap = fs.freeMap)
    (hsize : fs₁.device.size = fs.device.size) :
    (fs₁.inodeCloseWith release s).isSome = true := by
  have hip : fs₁.openInodes s = some ip₁ := by
    rw [hopen, update_self]
  cases hold : fs.openInodes s with
  | some ip =>
    have hcnt := (has.old hold).1
    have hpos := h.counts hold
    have hmore : ¬ ip₁.openCnt = 1 := by omega
    simp [inodeCloseWith, hip, hmore]
  | none =>
    cases hremoved : ip₁.removed with
    | false => simp [inodeCloseWith, hip, has.new hold, hremoved]
    | true =>
      exact h.inodeClose_removed hs hold release hopen (has.new hold) hremoved (hinode hold) hfile
        hmap hsize

theorem inodeRemove_eq (hip : fs.openInodes s = some ip) :
    fs.inodeRemove s = some (fs.setInode s (some { ip with removed := true })) := by
  simp [Filesys.inodeRemove, hip]

theorem DirReady.dirRemove_returns (h : fs.DirReady k dir) (malloc : Mallocs) (release : Bool × Bool)
    {name : Name} (hs : ∀ j < dir.slots, dir.Lists fs.device name.1 j →
      fs.Removable (DirEntry.inodeSector (dir.slot fs.device j))) :
    (fs.dirRemoveWith malloc release k name).isSome = true := by
  rcases h.lookup malloc.lookup name.1 with
    ⟨j, e, hj, -, hlists, hsame, hfound⟩ | ⟨c, hc, hcut, hnone, hmissed⟩
  swap
  · simp [dirRemoveWith, hmissed]
  have hs := hs j hj hlists
  rw [← hsame.inodeSector] at hs
  have hopen := inodeOpen_eq hs.header
  obtain ⟨ip₁, heq, has, h₁⟩ := h.inodeOpen hopen
  have hip₁ : fs.reopened (inodeSector e) = ip₁ := by
    have hself := congrArg (fun fs => fs.openInodes (inodeSector e)) heq
    simp only [setInode_self, Option.some.injEq] at hself
    exact hself
  have hinode : fs.openInodes (inodeSector e) = none →
      ip₁.data = fs.device.inodeAt (inodeSector e) := by
    intro hnone
    rw [← hip₁]
    unfold reopened
    rw [hnone]
  rw [hip₁] at hopen h₁
  obtain ⟨n, d, hwrite, -, hsize, -⟩ :=
    h₁.writeSlot (fun _ hip => h₁.allowed hip) malloc.store (setInUse e false) j
  -- the state in which the inode is closed again
  obtain ⟨fs₂, hwrite, hopen₂, hfile₂, hmap₂, hsize₂⟩ : ∃ fs₂, inodeWriteAt _ malloc.store k
      (setInUse e false) 0 20 (20 * j) = some (n, fs₂) ∧
      fs₂.openInodes = update fs.openInodes (inodeSector e) (some ip₁) ∧
      fs₂.freeMapFile = fs.freeMapFile ∧ fs₂.freeMap = fs.freeMap ∧
      fs₂.device.size = fs.device.size := ⟨_, hwrite, rfl, rfl, rfl, hsize⟩
  simp only [dirRemoveWith, hfound, hopen, hwrite, bind_eq_bind, bind_some]
  by_cases hall : n = 20
  · have hip₂ : fs₂.openInodes (inodeSector e) = some ip₁ := by
      rw [hopen₂, update_self]
    have has' : fs.OpenedAs (inodeSector e) { ip₁ with removed := true } :=
      ⟨fun hip => has.old hip, fun hnone => has.new hnone⟩
    have hopen₃ : (fs₂.setInode (inodeSector e)
        (some { ip₁ with removed := true })).openInodes = update fs.openInodes
          (inodeSector e) (some { ip₁ with removed := true }) := by
      unfold setInode
      rw [hopen₂, update_idem]
    obtain ⟨fs', hclose⟩ := isSome_iff_exists.mp
      (h.inodeClose_returns hs has' hinode release hopen₃ hfile₂ hmap₂ hsize₂)
    rw [if_pos hall, inodeRemove_eq hip₂, bind_some, hclose]
    rfl
  · obtain ⟨fs', hclose⟩ := isSome_iff_exists.mp
      (h.inodeClose_returns hs has hinode release hopen₂ hfile₂ hmap₂ hsize₂)
    rw [if_neg hall, hclose]
    rfl

end Filesys

end Pintos
