import Pintos.Filesys.Slots
import Pintos.Lib.Permits

/-!
# Consistent file systems

Between the operations the inodes that are live are those of the free map and the root directory, those
that the root directory names and those that are open. `Consistent` says that they are laid out well,
that each entry in use names an inode of its own, and that the counts of an open inode are right.
-/

namespace Pintos

open Lib

/-- An open file on inode `k`. -/
def File.on (k : Nat) (file : Option File) : Bool := file.any fun f => f.inode = k

/-- An open file that denies writes to inode `k`. -/
def File.denies (k : Nat) (file : Option File) : Bool := file.any fun f => f.inode = k && f.denyWrite

namespace Filesys

/-- An entry in use of the root directory names inode `k`. -/
def Named (fs : Filesys) (k : Nat) : Prop :=
  ∃ i < fs.device.slots rootDirSector, DirEntry.inUse (fs.device.slot rootDirSector i) = true ∧
    DirEntry.inodeSector (fs.device.slot rootDirSector i) = k

/-- The inodes that have their sectors. -/
def Live (fs : Filesys) (k : Nat) : Prop :=
  k = freeMapSector ∨ k = rootDirSector ∨ fs.Named k ∨ (fs.openInodes k).isSome = true

/-- The number of open files on inode `k`. -/
def handles (fs : Filesys) (k : Nat) : Nat := fs.files.countP (File.on k)

/-- The number of those that deny writes to it. -/
def denials (fs : Filesys) (k : Nat) : Nat := fs.files.countP (File.denies k)

/-- The inode of a file, not of the free map or the root directory. -/
def IsFile (k : Nat) : Prop := k ≠ freeMapSector ∧ k ≠ rootDirSector

structure Consistent (fs : Filesys) : Prop where
  mounted : fs.Mounted fs.Live
  synced : fs.Synced
  rootLength : (fs.device.inodeAt rootDirSector).length % 20 = 0
  rootClosed : fs.openInodes rootDirSector = none
  /-- An entry names the inode of a file, and is the only one that names it. -/
  entryFile : ∀ {k}, fs.Named k → IsFile k
  entryUnique : ∀ {i j}, i < fs.device.slots rootDirSector → j < fs.device.slots rootDirSector →
    DirEntry.inUse (fs.device.slot rootDirSector i) = true →
    DirEntry.inUse (fs.device.slot rootDirSector j) = true →
    DirEntry.inodeSector (fs.device.slot rootDirSector i) =
      DirEntry.inodeSector (fs.device.slot rootDirSector j) → i = j
  removed : ∀ {k ip}, fs.openInodes k = some ip → IsFile k → (ip.removed = true ↔ ¬ fs.Named k)
  openCnt : ∀ {k ip}, fs.openInodes k = some ip → IsFile k → ip.openCnt = fs.handles k ∧ 0 < ip.openCnt
  denyCnt : ∀ {k ip}, fs.openInodes k = some ip → IsFile k → ip.denyWriteCnt = fs.denials k
  handle : ∀ {k}, 0 < fs.handles k → IsFile k ∧ (fs.openInodes k).isSome = true

/-! ## What an operation does to the files -/

/-- The open files stay on their inodes and go on denying writes, but for those in `closes`. -/
def SameFiles (fs fs' : Filesys) (closes : Nat → Prop) : Prop :=
  ∀ h file, fs.file h = some file → ¬ closes h → ∃ file', fs'.file h = some file' ∧
    file'.inode = file.inode ∧ (file.denyWrite = true → file'.denyWrite = true)

/-- The operation has kept the file system consistent. The inodes of files stay, and the sectors of their
data but for those of the inodes in `writes`. The sectors that have been released are those of the inodes
that are not live any more. -/
structure Effect (fs fs' : Filesys) (writes closes : Nat → Prop) : Prop where
  consistent : fs'.Consistent
  inode : ∀ {k}, IsFile k → fs.Live k → fs'.device.inodeAt k = fs.device.inodeAt k
  data : ∀ {k s o}, IsFile k → fs.Live k → ¬ writes k → fs.dataOf k s → o < 512 →
    fs'.device.data s o = fs.device.data s o
  files : fs.SameFiles fs' closes
  freed : ∀ {s}, bitmapTest fs.freeMap s = true → bitmapTest fs'.freeMap s = false →
    ∃ k, fs.Live k ∧ ¬ fs'.Live k ∧ (s = k ∨ fs.dataOf k s)
  gone : ∀ {k s}, fs.Live k → ¬ fs'.Live k → s = k ∨ fs.dataOf k s →
    bitmapTest fs'.freeMap s = false

/-- An operation that writes no file and closes none. -/
abbrev Keeps (fs fs' : Filesys) : Prop := fs.Effect fs' (fun _ => False) fun _ => False

section

variable {fs fs' : Filesys} {live live' : Nat → Prop} {k h : Nat} {file : File} {ip : OpenInode}

theorem Mounted.congr (hm : fs.Mounted live) (h : ∀ k, live' k ↔ live k) : fs.Mounted live' := by
  have heq : live' = live := funext fun k => propext (h k)
  rw [heq]
  exact hm

theorem live_map (fs : Filesys) : fs.Live freeMapSector := .inl rfl

theorem live_root (fs : Filesys) : fs.Live rootDirSector := .inr (.inl rfl)

theorem Live.named_or_open (hk : fs.Live k) (hfile : IsFile k) :
    fs.Named k ∨ (fs.openInodes k).isSome = true := by
  rcases hk with rfl | rfl | hk
  · exact absurd rfl hfile.1
  · exact absurd rfl hfile.2
  · exact hk

theorem file_eq_some : fs.file h = some file ↔ fs.files[h]? = some (some file) := by
  unfold Filesys.file
  rw [List.getD_eq_getElem?_getD]
  cases fs.files[h]? with
  | none => exact iff_of_false nofun nofun
  | some f => simp

theorem Consistent.inode (hc : fs.Consistent) (hfile : fs.files[h]? = some (some file)) :
    ∃ ip, fs.openInodes file.inode = some ip ∧ IsFile file.inode := by
  have hpos : 0 < fs.handles file.inode :=
    List.countP_pos_iff.mpr ⟨_, List.mem_of_getElem? hfile, decide_eq_true rfl⟩
  obtain ⟨hf, hopen⟩ := hc.handle hpos
  obtain ⟨ip, hip⟩ := Option.isSome_iff_exists.mp hopen
  exact ⟨ip, hip, hf⟩

/-- The slots of the root directory are the same. -/
def SameRoot (fs fs' : Filesys) : Prop :=
  fs'.device.inodeAt rootDirSector = fs.device.inodeAt rootDirSector ∧
    ∀ i < fs.device.slots rootDirSector,
      SameEntry (fs'.device.slot rootDirSector i) (fs.device.slot rootDirSector i)

theorem SameRoot.slots (hr : fs.SameRoot fs') :
    fs'.device.slots rootDirSector = fs.device.slots rootDirSector := by
  unfold Block.slots
  rw [hr.1]

theorem SameRoot.named (hr : fs.SameRoot fs') : fs'.Named k ↔ fs.Named k := by
  unfold Named
  rw [hr.slots]
  refine exists_congr fun i => and_congr_right fun hi => ?_
  rw [(hr.2 i hi).inUse, (hr.2 i hi).inodeSector]

theorem sameRoot_of_sameBut {S : Nat → Prop} (hc : fs.Mounted live) (hroot : live rootDirSector)
    (hd : fs.device.SameBut fs'.device S) (hhead : ¬ S rootDirSector)
    (hS : ∀ {s}, fs.dataOf rootDirSector s → ¬ S s) : fs.SameRoot fs' := by
  have hinode := hd.inodeAt hhead
  refine ⟨hinode, fun i hi o ho => ?_⟩
  unfold Block.slot
  rw [hinode]
  refine hc.sameBytes hd hroot hS ?_
  unfold Block.slots Inode.slots at hi
  omega

theorem Consistent.transfer (hc : fs.Consistent) (hm : fs'.Mounted fs'.Live) (hs : fs'.Synced)
    (hopen : fs'.openInodes = fs.openInodes) (hfiles : fs'.files = fs.files)
    (hr : fs.SameRoot fs') : fs'.Consistent where
  mounted := hm
  synced := hs
  rootLength := by
    rw [hr.1]
    exact hc.rootLength
  rootClosed := by
    rw [hopen]
    exact hc.rootClosed
  entryFile hk := hc.entryFile (hr.named.mp hk)
  entryUnique {i j} hi hj := by
    rw [hr.slots] at hi hj
    rw [(hr.2 i hi).inUse, (hr.2 j hj).inUse, (hr.2 i hi).inodeSector, (hr.2 j hj).inodeSector]
    exact hc.entryUnique hi hj
  removed := by
    rw [hopen]
    intro k ip hk hfile
    rw [hr.named]
    exact hc.removed hk hfile
  openCnt := by
    rw [hopen]
    unfold handles
    rw [hfiles]
    exact hc.openCnt
  denyCnt := by
    rw [hopen]
    unfold denials
    rw [hfiles]
    exact hc.denyCnt
  handle := by
    unfold handles
    rw [hopen, hfiles]
    exact hc.handle

/-! ## Changes of the free map -/

theorem Mounted.data_disjoint (hm : fs.Mounted live) {j s : Nat} (hj : live j) (hk : live k)
    (hne : j ≠ k) (hs : fs.dataOf j s) : ¬ fs.dataOf k s := by
  intro hs'
  have howns : fs.device.owns live (.data j) s := ⟨hj, hs⟩
  have howns' : fs.device.owns live (.data k) s := ⟨hk, hs'⟩
  have heq := hm.laid.owned.excl howns howns'
  cases heq
  exact hne rfl

/-- The sectors that operations write beside files and directories: those of the free map and free
ones. -/
def Scratch (fs : Filesys) (s : Nat) : Prop :=
  fs.dataOf freeMapSector s ∨ bitmapTest fs.freeMap s = false

theorem Mounted.header_kept (hm : fs.Mounted live) (hk : live k) : ¬ fs.Scratch k := by
  rintro (hin | hclear)
  · exact hm.notHeader hm.mapLive hk hin
  · exact hm.unowned hclear (j := .header k) ⟨hk, rfl⟩

theorem Mounted.data_kept (hm : fs.Mounted live) {s : Nat} (hk : live k) (hne : k ≠ freeMapSector)
    (hs : fs.dataOf k s) : ¬ fs.Scratch s := by
  rintro (hin | hclear)
  · exact hm.data_disjoint hk hm.mapLive hne hs hin
  · exact hm.unowned hclear (j := .data k) ⟨hk, hs⟩

theorem Consistent.remapped (hc : fs.Consistent) (hm : fs'.Mounted fs.Live) (hs : fs'.Synced)
    (hopen : fs'.openInodes = fs.openInodes) (hfiles : fs'.files = fs.files)
    (hd : fs.device.SameBut fs'.device (fs.dataOf freeMapSector)) :
    fs'.Consistent ∧ ∀ j, fs'.Live j ↔ fs.Live j := by
  have hr : fs.SameRoot fs' :=
    sameRoot_of_sameBut hc.mounted fs.live_root hd (hc.mounted.notHeader fs.live_map fs.live_root)
      (hc.mounted.data_disjoint fs.live_root fs.live_map (by decide))
  have hlive : ∀ j, fs'.Live j ↔ fs.Live j := by
    intro j
    unfold Live
    rw [hr.named, hopen]
  exact ⟨hc.transfer (hm.congr hlive) hs hopen hfiles hr, hlive⟩

theorem Mounted.setFiles (hm : fs.Mounted live) (files : List (Option File)) :
    Mounted { fs with files } live :=
  ⟨hm.laid, hm.tidy, hm.mapLive, hm.mapLength, hm.mapOpen, hm.mapFile, hm.cached⟩

/-! ## Changes of one inode and of the files -/

/-- The files on the other inodes stay. -/
def SameElsewhere (fs : Filesys) (files : List (Option File)) (k : Nat) : Prop :=
  ∀ j, j ≠ k → files.countP (File.on j) = fs.handles j ∧ files.countP (File.denies j) = fs.denials j

/-- What inode `k` may become: open with the right counts, or closed if no file is on it. -/
def Fits (fs : Filesys) (files : List (Option File)) (k : Nat) : Option OpenInode → Prop
  | some ip => ip.data = fs.device.inodeAt k ∧ (ip.removed = true ↔ ¬ fs.Named k) ∧
      ip.openCnt = files.countP (File.on k) ∧ 0 < ip.openCnt ∧
      ip.denyWriteCnt = files.countP (File.denies k)
  | none => files.countP (File.on k) = 0

/-- A live inode is opened, closed or changed. It is not live any more if it is closed and not
named. -/
theorem Consistent.setInode (hc : fs.Consistent) {files : List (Option File)}
    {ip? : Option OpenInode} (hk : IsFile k) (hlive : fs.Live k) (hfits : fs.Fits files k ip?)
    (hother : fs.SameElsewhere files k) :
    Consistent { fs.setInode k ip? with files } ∧
      ∀ j, Live { fs.setInode k ip? with files } j ↔
        fs.Live j ∧ (j = k → fs.Named k ∨ ip?.isSome = true) := by
  have hsame : ∀ j, Live { fs.setInode k ip? with files } j ↔
      fs.Live j ∧ (j = k → fs.Named k ∨ ip?.isSome = true) := by
    intro j
    by_cases hj : j = k
    · subst hj
      unfold Live
      rw [setInode_self]
      constructor
      · rintro (h0 | h1 | h)
        · exact absurd h0 hk.1
        · exact absurd h1 hk.2
        · exact ⟨hlive, fun _ => h⟩
      · rintro ⟨-, h⟩
        exact .inr (.inr (h rfl))
    · unfold Live
      rw [setInode_ne hj]
      exact ⟨fun h => ⟨h, fun heq => absurd heq hj⟩, And.left⟩
  -- the inode itself, or another one
  have hip : ∀ {j ip'}, (fs.setInode k ip?).openInodes j = some ip' →
      j = k ∧ ip? = some ip' ∨ j ≠ k ∧ fs.openInodes j = some ip' := by
    intro j ip' h
    by_cases hj : j = k
    · subst hj
      rw [setInode_self] at h
      exact .inl ⟨rfl, h⟩
    · rw [setInode_ne hj] at h
      exact .inr ⟨hj, h⟩
  have hmounted : (fs.setInode k ip?).Mounted fun j =>
      fs.Live j ∧ (j = k → fs.Named k ∨ ip?.isSome = true) := by
    cases ip? with
    | none =>
      exact hc.mounted.closeInode hk.1 And.left fun hj hne => ⟨hj, fun heq => absurd heq hne⟩
    | some ip =>
      have hopen : (fs.setInode k (some ip)).Mounted fs.Live :=
        hc.mounted.setInode hlive hfits.1 fun h0 => absurd h0 hk.1
      exact hopen.congr fun j => and_iff_left fun _ => .inr rfl
  refine ⟨⟨(hmounted.setFiles files).congr hsame, hc.synced, hc.rootLength, ?_, hc.entryFile,
    hc.entryUnique, ?_, ?_, ?_, ?_⟩, hsame⟩
  · exact (setInode_ne hk.2.symm).trans hc.rootClosed
  · intro j ip' h hj
    rcases hip h with ⟨rfl, rfl⟩ | ⟨-, h⟩
    · exact hfits.2.1
    · exact hc.removed h hj
  · intro j ip' h hj
    rcases hip h with ⟨rfl, rfl⟩ | ⟨hne, h⟩
    · exact ⟨hfits.2.2.1, hfits.2.2.2.1⟩
    · obtain ⟨hcnt, hpos⟩ := hc.openCnt h hj
      exact ⟨hcnt.trans (hother j hne).1.symm, hpos⟩
  · intro j ip' h hj
    rcases hip h with ⟨rfl, rfl⟩ | ⟨hne, h⟩
    · exact hfits.2.2.2.2
    · exact (hc.denyCnt h hj).trans (hother j hne).2.symm
  · intro j hj
    have hj : 0 < files.countP (File.on j) := hj
    by_cases hjk : j = k
    · subst hjk
      refine ⟨hk, ?_⟩
      cases ip? with
      | none => exact absurd hfits (Nat.ne_of_gt hj)
      | some ip => rw [setInode_self]; rfl
    · rw [(hother j hjk).1] at hj
      obtain ⟨hfile, hopen⟩ := hc.handle hj
      exact ⟨hfile, by rw [setInode_ne hjk]; exact hopen⟩

end

end Filesys

end Pintos
