import Pintos.Filesys.FileOps

/-!
# The operations on names

`filesys_create`, `filesys_open` and `filesys_remove` open the root directory, work on it and close it.
They keep the file system consistent and do not panic.
-/

namespace Pintos

open Lib Function DirEntry

namespace Filesys

variable {fs fs' : Filesys} {k : Nat} {ip : OpenInode}

/-! ## The root directory -/

/-- The root directory while an operation works on it. -/
def rootInode (fs : Filesys) : OpenInode := ⟨1, false, 0, fs.device.inodeAt rootDirSector⟩

/-- The file system with the root directory open. -/
def withRoot (fs : Filesys) : Filesys := fs.setInode rootDirSector (some fs.rootInode)

theorem withRoot_root (fs : Filesys) : fs.withRoot.openInodes rootDirSector = some fs.rootInode :=
  setInode_self

theorem Consistent.openRoot (hc : fs.Consistent) : fs.dirOpenRoot = some fs.withRoot := by
  have hopen := hc.mounted.inodeOpen fs.live_root
  unfold reopened at hopen
  rw [hc.rootClosed] at hopen
  exact hopen

theorem Consistent.mountedRoot (hc : fs.Consistent) : fs.withRoot.Mounted fs.Live :=
  hc.mounted.setInode fs.live_root rfl fun h => by cases h

theorem closeRoot (hroot : fs'.openInodes rootDirSector = some fs.rootInode) :
    fs'.dirClose = some (fs'.setInode rootDirSector none) :=
  inodeClose_last hroot rfl rfl

theorem Consistent.closedRoot (hc : fs.Consistent) (hopen : fs'.openInodes = fs.withRoot.openInodes) :
    (fs'.setInode rootDirSector none).openInodes = fs.openInodes := by
  show update fs'.openInodes rootDirSector none = fs.openInodes
  rw [hopen]
  show update (update fs.openInodes rootDirSector _) rootDirSector none = _
  rw [update_idem, ← hc.rootClosed, update_eq_self]

theorem Consistent.withRoot_close (hc : fs.Consistent) : fs.withRoot.dirClose = some fs := by
  have hsame : (fs.withRoot.setInode rootDirSector none).openInodes = fs.openInodes :=
    hc.closedRoot rfl
  rw [closeRoot fs.withRoot_root]
  show some ({ fs with openInodes := (fs.withRoot.setInode rootDirSector none).openInodes } : Filesys) =
    some fs
  rw [hsame]

theorem setRoot_set_close (hclosed : fs.openInodes rootDirSector = none) (hk : k ≠ rootDirSector)
    (root ip? : Option OpenInode) :
    ((fs.setInode rootDirSector root).setInode k ip?).setInode rootDirSector none =
      fs.setInode k ip? := by
  unfold setInode
  simp only
  rw [update_comm hk.symm, update_idem, update_comm hk, ← hclosed, update_eq_self]

theorem Mounted.closeRoot {live : Nat → Prop} (hm : fs.Mounted live) :
    (fs.setInode rootDirSector none).Mounted live :=
  hm.closeInode (by decide) (fun hj => hj) fun hj _ => hj

/-! ## Opening -/

theorem Consistent.openNamed (hc : fs.Consistent) (hnamed : fs.Named k) :
    fs.withRoot.inodeOpen k = some (fs.withRoot.setInode k (some (fs.reopened k))) := by
  have hreopened : fs.withRoot.reopened k = fs.reopened k := by
    unfold reopened withRoot
    rw [setInode_ne (hc.entryFile hnamed).2]
    rfl
  rw [← hreopened]
  exact hc.mountedRoot.inodeOpen (.inr (.inr (.inl hnamed)))

theorem Consistent.fits_reopened (hc : fs.Consistent) (hk : IsFile k) (hnamed : fs.Named k) :
    fs.Fits (fs.files ++ [some (⟨k, 0, false⟩ : File)]) k (some (fs.reopened k)) := by
  have hon : (fs.files ++ [some (⟨k, 0, false⟩ : File)]).countP (File.on k) = fs.handles k + 1 := by
    rw [List.countP_append]
    simp [File.on, handles]
  have hden : (fs.files ++ [some (⟨k, 0, false⟩ : File)]).countP (File.denies k) = fs.denials k := by
    rw [List.countP_append]
    simp [File.denies, denials]
  unfold Fits
  rw [hon, hden]
  refine ⟨hc.mounted.reopened_data, ?_⟩
  unfold reopened
  cases hopen : fs.openInodes k with
  | some ip =>
    obtain ⟨hcnt, -⟩ := hc.openCnt hopen hk
    have hremoved := hc.removed hopen hk
    have hdeny := hc.denyCnt hopen hk
    refine ⟨hremoved, ?_, Nat.succ_pos _, hdeny⟩
    show ip.openCnt + 1 = fs.handles k + 1
    rw [hcnt]
  | none =>
    have hnone : fs.handles k = 0 := by
      by_contra hpos
      obtain ⟨-, hsome⟩ := hc.handle (Nat.pos_of_ne_zero hpos)
      rw [hopen] at hsome
      cases hsome
    have hdenials := denials_le_handles fs k
    refine ⟨iff_of_false Bool.false_ne_true (not_not.mpr hnamed), ?_, Nat.one_pos, ?_⟩
    · show 1 = fs.handles k + 1
      omega
    · show 0 = fs.denials k
      omega

/-- The file system with a new file on inode `k`. -/
def opened (fs : Filesys) (k : Nat) : Filesys :=
  { fs.setInode k (some (fs.reopened k)) with files := fs.files ++ [some ⟨k, 0, false⟩] }

theorem opened_files {closes : Nat → Prop} (fs : Filesys) : fs.SameFiles (fs.opened k) closes := by
  intro h file hfile _
  refine ⟨file, ?_, rfl, id⟩
  rw [file_eq_some] at hfile ⊢
  show (fs.files ++ [some (⟨k, 0, false⟩ : File)])[h]? = _
  rw [List.getElem?_append_left (List.getElem?_eq_some_iff.mp hfile).choose]
  exact hfile

theorem opened_file (fs : Filesys) :
    (fs.opened k).file fs.files.length = some ⟨k, 0, false⟩ := by
  refine file_eq_some.mpr ?_
  show (fs.files ++ [some (⟨k, 0, false⟩ : File)])[fs.files.length]? = _
  rw [List.getElem?_append_right (Nat.le_refl _), Nat.sub_self]
  rfl

section

variable (hc : fs.Consistent)
include hc

theorem Consistent.opened (hnamed : fs.Named k) :
    (fs.opened k).Consistent ∧ ∀ j, fs.Live j → (fs.opened k).Live j := by
  have hk := hc.entryFile hnamed
  have hlive : fs.Live k := .inr (.inr (.inl hnamed))
  have hother : fs.SameElsewhere (fs.files ++ [some (⟨k, 0, false⟩ : File)]) k := by
    intro j hj
    have hne : ¬ k = j := fun h => hj h.symm
    rw [List.countP_append, List.countP_append]
    simp [File.on, File.denies, hne, handles, denials]
  obtain ⟨hc', hlive'⟩ := hc.setInode hk hlive (hc.fits_reopened hk hnamed) hother
  exact ⟨hc', fun j hj => (hlive' j).mpr ⟨hj, fun _ => .inr rfl⟩⟩

theorem Consistent.closeOpened (hnamed : fs.Named k) :
    (fs.withRoot.setInode k (some (fs.reopened k))).dirClose =
      some (fs.setInode k (some (fs.reopened k))) := by
  have hk := hc.entryFile hnamed
  rw [closeRoot ((setInode_ne hk.2.symm).trans fs.withRoot_root)]
  exact congrArg some (setRoot_set_close hc.rootClosed hk.2 _ _)

theorem Consistent.openFile_some {name : Name} {e : Mem} {i : Nat}
    (hfound : fs.withRoot.lookup Mallocs.all.lookup rootDirSector name.1 = some (some (e, i)))
    (hnamed : fs.Named (DirEntry.inodeSector e)) :
    fs.openFile name = some (some fs.files.length, fs.opened (DirEntry.inodeSector e)) := by
  simp [Filesys.openFile, openFileWith, OpenMemory.all, hc.openRoot, hfound, inodeOpenWith,
    hc.openNamed hnamed, hc.closeOpened hnamed, fileOpenWith, fileOpen, Filesys.opened]

theorem Consistent.openFile_none {name : Name}
    (hnone : fs.withRoot.lookup Mallocs.all.lookup rootDirSector name.1 = some none) :
    fs.openFile name = some (none, fs) := by
  simp [Filesys.openFile, openFileWith, OpenMemory.all, hc.openRoot, hnone, hc.withRoot_close]

theorem Consistent.lookupRoot (name : Name) :
    (∃ i e, fs.withRoot.lookup Mallocs.all.lookup rootDirSector name.1 = some (some (e, i)) ∧
      i < fs.device.slots rootDirSector ∧ fs.device.Lists rootDirSector name.1 i ∧
      SameEntry e (fs.device.slot rootDirSector i) ∧ fs.Named (DirEntry.inodeSector e)) ∨
    fs.withRoot.lookup Mallocs.all.lookup rootDirSector name.1 = some none := by
  rcases hc.mountedRoot.lookup fs.withRoot_root name.1 with ⟨i, e, hi, hlists, hsame, hfound⟩ | ⟨-, hnone⟩
  · exact .inl ⟨i, e, hfound, hi, hlists, hsame, i, hi, hlists.1, hsame.inodeSector.symm⟩
  · exact .inr hnone

theorem Consistent.openFile (name : Name) :
    ∃ r fs', fs.openFile name = some (r, fs') ∧ fs.Keeps fs' := by
  rcases hc.lookupRoot name with ⟨i, e, hfound, -, -, -, hnamed⟩ | hnone
  · obtain ⟨hc', hlive⟩ := hc.opened hnamed
    exact ⟨_, _, hc.openFile_some hfound hnamed, .of_memory hc' rfl rfl fs.opened_files hlive⟩
  · exact ⟨_, _, hc.openFile_none hnone, .refl hc⟩

end

/-! ## Removing -/

/-- The inode after `inode_remove`, if it is open. -/
def markRemoved (ip? : Option OpenInode) : Option OpenInode :=
  ip?.map fun ip => { ip with removed := true }

/-- The file system once the entry of inode `k` is gone from the disk and the inode is marked. -/
def erased (fs : Filesys) (d : Block) (k : Nat) : Filesys :=
  setInode { fs with device := d } k (markRemoved (fs.openInodes k))

theorem erased_self {d : Block} : (fs.erased d k).openInodes k = markRemoved (fs.openInodes k) :=
  setInode_self

theorem erased_ne {d : Block} {j : Nat} (h : j ≠ k) :
    (fs.erased d k).openInodes j = fs.openInodes j := setInode_ne h

theorem erased_cases {d : Block} {j : Nat} {ip' : OpenInode}
    (h : (fs.erased d k).openInodes j = some ip') :
    (j = k ∧ ∃ ip, fs.openInodes k = some ip ∧ ip' = { ip with removed := true }) ∨
      j ≠ k ∧ fs.openInodes j = some ip' := by
  by_cases hj : j = k
  · subst hj
    rw [erased_self] at h
    obtain ⟨ip, hip, rfl⟩ := Option.map_eq_some_iff.mp h
    exact .inl ⟨rfl, ip, hip, rfl⟩
  · rw [erased_ne hj] at h
    exact .inr ⟨hj, h⟩

theorem erased_isSome {d : Block} {j : Nat} :
    ((fs.erased d k).openInodes j).isSome = (fs.openInodes j).isSome := by
  by_cases hj : j = k
  · subst hj
    rw [erased_self]
    unfold markRemoved
    rw [Option.isSome_map]
  · rw [erased_ne hj]

/-- On `d` the entry in slot `i`, which is that of inode `k`, has been erased. -/
structure Erases (fs : Filesys) (d : Block) (k i : Nat) : Prop where
  lt : i < fs.device.slots rootDirSector
  inUse : DirEntry.inUse (fs.device.slot rootDirSector i) = true
  sector : DirEntry.inodeSector (fs.device.slot rootDirSector i) = k
  device : fs.device.SameBut d (fs.dataOf rootDirSector)
  slot : DirEntry.inUse (d.slot rootDirSector i) = false
  others : ∀ {j}, j ≠ i → SameEntry (d.slot rootDirSector j) (fs.device.slot rootDirSector j)

namespace Erases

variable {d : Block} {i j : Nat}

section

variable (he : fs.Erases d k i) (hc : fs.Consistent)
include he hc

theorem inodeAt (hj : fs.Live j) :
    d.inodeAt j = fs.device.inodeAt j :=
  he.device.inodeAt (hc.mounted.notHeader fs.live_root hj)

theorem slots :
    d.slots rootDirSector = fs.device.slots rootDirSector := by
  unfold Block.slots
  rw [he.inodeAt hc fs.live_root]

theorem left (hj : j < d.slots rootDirSector)
    (hjuse : DirEntry.inUse (d.slot rootDirSector j) = true) :
    j ≠ i ∧ j < fs.device.slots rootDirSector ∧
      DirEntry.inUse (fs.device.slot rootDirSector j) = true ∧
      DirEntry.inodeSector (d.slot rootDirSector j) =
        DirEntry.inodeSector (fs.device.slot rootDirSector j) := by
  have hne : j ≠ i := by
    rintro rfl
    rw [he.slot] at hjuse
    cases hjuse
  rw [(he.others hne).inUse] at hjuse
  exact ⟨hne, he.slots hc ▸ hj, hjuse, (he.others hne).inodeSector⟩

theorem named_iff (j : Nat) :
    (fs.erased d k).Named j ↔ fs.Named j ∧ j ≠ k := by
  constructor
  · rintro ⟨a, ha, hause, rfl⟩
    obtain ⟨hne, ha, hause, hsector⟩ := he.left hc ha hause
    refine ⟨⟨a, ha, hause, hsector.symm⟩, fun heq => hne ?_⟩
    exact hc.entryUnique ha he.lt hause he.inUse ((hsector.symm.trans heq).trans he.sector.symm)
  · rintro ⟨⟨a, ha, hause, rfl⟩, hne⟩
    have hai : a ≠ i := by
      rintro rfl
      exact hne he.sector
    refine ⟨a, (he.slots hc).symm ▸ ha, ?_, (he.others hai).inodeSector⟩
    exact (he.others hai).inUse.trans hause

theorem isFile : IsFile k :=
  hc.entryFile ⟨i, he.lt, he.inUse, he.sector⟩

theorem live_iff (j : Nat) :
    (fs.erased d k).Live j ↔ fs.Live j ∧ (j = k → (fs.openInodes k).isSome = true) := by
  have hfile := he.isFile hc
  unfold Live
  rw [he.named_iff hc, erased_isSome]
  by_cases hj : j = k
  · subst hj
    constructor
    · rintro (h0 | h1 | ⟨-, hne⟩ | hopen)
      · exact absurd h0 hfile.1
      · exact absurd h1 hfile.2
      · exact absurd rfl hne
      · exact ⟨.inr (.inr (.inr hopen)), fun _ => hopen⟩
    · rintro ⟨-, hopen⟩
      exact .inr (.inr (.inr (hopen rfl)))
  · simp [hj]

theorem mounted :
    (fs.erased d k).Mounted fun j => fs.Live j ∧ (j = k → (fs.openInodes k).isSome = true) := by
  have hfile := he.isFile hc
  have hframe : Mounted { fs with device := d } fs.Live :=
    hc.mounted.frame he.device fun hj => hc.mounted.notHeader fs.live_root hj
  unfold erased
  cases hopen : fs.openInodes k with
  | none => exact hframe.closeInode hfile.1 And.left fun hj hne => ⟨hj, fun heq => absurd heq hne⟩
  | some ip =>
    obtain ⟨hklive, hdata⟩ := hframe.cached hopen
    have hset : (Filesys.setInode { fs with device := d } k
        (some { ip with removed := true })).Mounted fs.Live :=
      hframe.setInode hklive hdata fun h0 => absurd h0 hfile.1
    exact hset.congr fun j => and_iff_left fun _ => rfl

end

end Erases

theorem Consistent.erase (hc : fs.Consistent) {i : Nat} {d : Block} (he : fs.Erases d k i) :
    (fs.erased d k).Consistent := by
  have hfile := he.isFile hc
  refine ⟨(he.mounted hc).congr (he.live_iff hc), ?_, ?_, ?_, ?_, ?_, ?_, ?_, ?_, ?_⟩
  · exact Synced.frame hc.mounted hc.synced he.device (hc.mounted.notHeader fs.live_root fs.live_map)
      (hc.mounted.data_disjoint fs.live_map fs.live_root (by decide))
  · show (d.inodeAt rootDirSector).length % 20 = 0
    rw [he.inodeAt hc fs.live_root]
    exact hc.rootLength
  · exact (erased_ne hfile.2.symm).trans hc.rootClosed
  · intro j hj
    exact hc.entryFile ((he.named_iff hc j).mp hj).1
  · intro a b ha hb hause hbuse hsame
    obtain ⟨-, ha, hause, hasector⟩ := he.left hc ha hause
    obtain ⟨-, hb, hbuse, hbsector⟩ := he.left hc hb hbuse
    exact hc.entryUnique ha hb hause hbuse ((hasector.symm.trans hsame).trans hbsector)
  · intro j ip' h hj
    rw [he.named_iff hc]
    rcases erased_cases h with ⟨rfl, ip, -, rfl⟩ | ⟨hne, h⟩
    · exact iff_of_true rfl fun h => h.2 rfl
    · rw [hc.removed h hj, and_iff_left hne]
  · intro j ip' h hj
    rcases erased_cases h with ⟨rfl, ip, hopen, rfl⟩ | ⟨-, h⟩
    · have hcnt := hc.openCnt hopen hj
      exact hcnt
    · exact hc.openCnt h hj
  · intro j ip' h hj
    rcases erased_cases h with ⟨rfl, ip, hopen, rfl⟩ | ⟨-, h⟩
    · have hcnt := hc.denyCnt hopen hj
      exact hcnt
    · exact hc.denyCnt h hj
  · intro j hj
    obtain ⟨hjfile, hopen⟩ := hc.handle hj
    refine ⟨hjfile, ?_⟩
    rw [erased_isSome]
    exact hopen

/-- While `dir_remove` is at work: the entry is gone and the inode open. -/
def marked (fs : Filesys) (d : Block) (k : Nat) (ip : OpenInode) : Filesys :=
  setInode { fs.withRoot with device := d } k (some ip)

theorem marked_self {d : Block} : (fs.marked d k ip).openInodes k = some ip := setInode_self

theorem marked_set (d : Block) (ip? : Option OpenInode) :
    (fs.marked d k ip).setInode k ip? = setInode { fs.withRoot with device := d } k ip? := by
  unfold marked setInode
  simp only
  rw [update_idem]

theorem inodeRemove_marked (d : Block) :
    (fs.marked d k ip).inodeRemove k = some (fs.marked d k { ip with removed := true }) := by
  unfold Filesys.inodeRemove
  rw [marked_self, Option.bind_eq_bind, Option.bind_some, marked_set]
  rfl

theorem marked_close (hclosed : fs.openInodes rootDirSector = none) (hk : k ≠ rootDirSector)
    (d : Block) (ip? : Option OpenInode) :
    ((fs.marked d k ip).setInode k ip?).setInode rootDirSector none =
      setInode { fs with device := d } k ip? := by
  have hclosed : ({ fs with device := d } : Filesys).openInodes rootDirSector = none := hclosed
  rw [marked_set]
  exact setRoot_set_close hclosed hk (some fs.rootInode) ip?

theorem Consistent.closeMarked (hc : fs.Consistent) (hk : IsFile k) (hlive : fs.Live k) {d : Block}
    (hm : (fs.marked d k (fs.reopened k)).Mounted fs.Live)
    (hd : fs.device.SameBut d (fs.dataOf rootDirSector))
    (herased : (fs.erased d k).Consistent ∧ ∀ j, (fs.erased d k).Live j ↔
      fs.Live j ∧ (j = k → (fs.openInodes k).isSome = true)) :
    ∃ fs₁ fs', (fs.marked d k { fs.reopened k with removed := true }).inodeClose k = some fs₁ ∧
      fs₁.dirClose = some fs' ∧ fs.Keeps fs' := by
  obtain ⟨hc₁, hlive₁⟩ := herased
  have hinode : ∀ {j}, fs.Live j → d.inodeAt j = fs.device.inodeAt j :=
    fun hj => hd.inodeAt (hc.mounted.notHeader fs.live_root hj)
  have hroot : ∀ ip ip?, ((fs.marked d k ip).setInode k ip?).openInodes rootDirSector =
      some fs.rootInode := by
    intro ip ip?
    rw [marked_set, setInode_ne hk.2.symm]
    exact fs.withRoot_root
  cases hopened : fs.openInodes k with
  | some ip =>
    have hre : fs.reopened k = { ip with openCnt := ip.openCnt + 1 } := by
      unfold reopened
      rw [hopened]
    have hpos := (hc.openCnt hopened hk).2
    have hmore : (fs.reopened k).openCnt ≠ 1 := by
      rw [hre]
      show ip.openCnt + 1 ≠ 1
      omega
    refine ⟨_, _, inodeClose_more marked_self hmore, closeRoot (hroot _ _), ?_⟩
    rw [marked_close hc.rootClosed hk.2, hre]
    have hsame : Filesys.setInode { fs with device := d } k
        (some { ip with removed := true }) = fs.erased d k := by
      unfold erased
      rw [hopened]
      rfl
    show fs.Keeps (Filesys.setInode { fs with device := d } k
      (some { ip with removed := true }))
    rw [hsame]
    refine hc.effect hc₁ hd .inr (.of_eq rfl) ?_ ?_
    · intro s hset hclear
      have hclear : bitmapTest fs.freeMap s = false := hclear
      rw [hset] at hclear
      cases hclear
    · intro j s hj hgone
      refine absurd ((hlive₁ j).mpr ⟨hj, fun _ => ?_⟩) hgone
      rw [hopened]
      rfl
  | none =>
    have hre : fs.reopened k = ⟨1, false, 0, fs.device.inodeAt k⟩ := by
      unfold reopened
      rw [hopened]
    have hm₁ : (fs.marked d k { fs.reopened k with removed := true }).Mounted fs.Live := by
      have hset : ((fs.marked d k (fs.reopened k)).setInode k
          (some { fs.reopened k with removed := true })).Mounted fs.Live :=
        hm.setInode hlive (hm.cached marked_self).2 fun h0 => absurd h0 hk.1
      rw [marked_set] at hset
      exact hset
    obtain ⟨fs₁, hclose, hfreed⟩ := hm₁.inodeClose_removed marked_self hk.1 (by rw [hre]) rfl
    have hopen : fs₁.openInodes =
        ((fs.marked d k { fs.reopened k with removed := true }).setInode k none).openInodes :=
      hfreed.openInodes
    have hroot₁ : fs₁.openInodes rootDirSector = some fs.rootInode := by
      rw [hopen]
      exact hroot _ none
    have hopen' : (fs₁.setInode rootDirSector none).openInodes = (fs.erased d k).openInodes := by
      unfold erased
      rw [hopened, ← marked_close hc.rootClosed hk.2]
      show update fs₁.openInodes rootDirSector none = _
      rw [hopen]
      rfl
    have hlive₂ : ∀ j, (fs.erased d k).Live j ↔ fs.Live j ∧ j ≠ k := by
      intro j
      rw [hlive₁, hopened]
      simp
    obtain ⟨hc₂, hsame⟩ := hc₁.remapped (hfreed.mounted.closeRoot.congr hlive₂) hfreed.synced hopen'
      hfreed.files hfreed.device
    refine ⟨fs₁, _, hclose, closeRoot hroot₁, ?_⟩
    refine hc.effect_freed hc₂ (hd.trans hfreed.device) ?_ (.of_eq hfreed.files) hlive
      (fun j => (hsame j).trans (hlive₂ j)) fun s => ?_
    · rintro s (hin | hin)
      · exact .inr hin
      · refine .inl (.inl ?_)
        unfold dataOf at hin ⊢
        rw [← hinode fs.live_map]
        exact hin
    · refine (hfreed.bits s).trans ?_
      unfold dataOf
      rw [← hinode hlive]
      exact Iff.rfl

theorem remove_eq {fs₁ fs₂ fs₃ fs₄ fs₅ : Filesys} {name : Name} {e : Mem} {i : Nat}
    (hopen : fs.dirOpenRoot = some fs₁)
    (hfound : fs₁.lookup Mallocs.all.lookup rootDirSector name.1 = some (some (e, i)))
    (hinode : fs₁.inodeOpen (DirEntry.inodeSector e) = some fs₂)
    (hwrite : fs₂.inodeWriteAt Mallocs.all.store rootDirSector (DirEntry.setInUse e false) 0 20
      (20 * i) = some (20, fs₃))
    (hremove : fs₃.inodeRemove (DirEntry.inodeSector e) = some fs₄)
    (hclose : fs₄.inodeClose (DirEntry.inodeSector e) = some fs₅)
    (hdir : fs₅.dirClose = some fs') : fs.remove name = some (true, fs') := by
  unfold inodeClose at hclose
  simp [Filesys.remove, hopen, dirRemove, dirRemoveWith, hfound, hinode, hwrite, hremove, hclose, hdir]

theorem Consistent.remove (hc : fs.Consistent) (name : Name) :
    ∃ ok fs', fs.remove name = some (ok, fs') ∧ fs.Keeps fs' := by
  have hopen := hc.openRoot
  rcases hc.lookupRoot name with ⟨i, e, hfound, hi, hlists, hsame, hnamed⟩ | hnone
  · have hk := hc.entryFile hnamed
    have hinode := hc.openNamed hnamed
    have hsector := hsame.inodeSector
    generalize hke : inodeSector e = k at hnamed hk hinode hsector
    have hlive : fs.Live k := .inr (.inr (.inl hnamed))
    have hm₁ : (fs.withRoot.setInode k (some (fs.reopened k))).Mounted fs.Live :=
      hc.mountedRoot.setInode hlive hc.mounted.reopened_data fun h0 => absurd h0 hk.1
    have hroot₁ : (fs.withRoot.setInode k (some (fs.reopened k))).openInodes rootDirSector =
        some fs.rootInode := (setInode_ne hk.2.symm).trans fs.withRoot_root
    obtain ⟨d, hd, hwritten⟩ := hm₁.writeSlot hroot₁ rfl hi (setInUse e false)
    have hdevice : fs.device.SameBut d (fs.dataOf rootDirSector) := hwritten.device
    have hslot : inUse (d.slot rootDirSector i) = false := by
      rw [hwritten.slot.inUse]
      rfl
    have he : fs.Erases d k i :=
      ⟨hi, hlists.1, hsector.symm, hdevice, hslot, hwritten.others⟩
    obtain ⟨fs₅, fs', hclose, hdir, heffect⟩ :=
      hc.closeMarked hk hlive hwritten.mounted hdevice ⟨hc.erase he, he.live_iff hc⟩
    subst hke
    exact ⟨true, fs', remove_eq hopen hfound hinode hd (inodeRemove_marked d) hclose hdir, heffect⟩
  · refine ⟨false, fs, ?_, .refl hc⟩
    simp [Filesys.remove, hopen, dirRemove, dirRemoveWith, hnone, hc.withRoot_close]

end Filesys

end Pintos
