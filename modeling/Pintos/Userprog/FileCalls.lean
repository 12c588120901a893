import Pintos.Filesys.Denial
import Pintos.Filesys.History

/-!
# The file system calls (`userprog/syscall.c`)

The system calls that go to the file system, as functions of the file system, of the descriptor
table of the process and of 32-bit arguments. An `unsigned` argument becomes an `off_t` on the way,
so that 2^31 and above become negative, and `file_seek` and `inode_create` assert that their
arguments are not.

User memory is taken to be accessible where the arguments point. Of the allocations those of
`filesys_open`, which asserts that it has a directory, may fail.
-/

namespace Pintos

open Lib Function Option DirEntry

/-! ## `filesys_open` -/

namespace Filesys

variable {fs : Filesys} {k : Nat}

/-- The root directory has the name for inode `k`, there is memory to read the slots up to the first
that has it, and memory for the file and for the inode, if that is not open. -/
def FoundAs (fs : Filesys) (mem : OpenMemory) (name : Name) (k : Nat) : Prop :=
  (∃ i < fs.device.slots rootDirSector,
    (∀ j ≤ i, mem.lookup j = true ∧ (fs.device.Lists rootDirSector name.1 j ↔ j = i)) ∧
    DirEntry.inodeSector (fs.device.slot rootDirSector i) = k) ∧
  ((fs.openInodes k).isSome || mem.inode) = true ∧ mem.file = true

theorem Consistent.closeReopened (hc : fs.Consistent) (hnamed : fs.Named k) :
    (fs.setInode k (some (fs.reopened k))).inodeClose k = some fs := by
  have hself : (fs.setInode k (some (fs.reopened k))).openInodes k = some (fs.reopened k) :=
    setInode_self
  have hback : ∀ {ip?}, fs.openInodes k = ip? →
      (fs.setInode k (some (fs.reopened k))).setInode k ip? = fs := by
    intro ip? hip
    unfold Filesys.setInode
    rw [← hip]
    simp only [update_idem, update_eq_self]
  cases hopen : fs.openInodes k with
  | some ip =>
    obtain ⟨-, hpos⟩ := hc.openCnt hopen (hc.entryFile hnamed)
    have hre : fs.reopened k = { ip with openCnt := ip.openCnt + 1 } := by
      unfold reopened
      rw [hopen]
    have hmore : (fs.reopened k).openCnt ≠ 1 := by
      rw [hre]
      show ip.openCnt + 1 ≠ 1
      omega
    have hless : { fs.reopened k with openCnt := (fs.reopened k).openCnt - 1 } = ip := by
      rw [hre]
      rfl
    rw [inodeClose_more hself hmore, hless]
    exact congrArg some (hback hopen)
  | none =>
    have hre : fs.reopened k = ⟨1, false, 0, fs.device.inodeAt k⟩ := by
      unfold reopened
      rw [hopen]
    rw [inodeClose_last hself (by rw [hre]) (by rw [hre])]
    exact congrArg some (hback hopen)

/-- `filesys_open` returns a file on the inode of that name, or changes nothing. -/
theorem Consistent.openFileWith (hc : fs.Consistent) (mem : OpenMemory) (name : Name)
    (hdir : mem.dir = true) :
    (∀ k, ¬ fs.FoundAs mem name k) ∧ fs.openFileWith mem name = some (none, fs) ∨
    ∃ k, fs.FoundAs mem name k ∧ fs.Named k ∧
      fs.openFileWith mem name = some (some fs.files.length, fs.opened k) := by
  have hopen := hc.openRoot
  have hopens := hc.mountedRoot.opens fs.withRoot_root
  rcases hopens.lookup mem.lookup name.1 with
    ⟨i, e, hi, hfirst, hlists, hsame, hfound⟩ | ⟨c, -, hcut, hnone, hmissed⟩
  swap
  · refine .inl ⟨?_, by simp [Filesys.openFileWith, hdir, hopen, hmissed, hc.withRoot_close]⟩
    rintro k ⟨⟨i, hi, hfirst, -⟩, -⟩
    by_cases hle : c ≤ i
    · have hfalse := hcut (Nat.lt_of_le_of_lt hle hi)
      exact Bool.false_ne_true (hfalse.symm.trans (hfirst c hle).1)
    · exact hnone i (Nat.not_le.mp hle) ((hfirst i (Nat.le_refl i)).2.mpr rfl)
  have hnamed : fs.Named (inodeSector e) := ⟨i, hi, hlists.1, hsame.inodeSector.symm⟩
  have hk := hc.entryFile hnamed
  have hroot : fs.withRoot.openInodes (inodeSector e) = fs.openInodes (inodeSector e) :=
    setInode_ne hk.2
  have hone : ∀ k, fs.FoundAs mem name k → k = inodeSector e := by
    rintro k ⟨⟨j, hj, hfirst', rfl⟩, -⟩
    have hij : j = i := by
      rcases Nat.le_total i j with hle | hle
      · exact ((hfirst' i hle).2.mp hlists).symm
      · exact (hfirst j hle).2 ((hfirst' j (Nat.le_refl j)).2.mpr rfl)
    rw [hij, hsame.inodeSector]
    rfl
  by_cases hroom : ((fs.openInodes (inodeSector e)).isSome || mem.inode) = true
  · have hinode : fs.withRoot.inodeOpenWith mem.inode (inodeSector e) =
        some (true, fs.withRoot.setInode (inodeSector e)
          (some (fs.reopened (inodeSector e)))) := by
      unfold inodeOpenWith
      rw [hroot, if_pos hroom, hc.openNamed hnamed]
      rfl
    have hclose := hc.closeOpened hnamed
    cases hfile : mem.file with
    | true =>
      refine .inr ⟨_, ⟨⟨i, hi, fun j hj => ⟨(hfirst j hj).1, (hfirst j hj).2, ?_⟩,
        hsame.inodeSector.symm⟩, hroom, hfile⟩, hnamed, ?_⟩
      · rintro rfl
        exact hlists
      · simp [Filesys.openFileWith, hdir, hopen, hfound, hinode, hclose, fileOpenWith, hfile, fileOpen,
          Filesys.opened]
    | false =>
      refine .inl ⟨fun k hf => ?_, ?_⟩
      · rw [hf.2.2] at hfile
        cases hfile
      · simp [Filesys.openFileWith, hdir, hopen, hfound, hinode, hclose, fileOpenWith, hfile,
          hc.closeReopened hnamed]
  · have hinode : fs.withRoot.inodeOpenWith mem.inode (inodeSector e) =
        some (false, fs.withRoot) := by
      unfold inodeOpenWith
      rw [hroot, if_neg hroom]
    refine .inl ⟨fun k hf => hroom (hone k hf ▸ hf.2.1), ?_⟩
    simp [Filesys.openFileWith, hdir, hopen, hfound, hinode, hc.withRoot_close]

end Filesys

open Filesys

/-! ## The calls -/

/-- The file system, `t->files` of the calling thread, and user memory. -/
structure FileState where
  fs : Filesys
  files : Nat → Option Nat
  mem : Mem

/-- A system call that goes to the file system. -/
inductive FileCall
  | create (fileName : Name) (initialSize : UInt32)
  | remove (fileName : Name)
  | openFile (mem : OpenMemory) (fileName : Name)
  | filesize (fd : Int32)
  | read (fd : Int32) (buffer : Nat) (size : UInt32)
  | write (fd : Int32) (buffer : Nat) (size : UInt32)
  | seek (fd : Int32) (position : UInt32)
  | tell (fd : Int32)

theorem offT_nonneg {x : UInt32} : 0 ≤ offT x.toNat ↔ x.toNat < 2147483648 := by
  have hx : x.toNat < 4294967296 := x.toNat_lt
  unfold offT
  rw [Int.bmod_def]
  omega

namespace FileState

/-- `fd < 1024 && fd >= 2 && (file = t->files[fd])`. -/
def fileOf (s : FileState) (fd : Int32) : Option Nat :=
  if fd.toInt < 1024 ∧ 2 ≤ fd.toInt then s.files fd.toInt.toNat else none

/-- The first free descriptor. -/
def freeFd (s : FileState) : Option Nat := (List.range' 2 1022).find? fun i => (s.files i).isNone

end FileState

/-- A file system call: `f->eax`, if it is set, and the state after it. -/
def fileCall (s : FileState) : FileCall → Option (Option Int × FileState)
  | .create fileName initialSize => do
      let (success, fs) ← s.fs.create fileName (offT initialSize.toNat)
      return (some (if success then 1 else 0), { s with fs })
  | .remove fileName => do
      let (success, fs) ← s.fs.remove fileName
      return (some (if success then 1 else 0), { s with fs })
  | .openFile mem fileName => do
      let (file, fs) ← s.fs.openFileWith mem fileName
      match file, s.freeFd with
      | some h, some fd =>
        return (some fd, { s with fs, files := Function.update s.files fd (some h) })
      | _, _ => return (some (-1), { s with fs })
  | .filesize fd =>
    match s.fileOf fd with
    | some h => do
        let length ← s.fs.fileLength h
        return (some length, s)
    | none => some (some (-1), s)
  | .read fd buffer size =>
    -- descriptor 0 is the keyboard
    if fd.toInt = 0 then some (some size.toNat, s)
    else
      match s.fileOf fd with
      | some h => do
          let (n, mem, fs) ← s.fs.fileRead h s.mem buffer (offT size.toNat)
          return (some n, { s with fs, mem })
      | none => some (some (-1), s)
  | .write fd buffer size =>
    -- descriptor 1 is the console
    if fd.toInt = 1 then some (some size.toNat, s)
    else
      match s.fileOf fd with
      | some h => do
          let (n, fs) ← s.fs.fileWrite h s.mem buffer (offT size.toNat)
          return (some n, { s with fs })
      | none => some (some (-1), s)
  | .seek fd position =>
    match s.fileOf fd with
    | some h => do
        let fs ← s.fs.fileSeek h (offT position.toNat)
        return (none, { s with fs })
    | none => some (none, s)
  | .tell fd =>
    match s.fileOf fd with
    | some h => do
        let pos ← s.fs.fileTell h
        return (some pos, s)
    | none => some (some (-1), s)

namespace FileState

variable {s s' : FileState} {r : Option Int}

/-- The file system is consistent, and the descriptors are those of open files. -/
structure Sound (s : FileState) : Prop where
  fs : s.fs.Consistent
  files : ∀ {fd h}, s.files fd = some h → (s.fs.file h).isSome = true

/-- `inode_create` and `file_seek` get no negative number, and `dir_open_root` gets memory. -/
def Harmless (s : FileState) : FileCall → Prop
  | .create _ initialSize =>
    initialSize.toNat < 2147483648 ∨ ∀ i < s.fs.freeMap.bitCnt, bitmapTest s.fs.freeMap i = true
  | .openFile mem _ => mem.dir = true
  | .seek fd position => position.toNat < 2147483648 ∨ s.fileOf fd = none
  | _ => True

theorem Sound.file (hs : s.Sound) {fd : Int32} {h : Nat} (hfd : s.fileOf fd = some h) :
    ∃ file, s.fs.file h = some file := by
  unfold fileOf at hfd
  split at hfd
  · exact isSome_iff_exists.mp (hs.files hfd)
  · cases hfd

theorem Sound.effect (hs : s.Sound) {fs : Filesys} {writes : Nat → Prop}
    (he : s.fs.Effect fs writes fun _ => False) (mem : Mem) : Sound ⟨fs, s.files, mem⟩ where
  fs := he.consistent
  files hfd := by
    obtain ⟨file, hfile⟩ := isSome_iff_exists.mp (hs.files hfd)
    obtain ⟨file', hfile', -⟩ := he.files _ file hfile id
    rw [hfile']
    rfl

theorem no_sector_iff {b : Bitmap} :
    bitmapScan b 0 1 false = none ↔ ∀ i < b.bitCnt, bitmapTest b i = true := by
  constructor
  · intro h i hi
    obtain ⟨k, hk, hset⟩ := bitmapScan_none h hi
    have hzero : k = 0 := by omega
    rwa [hzero] at hset
  · intro h
    cases hscan : bitmapScan b 0 1 false with
    | none => rfl
    | some i =>
      obtain ⟨hin, hclear⟩ := bitmapScan_some hscan
      have hfree := hclear 0 (by omega)
      rw [Nat.add_zero, h i (by omega)] at hfree
      cases hfree

theorem create_negative_iff {fs : Filesys} (hc : fs.Consistent) {name : Name} {n : Int} (hn : ¬ 0 ≤ n) :
    (fs.create name n).isSome = true ↔ ∀ i < fs.freeMap.bitCnt, bitmapTest fs.freeMap i = true := by
  rw [← no_sector_iff]
  have hopen := hc.openRoot
  rcases hc.mountedRoot.freeMapAllocate 1 with ⟨hscan, hnone⟩ | ⟨k, fs₁, hscan, hsome, -⟩
  · rw [create_eq_full hopen hnone hc.withRoot_close]
    exact iff_of_true rfl hscan
  · have hcreate : fs₁.inodeCreate k n = none := if_neg hn
    have hpanic : fs.create name n = none := by simp [create, hopen, hsome, hcreate]
    have hscan : bitmapScan fs.freeMap 0 1 false = some k := hscan
    rw [hpanic, hscan]
    simp

theorem createKeeps {fs : Filesys} (hc : fs.Consistent) (name : Name)
    {size : UInt32} (hh : size.toNat < 2147483648 ∨
      ∀ i < fs.freeMap.bitCnt, bitmapTest fs.freeMap i = true) :
    ∃ r fs', fs.create name (offT size.toNat) = some (r, fs') ∧ fs.Keeps fs' := by
  by_cases hsize : size.toNat < 2147483648
  · rw [offT_eq hsize]
    rcases hc.create name hsize with ⟨fs', leaked, hcreate, hundone, -⟩ |
      ⟨fs', -, hcreate, -, -, heffect, -⟩
    · exact ⟨_, fs', hcreate, hundone.effect hc⟩
    · exact ⟨_, fs', hcreate, heffect⟩
  · have hneg : ¬ 0 ≤ offT size.toNat := fun h => hsize (offT_nonneg.mp h)
    have hfull := (@create_negative_iff fs hc name _ hneg).mpr (hh.resolve_left hsize)
    obtain ⟨⟨r, fs'⟩, hcreate⟩ := isSome_iff_exists.mp hfull
    have hsame := hc.create_negative hneg hcreate
    subst hsame
    exact ⟨r, fs', hcreate, .refl hc⟩

theorem Sound.openFile (hs : s.Sound) {mem : OpenMemory} (hdir : mem.dir = true) (name : Name) :
    ∃ r s', fileCall s (.openFile mem name) = some (r, s') ∧ s'.Sound := by
  rcases hs.fs.openFileWith mem name hdir with ⟨-, hopen⟩ | ⟨k, -, hnamed, hopen⟩
  · exact ⟨some (-1), s, by simp [fileCall, hopen], hs⟩
  · obtain ⟨hc, hlive⟩ := hs.fs.opened hnamed
    have hkeeps : s.fs.Keeps (s.fs.opened k) := .of_memory hc rfl rfl s.fs.opened_files hlive
    have hsound := hs.effect hkeeps s.mem
    cases hfd : s.freeFd with
    | none => exact ⟨some (-1), _, by simp [fileCall, hopen, hfd], hsound⟩
    | some fd =>
      refine ⟨some fd, ⟨s.fs.opened k, update s.files fd (some s.fs.files.length), s.mem⟩, ?_, hc,
        fun {fd' h} hslot => ?_⟩
      · simp [fileCall, hopen, hfd]
      · by_cases hfd' : fd' = fd
        · subst hfd'
          simp only [update_self, Option.some.injEq] at hslot
          subst hslot
          show ((s.fs.opened _).file _).isSome = true
          rw [s.fs.opened_file]
          rfl
        · simp only [update_of_ne hfd'] at hslot
          exact hsound.files hslot

theorem Sound.call (hs : s.Sound) {call : FileCall} (hh : s.Harmless call) :
    ∃ r s', fileCall s call = some (r, s') ∧ s'.Sound := by
  cases call with
  | create name size =>
    obtain ⟨r, fs', hcreate, heffect⟩ := createKeeps hs.fs name hh
    exact ⟨_, _, by simp only [fileCall, hcreate]; rfl, hs.effect heffect s.mem⟩
  | remove name =>
    obtain ⟨r, fs', hremove, heffect⟩ := hs.fs.remove name
    exact ⟨_, _, by simp only [fileCall, hremove]; rfl, hs.effect heffect s.mem⟩
  | openFile mem name => exact hs.openFile hh name
  | filesize fd =>
    cases hfd : s.fileOf fd with
    | none => exact ⟨some (-1), s, by simp only [fileCall, hfd], hs⟩
    | some h =>
      obtain ⟨file, hfile⟩ := hs.file hfd
      obtain ⟨ip, hip, -⟩ := hs.fs.inode (file_eq_some.mp hfile)
      refine ⟨some ip.data.length, s, ?_, hs⟩
      simp [fileCall, hfd, fileLength, hfile, hip]
  | read fd buffer size =>
    by_cases hkey : fd.toInt = 0
    · exact ⟨some size.toNat, s, by simp only [fileCall, if_pos hkey], hs⟩
    · cases hfd : s.fileOf fd with
      | none => exact ⟨some (-1), s, by simp only [fileCall, if_neg hkey, hfd], hs⟩
      | some h =>
        obtain ⟨file, hfile⟩ := hs.file hfd
        obtain ⟨n, mem, fs', hread, heffect⟩ := hs.fs.fileRead hfile s.mem buffer (offT size.toNat)
        refine ⟨some n, ⟨fs', s.files, mem⟩, ?_, hs.effect heffect mem⟩
        simp [fileCall, hkey, hfd, hread]
  | write fd buffer size =>
    by_cases hcons : fd.toInt = 1
    · exact ⟨some size.toNat, s, by simp only [fileCall, if_pos hcons], hs⟩
    · cases hfd : s.fileOf fd with
      | none => exact ⟨some (-1), s, by simp only [fileCall, if_neg hcons, hfd], hs⟩
      | some h =>
        obtain ⟨file, hfile⟩ := hs.file hfd
        obtain ⟨n, fs', hwrite, heffect⟩ := hs.fs.fileWrite hfile s.mem buffer (offT size.toNat)
        refine ⟨some n, ⟨fs', s.files, s.mem⟩, ?_, hs.effect heffect s.mem⟩
        simp [fileCall, hcons, hfd, hwrite]
  | seek fd position =>
    cases hfd : s.fileOf fd with
    | none => exact ⟨none, s, by simp only [fileCall, hfd], hs⟩
    | some h =>
      obtain ⟨file, hfile⟩ := hs.file hfd
      have hpos : 0 ≤ offT position.toNat := by
        rw [offT_nonneg]
        refine hh.resolve_right fun hnone => ?_
        rw [hfd] at hnone
        cases hnone
      obtain ⟨fs', hseek, heffect⟩ := hs.fs.fileSeek hfile hpos
      refine ⟨none, ⟨fs', s.files, s.mem⟩, ?_, hs.effect heffect s.mem⟩
      simp [fileCall, hfd, hseek]
  | tell fd =>
    cases hfd : s.fileOf fd with
    | none => exact ⟨some (-1), s, by simp only [fileCall, hfd], hs⟩
    | some h =>
      obtain ⟨file, hfile⟩ := hs.file hfd
      refine ⟨some file.pos, s, ?_, hs⟩
      simp [fileCall, hfd, fileTell, hfile]

theorem Sound.call_none (hs : s.Sound) {call : FileCall} (hh : ¬ s.Harmless call) :
    fileCall s call = none := by
  cases call with
  | create name size =>
    obtain ⟨hsize, hfree⟩ := not_or.mp hh
    have hneg : ¬ 0 ≤ offT size.toNat := fun h => hsize (offT_nonneg.mp h)
    have hnone : s.fs.create name (offT size.toNat) = none := by
      rw [← not_isSome_iff_eq_none, create_negative_iff hs.fs hneg]
      exact hfree
    simp [fileCall, hnone]
  | seek fd position =>
    obtain ⟨hpos, hopen⟩ := not_or.mp hh
    obtain ⟨h, hfd⟩ := ne_none_iff_exists'.mp hopen
    obtain ⟨file, hfile⟩ := hs.file hfd
    have hneg : ¬ 0 ≤ offT position.toNat := fun h => hpos (offT_nonneg.mp h)
    simp [fileCall, hfd, fileSeek, hfile, hneg]
  | openFile mem name =>
    have hnone : s.fs.openFileWith mem name = none := if_neg hh
    simp [fileCall, hnone]
  | remove _ | filesize _ | read _ _ _ | write _ _ _ | tell _ => exact absurd trivial hh

end FileState

/-- In every sound state, a file system call returns if and only if it is not a `seek` of an open
file to 2^31 or above, not a `create` with a size of 2^31 or above while there is a free sector, and not
an `open` for which `dir_open_root` gets no memory; and then the state is sound again. -/
theorem fileCall_returns_iff (s : FileState) (hs : s.Sound) (call : FileCall) :
    ((fileCall s call).isSome = true ↔ s.Harmless call) ∧
      ∀ r s', fileCall s call = some (r, s') → s'.Sound := by
  by_cases hh : s.Harmless call
  · obtain ⟨r, s', hcall, hs'⟩ := hs.call hh
    rw [hcall]
    refine ⟨iff_of_true rfl hh, fun r₁ s₁ h₁ => ?_⟩
    cases h₁
    exact hs'
  · rw [hs.call_none hh]
    exact ⟨iff_of_false nofun hh, nofun⟩

namespace Filesys

/-- The file `a` of 600 bytes is created and opened. -/
def createdOpen : List FsOp := [.create nameA 600, .openFile nameA]

theorem history_createdOpen :
    History smallDisk createdOpen (createdOpen.foldl (after Filesys.step) formatted) :=
  ⟨formatted, formatted_eq, runs_of_allows (fun _ _ => true) (fun _ _ _ => trivial) (by decide +kernel)⟩

/-- The first file of `fs` is open as descriptor 2. -/
def openedAs (fs : Filesys) : FileState := ⟨fs, fun fd => if fd = 2 then some 0 else none, fun _ => 0⟩

theorem sound_openedAs {fs : Filesys} (hc : fs.Consistent) (hfile : (fs.file 0).isSome = true) :
    (openedAs fs).Sound := by
  refine ⟨hc, fun {fd h} hfd => ?_⟩
  simp only [openedAs] at hfd
  split at hfd
  · cases hfd
    exact hfile
  · cases hfd

/-- `a` is open as descriptor 2. -/
def openA : FileState := openedAs (createdOpen.foldl (after Filesys.step) formatted)

theorem sound_openA : openA.Sound :=
  sound_openedAs (history_createdOpen.consistent (by decide)) (by decide +kernel)

theorem fileCall_returns_iff_tell : openA.Sound ∧ (fileCall openA (.tell 2)).isSome = true := by
  refine ⟨sound_openA, ?_⟩
  rw [(fileCall_returns_iff openA sound_openA (.tell 2)).1]
  unfold FileState.Harmless
  trivial

/-- `seek` to 2^31 fails the assertion of `file_seek`, `create` with that size the one of
`inode_create`, and `open` without memory for the root directory the one of `filesys_open`. -/
theorem negative_offT_panics :
    openA.Sound ∧ fileCall openA (.seek 2 2147483648) = none ∧
      fileCall openA (.create ⟨[98], by decide⟩ 2147483648) = none ∧
      fileCall openA (.openFile ⟨false, fun _ => true, true, true⟩ nameA) = none := by
  refine ⟨sound_openA, sound_openA.call_none ?_, sound_openA.call_none ?_,
    sound_openA.call_none nofun⟩
  · unfold FileState.Harmless
    decide +kernel
  · rintro (hsize | hfull)
    · exact absurd hsize (by decide)
    · exact absurd (hfull 15 (by decide +kernel)) (by decide +kernel)

end Filesys

end Pintos
