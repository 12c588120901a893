import Pintos.Filesys.Format
import Pintos.Lib.Runs

/-!
# Histories of the file system

A history starts from a disk that has been formatted and takes one operation after another. Every state
that is reached is consistent (`History.consistent`), from which follow

* `sectors_exclusive`: no two inodes have a sector in common, and operations do not disturb files they
  do not write;
* `create_unchanged_iff`: when a `filesys_create` that fails leaves everything as it was;
* `remount_same`: a boot without formatting finds the same files.
-/

namespace Pintos

open Lib Option

/-- What the caller of an operation owes: a size that is not negative, a file that is open. -/
def FsOp.Valid (fs : Filesys) : FsOp → Prop
  | .create _ initialSize => 0 ≤ initialSize.toInt
  | .openFile _ => True
  | .remove _ => True
  | .close h => (fs.file h).isSome = true
  | .read h _ _ _ => (fs.file h).isSome = true
  | .write h _ _ _ => (fs.file h).isSome = true
  | .seek h newPos => (fs.file h).isSome = true ∧ 0 ≤ newPos.toInt
  | .denyWrite h => (fs.file h).isSome = true

instance (fs : Filesys) (op : FsOp) : Decidable (op.Valid fs) := by
  cases op <;> unfold FsOp.Valid <;> infer_instance

/-- The inode that an operation writes. -/
def FsOp.writes (fs : Filesys) : FsOp → Nat → Prop
  | .write h _ _ _, k => ∃ file, fs.file h = some file ∧ k = file.inode
  | _, _ => False

/-- The file that it closes. -/
def FsOp.closes : FsOp → Nat → Prop
  | .close h, i => i = h
  | _, _ => False

namespace Filesys

variable {fs fs' : Filesys} {op : FsOp}

/-! ## Steps -/

theorem Consistent.step_valid (hc : fs.Consistent) (hv : op.Valid fs) :
    ∃ fs', fs.step op = some fs' ∧ fs.Effect fs' (op.writes fs) op.closes := by
  cases op with
  | create name initialSize =>
    have hv : 0 ≤ initialSize.toInt := hv
    obtain ⟨n, hn⟩ : ∃ n : Nat, initialSize.toInt = n := Int.eq_ofNat_of_zero_le hv
    have hlt : n < 2147483648 := by
      have hmax := initialSize.toInt_lt
      omega
    rcases hc.create name hlt with ⟨fs', leaked, hcreate, hundone, -⟩ |
      ⟨fs', -, hcreate, -, -, heffect, -⟩
    · refine ⟨fs', ?_, hundone.effect hc⟩
      simp only [Filesys.step, hn, hcreate, map_some]
    · refine ⟨fs', ?_, heffect⟩
      simp only [Filesys.step, hn, hcreate, map_some]
  | openFile name =>
    obtain ⟨r, fs', hopen, heffect⟩ := hc.openFile name
    refine ⟨fs', ?_, heffect⟩
    simp only [Filesys.step, hopen, map_some]
  | remove name =>
    obtain ⟨r, fs', hremove, heffect⟩ := hc.remove name
    refine ⟨fs', ?_, heffect⟩
    simp only [Filesys.step, hremove, map_some]
  | close h =>
    obtain ⟨file, hfile⟩ := isSome_iff_exists.mp hv
    obtain ⟨fs', hclose, heffect, -⟩ := hc.fileClose hfile
    exact ⟨fs', hclose, heffect⟩
  | read h m buffer size =>
    obtain ⟨file, hfile⟩ := isSome_iff_exists.mp hv
    obtain ⟨n, m', fs', hread, heffect⟩ := hc.fileRead hfile m buffer size.toInt
    refine ⟨fs', ?_, heffect⟩
    simp only [Filesys.step, hread, map_some]
  | write h m buffer size =>
    obtain ⟨file, hfile⟩ := isSome_iff_exists.mp hv
    obtain ⟨n, fs', hwrite, heffect⟩ := hc.fileWrite hfile m buffer size.toInt
    refine ⟨fs', ?_, heffect.mono fun k hk => ⟨file, hfile, hk⟩⟩
    simp only [Filesys.step, hwrite, map_some]
  | seek h newPos =>
    obtain ⟨file, hfile⟩ := isSome_iff_exists.mp hv.1
    exact hc.fileSeek hfile hv.2
  | denyWrite h =>
    obtain ⟨file, hfile⟩ := isSome_iff_exists.mp hv
    obtain ⟨fs', hdeny, heffect, -⟩ := hc.fileDenyWrite hfile
    exact ⟨fs', hdeny, heffect⟩

theorem Consistent.create_negative (hc : fs.Consistent) {name : Name} {n : Int} (hn : ¬ 0 ≤ n)
    {r : Bool} (h : fs.create name n = some (r, fs')) : fs' = fs := by
  have hopen := hc.openRoot
  rcases hc.mountedRoot.freeMapAllocate 1 with ⟨-, hnone⟩ | ⟨k, fs₁, -, hsome, -⟩
  · rw [create_eq_full hopen hnone hc.withRoot_close] at h
    cases h
    rfl
  · have hcreate : fs₁.inodeCreate k n = none := if_neg hn
    have hpanic : fs.create name n = none := by
      simp [Filesys.create, hopen, hsome, hcreate]
    rw [hpanic] at h
    cases h

theorem Consistent.step_invalid (hc : fs.Consistent) (hv : ¬ op.Valid fs)
    (h : fs.step op = some fs') : fs' = fs := by
  have hnone : ∀ {i}, ¬ (fs.file i).isSome = true → fs.file i = none :=
    fun hi => not_isSome_iff_eq_none.mp hi
  cases op with
  | create name initialSize =>
    obtain ⟨⟨r, fs₁⟩, hcreate, rfl⟩ := map_eq_some_iff.mp h
    exact hc.create_negative hv hcreate
  | openFile name => exact absurd trivial hv
  | remove name => exact absurd trivial hv
  | close i => simp [Filesys.step, Filesys.fileClose, hnone hv] at h
  | read i m buffer size => simp [Filesys.step, Filesys.fileRead, hnone hv] at h
  | write i m buffer size => simp [Filesys.step, Filesys.fileWrite, hnone hv] at h
  | seek i newPos =>
    cases hfile : fs.file i with
    | none => simp [Filesys.step, Filesys.fileSeek, hfile] at h
    | some file =>
      have hneg : ¬ 0 ≤ newPos.toInt := fun hpos => hv ⟨by rw [hfile]; rfl, hpos⟩
      simp [Filesys.step, Filesys.fileSeek, hfile, hneg] at h
  | denyWrite i => simp [Filesys.step, Filesys.fileDenyWrite, hnone hv] at h

theorem Consistent.step (hc : fs.Consistent) (h : fs.step op = some fs') :
    fs.Effect fs' (op.writes fs) op.closes := by
  by_cases hv : op.Valid fs
  · obtain ⟨fs₁, hstep, heffect⟩ := hc.step_valid hv
    rw [hstep] at h
    cases h
    exact heffect
  · cases hc.step_invalid hv h
    exact .mono (.of_memory hc rfl rfl (.of_eq rfl) fun _ hj => hj) fun _ => False.elim

/-! ## Runs -/

/-- The operations `ops` lead from the formatted disk `d` to `fs`. -/
def History (d : Block) (ops : List FsOp) (fs : Filesys) : Prop :=
  ∃ fs₀, init d true = some fs₀ ∧
    Runs (fun fs op fs' => fs.step op = some fs') (fun _ _ => True) fs₀ ops fs

theorem History.consistent {d : Block} {ops : List FsOp} (hd : d.Accepted) (h : History d ops fs) :
    fs.Consistent := by
  obtain ⟨fs₀, hinit, hrun⟩ := h
  have hbound : d.size + 31 < 4294967296 := by
    unfold Block.Accepted at hd
    omega
  exact hrun.invariant (fun hc _ hstep => (hc.step hstep).consistent) (init_consistent hbound hinit)

theorem Consistent.live_iff (hc : fs.Consistent) {k : Nat} (hk : IsFile k) :
    fs.Live k ↔ fs.Named k ∨ 0 < fs.handles k := by
  constructor
  · intro hlive
    refine (hlive.named_or_open hk).imp id fun hopen => ?_
    obtain ⟨ip, hip⟩ := isSome_iff_exists.mp hopen
    obtain ⟨hcnt, hpos⟩ := hc.openCnt hip hk
    exact hcnt ▸ hpos
  · rintro (hnamed | hpos)
    · exact .inr (.inr (.inl hnamed))
    · exact .inr (.inr (.inr (hc.handle hpos).2))

/-- In every state that is reached the live inodes and their data have sectors of their own, on the
device and marked in the free map; an operation changes no file but the one that it writes, and releases
the sectors of a file when the file goes. -/
theorem sectors_exclusive {d : Block} {ops : List FsOp} (hd : d.Accepted) (h : History d ops fs) :
    Owned (fs.device.owns fs.Live) fs.freeMap.used ∧ fs.freeMap.bitCnt = fs.device.size ∧
      (∀ {k ip}, fs.openInodes k = some ip → ip.data = fs.device.inodeAt k) ∧
      (∀ {k}, IsFile k → (fs.Live k ↔ fs.Named k ∨ 0 < fs.handles k)) ∧
      (∀ {op fs'}, fs.step op = some fs' → fs.Effect fs' (op.writes fs) op.closes) ∧
      ∀ {op}, op.Valid fs → (fs.step op).isSome = true := by
  have hc := h.consistent hd
  refine ⟨hc.mounted.laid.owned, hc.mounted.laid.size, ?_, hc.live_iff, hc.step, ?_⟩
  · exact fun hk => (hc.mounted.cached hk).2
  · intro op hv
    obtain ⟨fs', hstep, -⟩ := hc.step_valid hv
    rw [hstep]
    rfl

/-! A disk of 16 sectors. -/

def smallDisk : Block := ⟨16, fun _ _ => 0⟩

/-- What `filesys_init` makes of it. -/
def formatted : Filesys := (init smallDisk true).getD (blank smallDisk)

theorem formatted_eq : init smallDisk true = some formatted := by
  have hsome : (init smallDisk true).isSome = true := by decide +kernel
  obtain ⟨fs, hfs⟩ := isSome_iff_exists.mp hsome
  unfold formatted
  rw [hfs]
  rfl

/-- The name of the file `a`. -/
def nameA : Name := ⟨[97], by decide⟩

/-- A file of two sectors is created, opened and removed while it is open. -/
def removedOpen : List FsOp := [.create nameA 600, .openFile nameA, .remove nameA]

theorem history_removedOpen :
    History smallDisk removedOpen (removedOpen.foldl (after Filesys.step) formatted) :=
  ⟨formatted, formatted_eq, runs_of_allows (fun _ _ => true) (fun _ _ _ => trivial) (by decide +kernel)⟩

theorem sectors_exclusive_removedOpen :
    Owned ((removedOpen.foldl (after Filesys.step) formatted).device.owns
        (removedOpen.foldl (after Filesys.step) formatted).Live)
      (removedOpen.foldl (after Filesys.step) formatted).freeMap.used ∧
    ((removedOpen.foldl (after Filesys.step) formatted).openInodes 4).isSome = true := by
  refine ⟨(sectors_exclusive (by decide) history_removedOpen).1, ?_⟩
  decide +kernel

/-! ## What has been written stays -/

/-- The runs that do not close the file `h` and do not write the inode `k`. -/
abbrev Leaves (h k : Nat) : Filesys → List FsOp → Filesys → Prop :=
  Runs (fun fs op fs' => fs.step op = some fs') fun fs op => ¬ op.closes h ∧ ¬ op.writes fs k

theorem Consistent.leaves {ops : List FsOp} {h : Nat} {file : File} (hc : fs.Consistent)
    (hfile : fs.file h = some file) (hruns : Leaves h file.inode fs ops fs') :
    fs'.Consistent ∧ (∃ file', fs'.file h = some file' ∧ file'.inode = file.inode) ∧
      fs'.device.inodeAt file.inode = fs.device.inodeAt file.inode ∧
      ∀ o < (fs.device.inodeAt file.inode).length,
        fs'.device.byteFrom (fs.device.inodeAt file.inode).start o =
          fs.device.byteFrom (fs.device.inodeAt file.inode).start o := by
  generalize hk : file.inode = k at *
  induction hruns generalizing file with
  | nil fs => exact ⟨hc, ⟨file, hfile, hk⟩, rfl, fun _ _ => rfl⟩
  | cons hok hstep _ ih =>
    have he := hc.step hstep
    obtain ⟨ip, hip, hisFile⟩ := hc.inode (file_eq_some.mp hfile)
    rw [hk] at hip hisFile
    have hlive := (hc.mounted.cached hip).1
    obtain ⟨file₁, hfile₁, hk₁, -⟩ := he.files h file hfile hok.1
    obtain ⟨hc', hopen, hinode, hbytes⟩ := ih he.consistent hfile₁ (hk₁.trans hk)
    rw [he.inode hisFile hlive] at hinode hbytes
    exact ⟨hc', hopen, hinode, fun o ho =>
      (hbytes o ho).trans (he.bytes hc hisFile hlive hok.2 ho)⟩

theorem Consistent.fileWrite_bytes (hc : fs.Consistent) {h n : Nat} {file : File}
    (hfile : fs.file h = some file) {m : Mem} {buffer : Nat} {size : Int}
    (hwrite : fs.fileWrite h m buffer size = some (n, fs')) :
    ∃ file', fs'.file h = some file' ∧ file'.inode = file.inode ∧ fs'.Consistent ∧
      fs'.device.inodeAt file.inode = fs.device.inodeAt file.inode ∧
      (n = 0 ∨ file.pos + n ≤ (fs.device.inodeAt file.inode).length) ∧ ∀ i < n,
        fs'.device.byteFrom (fs.device.inodeAt file.inode).start (file.pos + i) = m (buffer + i) := by
  obtain ⟨ip, hip, hisFile⟩ := hc.inode (file_eq_some.mp hfile)
  have hlive := (hc.mounted.cached hip).1
  by_cases hdeny : ip.denyWriteCnt = 0
  · obtain ⟨d, heq, hwrote, -, he⟩ := hc.fileWrite_allowed hfile hip hdeny m buffer size rfl
    rw [hwrite] at heq
    cases heq
    obtain ⟨file', hfile', hk, -⟩ := he.files h file hfile id
    refine ⟨file', hfile', hk, he.consistent, he.inode hisFile hlive, ?_, fun i hi => ?_⟩
    · unfold sliceLength
      omega
    · rw [hwrote.byteFrom, if_pos (by omega)]
      congr 2
      omega
  · obtain ⟨fs₂, heq, he⟩ := hc.fileWrite_denied hfile hip hdeny m buffer size
    rw [hwrite] at heq
    cases heq
    obtain ⟨file', hfile', hk, -⟩ := he.files h file hfile id
    exact ⟨file', hfile', hk, he.consistent, he.inode hisFile hlive, .inl rfl, by simp⟩

/-- **What has been written is read back.** As long as the file that wrote stays open and nobody
writes its inode again, other operations may remove its name, create and write other files and open
and close files on it: every file on the inode finds what was written at its place. -/
theorem written_is_read {d : Block} {ops ops' : List FsOp} (hd : d.Accepted) (hh : History d ops fs)
    {fs₁ : Filesys} {h n : Nat} {file : File} (hfile : fs.file h = some file) {m : Mem} {buffer : Nat}
    {size : Int} (hwrite : fs.fileWrite h m buffer size = some (n, fs₁))
    (hruns : Leaves h file.inode fs₁ ops' fs') {h' : Nat} {file' : File}
    (hfile' : fs'.file h' = some file') (hk : file'.inode = file.inode) (hpos : file'.pos = file.pos)
    (m' : Mem) (buffer' : Nat) :
    ∃ fs'', fs'.fileRead h' m' buffer' n =
      some (n, m'.write buffer' n fun i => m (buffer + i), fs'') := by
  have hc := hh.consistent hd
  obtain ⟨file₁, hfile₁, hk₁, hc₁, hinode₁, hn, hbytes₁⟩ := hc.fileWrite_bytes hfile hwrite
  rw [← hk₁] at hruns
  obtain ⟨hc', -, hinode', hbytes'⟩ := hc₁.leaves hfile₁ hruns
  rw [hk₁, hinode₁] at hinode' hbytes'
  obtain ⟨ip', hip', -⟩ := hc'.inode (file_eq_some.mp hfile')
  have hread := hc'.mounted.inodeReadAt hip' m' buffer' n file'.pos
  rw [hk, hinode', hpos] at hread
  have hslice : sliceLength (fs.device.inodeAt file.inode).length n file.pos = n := by
    unfold sliceLength
    omega
  rw [hslice, Mem.write_congr fun i hi => (hbytes' _ (by omega)).trans (hbytes₁ i hi)] at hread
  simp [fileRead, hfile', hk, hpos, hread]

def openedA : Filesys := [.create nameA 600, .openFile nameA].foldl (after Filesys.step) formatted

def wroteA : Filesys := after Filesys.step openedA (.write 0 (fun _ => 7) 0 600)

/-- Its name is removed and given to another file. -/
def renewed : List FsOp := [.remove nameA, .create nameA 512, .seek 0 0]

theorem written_is_read_renewed :
    ∃ fs', (renewed.foldl (after Filesys.step) wroteA).fileRead 0 (fun _ => 0) 0 600 =
      some (600, Mem.write (fun _ => 0) 0 600 fun _ => 7, fs') := by
  have hh : History smallDisk [.create nameA 600, .openFile nameA] openedA :=
    ⟨formatted, formatted_eq,
      runs_of_allows (fun _ _ => true) (fun _ _ _ => trivial) (by decide +kernel)⟩
  have hfile : openedA.file 0 = some ⟨4, 0, false⟩ := by decide +kernel
  have hn : (openedA.fileWrite 0 (fun _ => 7) 0 600).map Prod.fst = some 600 := by decide +kernel
  obtain ⟨⟨n, fs₁⟩, hwrite, rfl⟩ := map_eq_some_iff.mp hn
  have hfs₁ : fs₁ = wroteA := by
    have hsize : (600 : Int32).toInt = 600 := by decide
    simp [wroteA, after, Filesys.step, hsize, hwrite]
  rw [hfs₁] at hwrite
  have hruns : Leaves 0 4 wroteA renewed (renewed.foldl (after Filesys.step) wroteA) := by
    simp only [renewed, List.foldl_cons, List.foldl_nil]
    refine .cons ⟨id, id⟩ (after_eq_some (by decide +kernel)) ?_
    refine .cons ⟨id, id⟩ (after_eq_some (by decide +kernel)) ?_
    exact .cons ⟨id, id⟩ (after_eq_some (by decide +kernel)) (.nil _)
  have hfile' : (renewed.foldl (after Filesys.step) wroteA).file 0 = some ⟨4, 0, false⟩ := by
    decide +kernel
  exact written_is_read (by decide) hh hfile hwrite hruns hfile' rfl rfl _ 0

/-! ## Creating a file in vain -/

/-- The free map in memory and on the disk, the root directory and the files are as they were. -/
structure Unchanged (fs fs' : Filesys) : Prop where
  freeMap : ∀ s, bitmapTest fs'.freeMap s = bitmapTest fs.freeMap s
  onDisk : ∀ i < byteCnt fs.freeMap.bitCnt,
    fs'.device.byteFrom (fs'.device.inodeAt freeMapSector).start i =
      fs.device.byteFrom (fs.device.inodeAt freeMapSector).start i
  directory : fs.SameRoot fs'
  inode : ∀ {k}, IsFile k → fs.Live k → fs'.device.inodeAt k = fs.device.inodeAt k
  bytes : ∀ {k o}, IsFile k → fs.Live k → o < (fs.device.inodeAt k).length →
    fs'.device.byteFrom (fs.device.inodeAt k).start o =
      fs.device.byteFrom (fs.device.inodeAt k).start o

theorem Undone.unchanged (hc : fs.Consistent) {leaked : Nat → Prop} (hu : fs.Undone fs' leaked)
    (hnone : ∀ s, ¬ leaked s) : fs.Unchanged fs' := by
  have heffect := hu.effect hc
  have hbits : ∀ s, bitmapTest fs'.freeMap s = bitmapTest fs.freeMap s := by
    intro s
    rw [Bool.eq_iff_iff, hu.bits, or_iff_left (hnone s)]
  have hmap : fs'.freeMap = fs.freeMap := Bitmap.ext_bits hu.memory.bitCnt hbits
  refine ⟨hbits, fun i hi => ?_, hu.sameRoot hc, heffect.inode, fun hk hlive ho => ?_⟩
  · rw [hc.synced i hi, ← hmap]
    exact hu.synced i (hmap ▸ hi)
  · exact heffect.bytes hc hk hlive id ho

/-- A `filesys_create` that fails leaves everything as it was, unless there is room on the disk for the
data of the file and the root directory does not take its name: the sectors of the data stay marked. -/
theorem create_unchanged_iff (hc : fs.Consistent) (name : Name) {n : Nat} (hn : n < 2147483648) :
    (∀ fs', fs.create name n = some (false, fs') → fs.Unchanged fs') ↔
      n = 0 ∨ ¬ fs.HasRoom n ∨ CanAdd fs.device rootDirSector name.1 := by
  rcases hc.create name hn with ⟨fs', leaked, hcreate, hundone, hwhy⟩ |
    ⟨fs', -, hcreate, -, hcan, -⟩
  · rw [hcreate]
    constructor
    · intro hsame
      have hunchanged := hsame fs' rfl
      by_contra hnot
      rw [not_or, not_or, not_not] at hnot
      obtain ⟨hpos, hroom, -⟩ := hnot
      rcases hwhy with ⟨hnoroom, -⟩ | ⟨-, -, start, rfl⟩
      · exact hnoroom hroom
      · -- the first sector of the data
        have hin : InGroup start (bytesToSectors n) start :=
          ⟨Nat.le_refl start, Nat.lt_add_of_pos_right (bytesToSectors_pos (by omega) hn)⟩
        have hset := (hundone.bits start).mpr (.inr hin)
        rw [hunchanged.freeMap, hundone.clear hin] at hset
        cases hset
    · intro hcond fs₁ heq
      cases heq
      refine hundone.unchanged hc ?_
      rcases hwhy with ⟨-, hnone⟩ | ⟨hroom, hcannot, start, rfl⟩
      · exact hnone
      · have hzero : n = 0 := by
          rcases hcond with hzero | hnoroom | hcan
          · exact hzero
          · exact absurd hroom hnoroom
          · exact absurd hcan hcannot
        subst hzero
        rw [bytesToSectors_zero]
        intro s hs
        unfold InGroup at hs
        omega
  · rw [hcreate]
    exact iff_of_true nofun (.inr (.inr hcan))

/-- A file without a name and without data. -/
theorem create_unchanged_iff_noData : ∃ fs',
    formatted.create ⟨[], by decide⟩ 0 = some (false, fs') ∧ formatted.Unchanged fs' := by
  have hrun : (formatted.create ⟨[], by decide⟩ 0).map Prod.fst = some false := by decide +kernel
  obtain ⟨⟨r, fs'⟩, hcreate, hr⟩ := map_eq_some_iff.mp hrun
  have hr : r = false := hr
  subst hr
  have hsame := (create_unchanged_iff (init_consistent (by decide) formatted_eq) ⟨[], by decide⟩
    (show 0 < 2147483648 by decide)).mpr (.inl rfl)
  exact ⟨fs', hcreate, hsame fs' hcreate⟩

/-- A file without a name: its sector 5 is marked, and no file has it. -/
theorem create_leaks : ∃ fs', formatted.create ⟨[], by decide⟩ 512 = some (false, fs') ∧
    bitmapTest formatted.freeMap 5 = false ∧ bitmapTest fs'.freeMap 5 = true ∧
    ¬ formatted.Unchanged fs' := by
  have hrun : (formatted.create ⟨[], by decide⟩ 512).map
      (fun r => (r.1, bitmapTest r.2.freeMap 5)) = some (false, true) := by decide +kernel
  have hfree : bitmapTest formatted.freeMap 5 = false := by decide +kernel
  obtain ⟨⟨r, fs'⟩, hcreate, hr⟩ := map_eq_some_iff.mp hrun
  obtain ⟨rfl, hset⟩ := Prod.mk.inj hr
  refine ⟨fs', hcreate, hfree, hset, fun hsame => ?_⟩
  rw [hsame.freeMap, hfree] at hset
  cases hset

/-! ## Booting again -/

end Filesys

open Filesys

/-- The file with its inode in sector `k`: the sector, the length and the bytes. -/
def Block.fileAt (d : Block) (k : Nat) : Nat × Nat × Mem :=
  (k, (d.inodeAt k).length, Mem.write (fun _ => 0) 0 (d.inodeAt k).length
    fun i => d.byteFrom (d.inodeAt k).start (0 + i))

namespace Filesys

variable {fs fs' : Filesys}

/-- What a program sees of the file with this name: the sector of its inode, its length and its bytes. -/
def stat (fs : Filesys) (name : Name) : Option (Option (Nat × Nat × Mem)) := do
  let (h, fs) ← fs.openFile name
  match h with
  | none => return none
  | some h =>
    let file ← fs.file h
    let length ← fs.fileLength h
    let (_, m, _) ← fs.fileRead h (fun _ => 0) 0 length
    return some (file.inode, length, m)

theorem stat_eq_some {name : Name} {h n : Nat} {file : File} {length : Nat} {m : Mem}
    (hopen : fs.openFile name = some (some h, fs')) (hfile : fs'.file h = some file)
    (hlength : fs'.fileLength h = some length)
    (hread : fs'.inodeReadAt true file.inode (fun _ => 0) 0 length file.pos = some (n, m)) :
    fs.stat name = some (some (file.inode, length, m)) := by
  simp [stat, hopen, hfile, hlength, fileRead, hread]

theorem Consistent.opened_length (hc : fs.Consistent) (k : Nat) :
    (fs.opened k).fileLength fs.files.length = some (fs.device.inodeAt k).length := by
  have hip : (fs.opened k).openInodes k = some (fs.reopened k) := by
    show (fs.setInode k (some (fs.reopened k))).openInodes k = _
    exact setInode_self
  simp [fileLength, fs.opened_file, hip, hc.mounted.reopened_data]

theorem Consistent.stat_eq (hc : fs.Consistent) {name : Name} {r : Option (Mem × Nat)}
    (hr : fs.withRoot.lookup Mallocs.all.lookup rootDirSector name.1 = some r) :
    fs.stat name = some (r.map fun p => fs.device.fileAt (DirEntry.inodeSector p.1)) := by
  rcases hc.lookupRoot name with ⟨i, e, hfound, -, -, -, hnamed⟩ | hnone
  · rw [hfound] at hr
    cases hr
    have hopen := hc.openFile_some hfound hnamed
    obtain ⟨hc', -⟩ := hc.opened hnamed
    show fs.stat name = some (some (fs.device.fileAt (DirEntry.inodeSector e)))
    generalize DirEntry.inodeSector e = k at *
    have hip : (fs.opened k).openInodes k = some (fs.reopened k) := by
      show (fs.setInode k (some (fs.reopened k))).openInodes k = _
      exact setInode_self
    have hfile := fs.opened_file (k := k)
    have hslice : sliceLength (fs.device.inodeAt k).length (fs.device.inodeAt k).length 0 =
        (fs.device.inodeAt k).length := by
      unfold sliceLength
      omega
    have hdevice : (fs.opened k).device = fs.device := rfl
    have hread := hc'.mounted.inodeReadAt hip (fun _ => 0) 0 (fs.device.inodeAt k).length 0
    rw [hdevice, hslice] at hread
    exact stat_eq_some hopen hfile (hc.opened_length k) hread
  · rw [hnone] at hr
    cases hr
    simp [stat, hc.openFile_none hnone]

theorem lookupFrom_congr {malloc : Nat → Bool} {dir : Nat} {name : List UInt8}
    (hdevice : fs'.device = fs.device) (hdir : fs'.openInodes dir = fs.openInodes dir)
    (fuel i : Nat) (e : Mem) :
    fs'.lookupFrom malloc dir name fuel i e = fs.lookupFrom malloc dir name fuel i e := by
  have hread : ∀ i e, fs'.inodeReadAt (malloc i) dir e 0 20 (20 * i) =
      fs.inodeReadAt (malloc i) dir e 0 20 (20 * i) := by
    intro i e
    unfold inodeReadAt
    rw [hdevice, hdir]
  induction fuel generalizing i e with
  | zero => rfl
  | succ fuel ih => simp only [lookupFrom, hread, ih]

theorem lookup_congr {malloc : Nat → Bool} {dir : Nat} {name : List UInt8}
    (hdevice : fs'.device = fs.device) (hdir : fs'.openInodes dir = fs.openInodes dir) :
    fs'.lookup malloc dir name = fs.lookup malloc dir name := by
  unfold lookup
  rw [lookupFrom_congr hdevice hdir]
  unfold dirRounds
  rw [hdir]

theorem Consistent.stat_congr (hc : fs.Consistent) (hc' : fs'.Consistent)
    (hdevice : fs'.device = fs.device) (name : Name) :
    (fs.stat name).isSome = true ∧ fs'.stat name = fs.stat name := by
  have hlookup : fs'.withRoot.lookup Mallocs.all.lookup rootDirSector name.1 =
      fs.withRoot.lookup Mallocs.all.lookup rootDirSector name.1 := by
    refine lookup_congr hdevice ?_
    rw [withRoot_root, withRoot_root]
    unfold rootInode
    rw [hdevice]
  obtain ⟨r, hr⟩ : ∃ r, fs.withRoot.lookup Mallocs.all.lookup rootDirSector name.1 = some r := by
    rcases hc.lookupRoot name with ⟨i, e, hfound, -⟩ | hnone
    · exact ⟨_, hfound⟩
    · exact ⟨_, hnone⟩
  rw [hc.stat_eq hr, hc'.stat_eq (hlookup.trans hr), hdevice]
  exact ⟨rfl, rfl⟩

/-- After any history a boot without formatting finds the free map, the names and the files as they
were. -/
theorem remount_same {d : Block} {ops : List FsOp} (hd : d.Accepted) (h : History d ops fs) :
    ∃ fs', init fs.device false = some fs' ∧ fs'.freeMap = fs.freeMap ∧
      ∀ name, (fs.stat name).isSome = true ∧ fs'.stat name = fs.stat name := by
  have hc := h.consistent hd
  exact ⟨fs.remounted, hc.remount, rfl, hc.stat_congr hc.remounted rfl⟩

theorem remount_same_removedOpen :
    ∃ fs', init (removedOpen.foldl (after Filesys.step) formatted).device false = some fs' ∧
      fs'.freeMap = (removedOpen.foldl (after Filesys.step) formatted).freeMap := by
  obtain ⟨fs', hinit, hmap, -⟩ := remount_same (by decide) history_removedOpen
  exact ⟨fs', hinit, hmap⟩

end Filesys

end Pintos
