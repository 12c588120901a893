import Mathlib.Data.Finset.Card
import Mathlib.Data.List.TakeWhile
import Pintos.Filesys.History
import Pintos.Filesys.Ustar

/-!
# Files through the scratch device (`filesys/fsutil.c`)

`fsutil_append` writes the header of a file and its sectors behind what it has written before, and then
the end of the archive. `fsutil_extract` goes through the archive and puts its files into the file
system. A memory that has been allocated is given with what lies behind it.
-/

namespace Pintos

open Lib Option Mem Block

/-! ## The code -/

/-- The loop of `fsutil_append`. -/
def appendLoop (src : Nat) (fs : Filesys) (dst : Block) (sector size : Nat) (buffer : Mem) :
    Option (Filesys × Block × Nat × Mem) :=
  if 0 < size then
    let chunkSize := if 512 < size then 512 else size
    if dst.size ≤ sector then none
    else do
      let (n, buffer, fs) ← fs.fileRead src buffer 0 chunkSize
      if n ≠ chunkSize then none
      else
        let buffer := buffer.fill chunkSize (512 - chunkSize) 0
        let dst ← blockWrite dst sector buffer 0
        appendLoop src fs dst (sector + 1) (size - chunkSize) buffer
  else some (fs, dst, sector, buffer)
termination_by size
decreasing_by split <;> omega

/-- The file system that files are appended from, the scratch device and the static `sector`. -/
structure Appender where
  fs : Filesys
  scratch : Block
  sector : Nat

/-- `fsutil_append`; `none` is a panic. The end marker is written twice to one sector, the second time
from `buffer + 1`. -/
def fsutilAppend (s : Appender) (fileName : Name) (buffer : Mem) : Option Appender := do
  let (src, fs) ← s.fs.openFile fileName
  let src ← src
  let size ← fs.fileLength src
  let buffer ← ustarMakeHeader fileName.1 .regular size buffer
  let dst ← blockWrite s.scratch s.sector buffer 0
  let (fs, dst, sector, buffer) ← appendLoop src fs dst (s.sector + 1) size buffer
  let buffer := buffer.fill 0 512 0
  let dst ← blockWrite dst sector buffer 0
  let dst ← blockWrite dst sector buffer 1
  let fs ← fs.fileClose src
  return ⟨fs, dst, sector⟩

/-- One `fsutil_append` after the other, each with the memory of its own buffer. -/
def appendAll (s : Appender) : List (Name × Mem) → Option Appender
  | [] => some s
  | (fileName, buffer) :: rest => do
      let s ← fsutilAppend s fileName buffer
      appendAll s rest

/-- The copying loop of `fsutil_extract`. -/
def copyLoop (dst : Nat) (src : Block) (fs : Filesys) (sector size : Nat) (data : Mem) :
    Option (Filesys × Nat × Mem) :=
  if 0 < size then
    let chunkSize := if 512 < size then 512 else size
    do
      let data ← blockRead src sector data 0
      let (n, fs) ← fs.fileWrite dst data 0 chunkSize
      if n ≠ chunkSize then none
      else copyLoop dst src fs (sector + 1) (size - chunkSize) data
  else some (fs, sector, data)
termination_by size
decreasing_by split <;> omega

/-- `fsutil_extract` for a regular file with its header before `sector`. -/
def extractFile (src : Block) (fs : Filesys) (sector : Nat) (fileName : Name) (size : Nat)
    (data : Mem) : Option (Filesys × Nat × Mem) := do
  let (created, fs) ← fs.create fileName size
  if created then
    let (dst, fs) ← fs.openFile fileName
    let dst ← dst
    let (fs, sector, data) ← copyLoop dst src fs sector size data
    let fs ← fs.fileClose dst
    return (fs, sector, data)
  else none

/-- The C string that starts with these bytes. -/
def cName (s : List UInt8) : Name :=
  ⟨s.takeWhile (· ≠ 0), fun h => by simpa using List.mem_takeWhile_imp h⟩

/-- The loop of `fsutil_extract`, which ends at the end of the archive or of the device. -/
def extractFrom (src : Block) : Nat → Filesys → Nat → Mem → Mem → Option Filesys
  | 0, _, _, _, _ => none
  | fuel + 1, fs, sector, header, data => do
      let header ← blockRead src sector header 0
      match ustarParseHeader header with
      | .error _ => none
      | .ok entry =>
        match entry.type with
        | .eof => return fs
        | .directory => extractFrom src fuel fs (sector + 1) header data
        | .regular =>
          let fileName ← entry.fileName
          let (fs, sector, data) ← extractFile src fs (sector + 1) (cName fileName) entry.size data
          extractFrom src fuel fs sector header data

/-- `fsutil_extract` after a boot, with the memory of its two buffers; each round reads a sector. -/
def fsutilExtract (fs : Filesys) (src : Block) (header data : Mem) : Option (Filesys × Block) := do
  let fs ← extractFrom src (src.size + 1) fs 0 header data
  let header := header.fill 0 512 0
  let src ← blockWrite src 0 header 0
  let src ← blockWrite src 1 header 0
  return (fs, src)

/-! ## Archives -/

/-- A file: its name, its length and its bytes, with zeros behind them. -/
structure Archived where
  name : Name
  size : Nat
  bytes : Mem

/-- The sectors of a file behind its header. -/
def Archived.sectors (f : Archived) : Nat := (f.size + 511) / 512

/-- The files from a sector of the device up to another. -/
inductive Archive (d : Block) : Nat → List Archived → Nat → Prop
  | nil (s : Nat) : Archive d s [] s
  | cons {s e : Nat} {f : Archived} {fs : List Archived} (hhead : Heads (d.data s) f.name.1 .regular f.size)
      (hbytes : ∀ o < f.size, d.byteFrom (s + 1) o = f.bytes o)
      (hrest : Archive d (s + 1 + f.sectors) fs e) : Archive d s (f :: fs) e

theorem Archive.le {d : Block} {s e : Nat} {files : List Archived} (h : Archive d s files e) :
    s ≤ e := by
  induction h with
  | nil s => exact Nat.le_refl s
  | cons _ _ _ ih => omega

theorem Archive.congr {d d' : Block} {s e : Nat} {files : List Archived} (h : Archive d s files e)
    (hsame : ∀ s < e, ∀ o < 512, d'.data s o = d.data s o) : Archive d' s files e := by
  induction h with
  | nil s => exact .nil s
  | @cons s e f fs hhead hbytes hrest ih =>
    have hle := hrest.le
    refine .cons (hhead.congr fun i hi => hsame s (by omega) i hi) (fun o ho => ?_) (ih hsame)
    rw [← hbytes o ho]
    unfold Archived.sectors at hle
    exact hsame _ (by omega) _ (Nat.mod_lt o (by omega))

theorem Archive.snoc {d : Block} {s e : Nat} {files : List Archived} {f : Archived}
    (h : Archive d s files e) (hhead : Heads (d.data e) f.name.1 .regular f.size)
    (hbytes : ∀ o < f.size, d.byteFrom (e + 1) o = f.bytes o) :
    Archive d s (files ++ [f]) (e + 1 + f.sectors) := by
  induction h with
  | nil s => exact .cons hhead hbytes (.nil _)
  | cons hhead' hbytes' _ ih => exact .cons hhead' hbytes' (ih hhead hbytes)

/-! ## Appending -/

theorem blockWrite_inside {d : Block} {sector : Nat} (h : sector < d.size) (m : Mem) (a : Nat) :
    ∃ d', blockWrite d sector m a = some d' ∧ d'.size = d.size ∧
      ∀ s o, d'.data s o = if s = sector then m (a + o) else d.data s o :=
  ⟨_, blockWrite_eq h, (blockWrite_some (blockWrite_eq h)).2⟩

namespace Filesys

variable {fs : Filesys} {h : Nat} {file : File}

theorem Consistent.fileRead_inside (hc : fs.Consistent) (hfile : fs.file h = some file) (m : Mem)
    {n : Nat} (hn : file.pos + n ≤ (fs.device.inodeAt file.inode).length) :
    fs.fileRead h m 0 n = some (n,
      m.write 0 n fun i => fs.device.byteFrom (fs.device.inodeAt file.inode).start (file.pos + i),
      { fs with files := fs.files.set h (some { file with pos := file.pos + n }) }) := by
  obtain ⟨ip, hip, -⟩ := hc.inode (file_eq_some.mp hfile)
  have hread := hc.mounted.inodeReadAt hip m 0 n file.pos
  have hslice : sliceLength (fs.device.inodeAt file.inode).length n file.pos = n := by
    unfold sliceLength
    omega
  rw [hslice] at hread
  simp [Filesys.fileRead, hfile, hread]

theorem file_of_set {fs' : Filesys} {file' : File} (hfile : fs.file h = some file)
    (hset : fs'.files = fs.files.set h (some file')) : fs'.file h = some file' := by
  rw [file_eq_some, hset]
  exact List.getElem?_set_self (List.getElem?_eq_some_iff.mp (file_eq_some.mp hfile)).choose

end Filesys

open Filesys

/-- One round of the copying loops: the piece, and the rounds that are left. -/
theorem chunk_round {size rounds chunk : Nat} (hrounds : (size + 511) / 512 = rounds + 1)
    (hchunk : (if 512 < size then 512 else size) = chunk) :
    0 < size ∧ chunk ≤ 512 ∧ chunk ≤ size ∧ (size - chunk ≠ 0 → chunk = 512) ∧
      (size - chunk + 511) / 512 = rounds := by
  split at hchunk
  · omega
  · have hrest : size - chunk = 0 := by omega
    rw [hrest]
    omega

theorem appendLoop_some {h : Nat} {fs : Filesys} {file : File} {dst : Block} {sector size : Nat}
    {buffer : Mem} (hc : fs.Consistent) (hfile : fs.file h = some file)
    (hsize : file.pos + size = (fs.device.inodeAt file.inode).length)
    (hroom : sector + (size + 511) / 512 ≤ dst.size) :
    ∃ fs' pos dst' buffer', appendLoop h fs dst sector size buffer =
        some (fs', dst', sector + (size + 511) / 512, buffer') ∧
      fs'.Consistent ∧ fs'.device = fs.device ∧ fs'.file h = some { file with pos } ∧
      dst'.size = dst.size ∧
      (∀ s o, s < sector ∨ sector + (size + 511) / 512 ≤ s → dst'.data s o = dst.data s o) ∧
      (∀ o < size, dst'.byteFrom sector o =
        fs.device.byteFrom (fs.device.inodeAt file.inode).start (file.pos + o)) ∧
      (∀ o, size ≤ o → o < 512 * ((size + 511) / 512) → dst'.byteFrom sector o = 0) ∧
      ∀ i, 512 ≤ i → buffer' i = buffer i := by
  -- by induction on the rounds that are left
  induction hrounds : (size + 511) / 512 generalizing fs file dst sector size buffer with
  | zero =>
    have hnone : ¬ 0 < size := by omega
    refine ⟨fs, file.pos, dst, buffer, ?_, hc, rfl, hfile, rfl, fun _ _ _ => rfl, ?_, ?_, fun _ _ => rfl⟩
    · rw [appendLoop, if_neg hnone]
      rfl
    · intro o ho
      omega
    · intro o _ ho
      omega
  | succ rounds ih =>
    obtain ⟨chunk, hchunk⟩ : ∃ chunk, (if 512 < size then 512 else size) = chunk := ⟨_, rfl⟩
    obtain ⟨hsome, hle, hfits, hlast, hrest⟩ := chunk_round hrounds hchunk
    have hread := hc.fileRead_inside hfile buffer (show file.pos + chunk ≤ _ by omega)
    obtain ⟨hc₁, -⟩ := hc.movePos (file_eq_some.mp hfile) (file.pos + chunk)
    have hfile₁ := @file_of_set fs h file
      { fs with files := fs.files.set h (some { file with pos := file.pos + chunk }) } _ hfile rfl
    -- the sector that is written in this round
    obtain ⟨buffer₁, hbuffer₁⟩ : ∃ buffer₁, fill (buffer.write 0 chunk fun i =>
        fs.device.byteFrom (fs.device.inodeAt file.inode).start (file.pos + i))
        chunk (512 - chunk) 0 = buffer₁ := ⟨_, rfl⟩
    have hin : ∀ i < chunk, buffer₁ i =
        fs.device.byteFrom (fs.device.inodeAt file.inode).start (file.pos + i) := by
      intro i hi
      rw [← hbuffer₁, fill_out (.inl hi), write_in (Nat.zero_le i) (by omega), Nat.sub_zero]
    have hpad₁ : ∀ i, chunk ≤ i → i < 512 → buffer₁ i = 0 := by
      intro i hlow hhigh
      rw [← hbuffer₁]
      exact write_in hlow (by omega)
    have hbehind : ∀ i, 512 ≤ i → buffer₁ i = buffer i := by
      intro i hi
      rw [← hbuffer₁, fill_out (.inr (by omega)), write_out (.inr (by omega))]
    obtain ⟨dst₁, hwrite, hdsize, hdata⟩ :=
      blockWrite_inside (show sector < dst.size by omega) buffer₁ 0
    obtain ⟨fs', pos, dst', buffer', hloop, hc', hdevice, hfile', hsize', hother, hbytes, hpad,
      hbuffer'⟩ := @ih _ _ dst₁ (sector + 1) (size - chunk) buffer₁ hc₁ hfile₁
        (by
          show file.pos + chunk + (size - chunk) = (fs.device.inodeAt file.inode).length
          omega) (by rw [hdsize]; omega) hrest
    have hbytes : ∀ o < size - chunk, dst'.byteFrom (sector + 1) o =
        fs.device.byteFrom (fs.device.inodeAt file.inode).start (file.pos + chunk + o) := hbytes
    refine ⟨fs', pos, dst', buffer', ?_, hc', hdevice, hfile', hsize'.trans hdsize, ?_, ?_, ?_, ?_⟩
    · have hend : sector + 1 + rounds = sector + (rounds + 1) := by omega
      rw [hend] at hloop
      rw [appendLoop, if_pos hsome]
      simp only [hchunk]
      rw [if_neg (by omega), hread]
      simp only [bind_eq_bind, bind_some, ne_eq, not_true_eq_false, if_false, hbuffer₁, hwrite]
      exact hloop
    · intro s o hs
      rw [hother s o (by omega), hdata, if_neg (by omega)]
    · intro o ho
      by_cases hfirst : o < 512
      · have hchunk' : o < chunk := by
          by_cases hzero : size - chunk = 0
          · omega
          · have h512 := hlast hzero
            omega
        rw [byteFrom_first _ _ hfirst, hother sector o (by omega), hdata, if_pos rfl,
          Nat.zero_add, hin o hchunk']
      · obtain ⟨o', rfl⟩ : ∃ o', o = 512 + o' := ⟨o - 512, by omega⟩
        have h512 := hlast (by omega)
        rw [byteFrom_add, hbytes o' (by omega), h512, Nat.add_assoc]
    · intro o hlow hhigh
      by_cases hfirst : o < 512
      · rw [byteFrom_first _ _ hfirst, hother sector o (by omega), hdata, if_pos rfl,
          Nat.zero_add, hpad₁ o (by omega) hfirst]
      · obtain ⟨o', rfl⟩ : ∃ o', o = 512 + o' := ⟨o - 512, by omega⟩
        rw [byteFrom_add]
        exact hpad o' (by omega) (by omega)
    · intro i hi
      rw [hbuffer' i hi, hbehind i hi]

/-- The file system has this file. -/
def Filesys.Has (fs : Filesys) (f : Archived) : Prop :=
  ∃ k, fs.stat f.name = some (some (k, f.size, f.bytes))

theorem Filesys.Has.found {fs : Filesys} {f : Archived} (hf : fs.Has f) (hc : fs.Consistent) :
    ∃ i e, fs.withRoot.lookup Mallocs.all.lookup rootDirSector f.name.1 = some (some (e, i)) ∧
      fs.Named (DirEntry.inodeSector e) ∧
      (fs.device.inodeAt (DirEntry.inodeSector e)).length = f.size ∧
      ∀ o < f.size,
        fs.device.byteFrom (fs.device.inodeAt (DirEntry.inodeSector e)).start o = f.bytes o := by
  obtain ⟨k, hstat⟩ := hf
  rcases hc.lookupRoot f.name with ⟨i, e, hfound, -, -, -, hnamed⟩ | hnone
  · rw [hc.stat_eq hfound, map_some] at hstat
    have heq := Option.some.inj (Option.some.inj hstat)
    unfold fileAt at heq
    obtain ⟨-, heq⟩ := Prod.mk.inj heq
    obtain ⟨hsize, hbytes⟩ := Prod.mk.inj heq
    refine ⟨i, e, hfound, hnamed, hsize, fun o ho => ?_⟩
    rw [← hbytes, write_in (Nat.zero_le o) (by omega), Nat.sub_zero, Nat.zero_add]
  · rw [hc.stat_eq hnone] at hstat
    cases hstat

/-- The end of an archive as `fsutil_append` leaves it. -/
def Block.EndsWith (d : Block) (sector : Nat) (last : UInt8) : Prop :=
  ∀ o < 512, d.data sector o = if o = 511 then last else 0

/-- What an append does to the scratch device. -/
structure Appends (s s' : Appender) (f : Archived) (header : Mem) (last : UInt8) : Prop where
  consistent : s'.fs.Consistent
  device : s'.fs.device = s.fs.device
  size : s'.scratch.size = s.scratch.size
  sector : s'.sector = s.sector + 1 + f.sectors
  others : ∀ t o, t < s.sector ∨ s'.sector < t → s'.scratch.data t o = s.scratch.data t o
  header : ∀ o, s'.scratch.data s.sector o = header o
  bytes : ∀ o < f.size, s'.scratch.byteFrom (s.sector + 1) o = f.bytes o
  padding : ∀ o, f.size ≤ o → o < 512 * f.sectors → s'.scratch.byteFrom (s.sector + 1) o = 0
  marker : s'.scratch.EndsWith s'.sector last

theorem fsutilAppend_appends {s : Appender} {f : Archived} {buffer : Mem}
    (hc : s.fs.Consistent) (hf : s.fs.Has f)
    (hname : (stripAntisocialPrefixes f.name.1).length ≤ 99)
    (hroom : s.sector + 1 + f.sectors < s.scratch.size) :
    ∃ s' header, fsutilAppend s f.name buffer = some s' ∧
      ustarMakeHeader f.name.1 .regular f.size buffer = some header ∧
      Appends s s' f header (buffer 512) := by
  obtain ⟨i, e, hfound, hnamed, hlength, hbytes⟩ := hf.found hc
  have hopen := hc.openFile_some hfound hnamed
  have hflen := hc.opened_length (DirEntry.inodeSector e)
  obtain ⟨hc₁, -⟩ := hc.opened hnamed
  have hfile := s.fs.opened_file (k := DirEntry.inodeSector e)
  generalize DirEntry.inodeSector e = k at *
  rw [hlength] at hflen
  obtain ⟨b₁, hmake, -, hbehind₁⟩ :=
    @ustarMakeHeader_made .regular _ nofun hname f.size buffer
  unfold Archived.sectors at hroom
  obtain ⟨d₁, hwrite₁, hsize₁, hdata₁⟩ :=
    blockWrite_inside (show s.sector < s.scratch.size by omega) b₁ 0
  obtain ⟨fs₂, pos, d₂, b₂, hloop, hc₂, hdevice₂, hfile₂, hsize₂, hother₂, hbytes₂, hpad₂, hbehind₂⟩ :=
    @appendLoop_some _ _ _ d₁ (s.sector + 1) f.size b₁ hc₁ hfile
      (by show 0 + f.size = (s.fs.device.inodeAt k).length; omega) (by omega)
  have hbytes₂ : ∀ o < f.size, d₂.byteFrom (s.sector + 1) o =
      s.fs.device.byteFrom (s.fs.device.inodeAt k).start (0 + o) := hbytes₂
  -- the end marker, which the second write moves by one byte
  obtain ⟨d₃, hwrite₃, hsize₃, hdata₃⟩ := blockWrite_inside
    (show s.sector + 1 + (f.size + 511) / 512 < d₂.size by omega) (b₂.fill 0 512 0) 0
  obtain ⟨d₄, hwrite₄, hsize₄, hdata₄⟩ := blockWrite_inside
    (show s.sector + 1 + (f.size + 511) / 512 < d₃.size by omega) (b₂.fill 0 512 0) 1
  have hnamed₂ : fs₂.Named k := by
    unfold Named
    rw [hdevice₂]
    exact hnamed
  obtain ⟨fs₃, hclose, heffect, hsame⟩ := hc₂.fileClose hfile₂
  have hmost : ∀ t o, t ≠ s.sector + 1 + (f.size + 511) / 512 → d₄.data t o = d₂.data t o := by
    intro t o ht
    rw [hdata₄, if_neg ht, hdata₃, if_neg ht]
  have hfrom : ∀ o < 512 * ((f.size + 511) / 512),
      d₄.byteFrom (s.sector + 1) o = d₂.byteFrom (s.sector + 1) o :=
    fun o ho => hmost _ _ (by omega)
  refine ⟨⟨fs₃, d₄, s.sector + 1 + (f.size + 511) / 512⟩, b₁, ?_, hmake, ⟨heffect.consistent,
    (hsame hnamed₂).1.trans hdevice₂, hsize₄.trans (hsize₃.trans (hsize₂.trans hsize₁)), rfl,
    ?_, ?_, ?_, ?_, ?_⟩⟩
  · simp [fsutilAppend, hopen, hflen, hmake, hwrite₁, hloop, hwrite₃, hwrite₄, hclose]
  · intro t o ht
    have ht : t < s.sector ∨ s.sector + 1 + (f.size + 511) / 512 < t := ht
    rw [hmost t o (by omega), hother₂ t o (by omega), hdata₁, if_neg (by omega)]
  · intro o
    rw [hmost _ o (by omega), hother₂ _ o (by omega), hdata₁, if_pos rfl, Nat.zero_add]
  · intro o ho
    rw [hfrom o (by omega), hbytes₂ o ho, Nat.zero_add, hbytes o ho]
  · intro o hlow hhigh
    exact (hfrom o hhigh).trans (hpad₂ o hlow hhigh)
  · intro o ho
    show d₄.data (s.sector + 1 + (f.size + 511) / 512) o = _
    rw [hdata₄, if_pos rfl]
    by_cases hlast : o = 511
    · subst hlast
      rw [if_pos rfl, fill_out (.inr (by omega)), hbehind₂ _ (by omega), hbehind₁ _ (by omega)]
    · rw [if_neg hlast]
      exact write_in (by omega) (by omega)

/-- An append adds its file to the archive and ends it with the byte behind its buffer. -/
theorem fsutilAppend_archive {s : Appender} {f : Archived} {files : List Archived} {buffer : Mem}
    (hc : s.fs.Consistent) (hf : s.fs.Has f) (hname : f.name.1.length ≤ 99)
    (hstrip : stripAntisocialPrefixes f.name.1 = f.name.1)
    (harchive : Archive s.scratch 0 files s.sector)
    (hroom : s.sector + 1 + f.sectors < s.scratch.size) :
    ∃ s', fsutilAppend s f.name buffer = some s' ∧ s'.fs.Consistent ∧ s'.fs.device = s.fs.device ∧
      s'.scratch.size = s.scratch.size ∧ s'.sector = s.sector + 1 + f.sectors ∧
      Archive s'.scratch 0 (files ++ [f]) s'.sector ∧ s'.scratch.EndsWith s'.sector (buffer 512) := by
  obtain ⟨s', header, happend, hmake, h⟩ :=
    @fsutilAppend_appends s f buffer hc hf (by rw [hstrip]; exact hname) hroom
  obtain ⟨header', hmake', hheads, -⟩ := ustarMakeHeader_regular hname hstrip f.size buffer
  obtain rfl := Option.some.inj (hmake.symm.trans hmake')
  refine ⟨s', happend, h.consistent, h.device, h.size, h.sector, ?_, h.marker⟩
  have hold : Archive s'.scratch 0 files s.sector :=
    harchive.congr fun t ht o _ => h.others t o (.inl ht)
  rw [h.sector]
  exact hold.snoc (hheads.congr fun o _ => h.header o) h.bytes

/-- The sectors of the files with their headers. -/
def archiveSectors (files : List Archived) : Nat := (files.map fun f => 1 + f.sectors).sum

/-- What `fsutil_append` needs to know of a file. -/
structure Appendable (fs : Filesys) (f : Archived) : Prop where
  has : fs.Has f
  short : f.name.1.length ≤ 99
  social : stripAntisocialPrefixes f.name.1 = f.name.1

theorem appendAll_archive {s : Appender} {files : List Archived} {todo : List (Archived × Mem)}
    (hc : s.fs.Consistent) (hfiles : ∀ p ∈ todo, Appendable s.fs p.1)
    (harchive : Archive s.scratch 0 files s.sector)
    (hroom : s.sector + archiveSectors (todo.map Prod.fst) < s.scratch.size) :
    ∃ s', appendAll s (todo.map fun p => (p.1.name, p.2)) = some s' ∧
      s'.scratch.size = s.scratch.size ∧ s'.sector = s.sector + archiveSectors (todo.map Prod.fst) ∧
      Archive s'.scratch 0 (files ++ todo.map Prod.fst) s'.sector ∧
      (todo = [] → s' = s) ∧
      ∀ p, todo.getLast? = some p → s'.scratch.EndsWith s'.sector (p.2 512) := by
  induction todo generalizing s files with
  | nil =>
    refine ⟨s, rfl, rfl, rfl, ?_, fun _ => rfl, nofun⟩
    rw [List.map_nil, List.append_nil]
    exact harchive
  | cons p rest ih =>
    have hsum : archiveSectors ((p :: rest).map Prod.fst) =
        1 + p.1.sectors + archiveSectors (rest.map Prod.fst) := rfl
    rw [hsum] at hroom ⊢
    have hp := hfiles p List.mem_cons_self
    obtain ⟨s₁, happend, hc₁, hdevice, hsize, hsector, harchive₁, hend⟩ :=
      @fsutilAppend_archive s p.1 files p.2 hc hp.has hp.short hp.social harchive (by omega)
    have hfiles₁ : ∀ q ∈ rest, Appendable s₁.fs q.1 := by
      intro q hq
      have hq := hfiles q (List.mem_cons_of_mem _ hq)
      obtain ⟨k, hstat⟩ := hq.has
      exact ⟨⟨k, ((hc.stat_congr hc₁ hdevice q.1.name).2).trans hstat⟩, hq.short, hq.social⟩
    obtain ⟨s', hall, hsize', hsector', harchive', hnil, hlast⟩ :=
      ih hc₁ hfiles₁ harchive₁ (by omega)
    refine ⟨s', ?_, hsize'.trans hsize, by omega, ?_, nofun, ?_⟩
    · simp [appendAll, happend, hall]
    · rw [List.append_assoc] at harchive'
      exact harchive'
    · intro q hq
      cases rest with
      | nil =>
        cases hq
        rw [hnil rfl]
        exact hend
      | cons r rest =>
        rw [List.getLast?_cons_cons] at hq
        exact hlast q hq

/-! ## Extracting a file -/

namespace Filesys

/-- Only the bytes of file `k` have changed. -/
structure Filled (fs fs' : Filesys) (k : Nat) : Prop where
  consistent : fs'.Consistent
  map : fs'.freeMap = fs.freeMap
  openInodes : fs'.openInodes = fs.openInodes
  root : fs.SameRoot fs'
  inode : ∀ {j}, IsFile j → fs.Live j → fs'.device.inodeAt j = fs.device.inodeAt j
  data : ∀ {j s o}, IsFile j → fs.Live j → j ≠ k → fs.dataOf j s → o < 512 →
    fs'.device.data s o = fs.device.data s o

variable {fs fs₁ fs' : Filesys} {k : Nat}

theorem Filled.refl (hc : fs.Consistent) (k : Nat) : fs.Filled fs k :=
  ⟨hc, rfl, rfl, ⟨rfl, fun _ _ _ _ => rfl⟩, fun _ _ => rfl, fun _ _ _ _ _ => rfl⟩

theorem Filled.live (h : fs.Filled fs' k) (j : Nat) : fs'.Live j ↔ fs.Live j := by
  unfold Live
  rw [h.root.named, h.openInodes]

theorem Filled.trans (h : fs.Filled fs₁ k) (h' : fs₁.Filled fs' k) : fs.Filled fs' k where
  consistent := h'.consistent
  map := h'.map.trans h.map
  openInodes := h'.openInodes.trans h.openInodes
  root := by
    refine ⟨h'.root.1.trans h.root.1, fun i hi o ho => ?_⟩
    have hi' : i < fs₁.device.slots rootDirSector := h.root.slots.symm ▸ hi
    exact (h'.root.2 i hi' o ho).trans (h.root.2 i hi o ho)
  inode {j} hj hl := (h'.inode hj ((h.live j).mpr hl)).trans (h.inode hj hl)
  data {j s o} hj hl hne hs ho := by
    have hs₁ : fs₁.dataOf j s := by
      unfold dataOf at hs ⊢
      rw [h.inode hj hl]
      exact hs
    exact (h'.data hj ((h.live j).mpr hl) hne hs₁ ho).trans (h.data hj hl hne hs ho)

end Filesys

theorem copyLoop_some {h : Nat} {src : Block} {fs : Filesys} {file : File} {ip : OpenInode}
    {sector size : Nat} {data : Mem} (hc : fs.Consistent) (hfile : fs.file h = some file)
    (hip : fs.openInodes file.inode = some ip) (hdeny : ip.denyWriteCnt = 0)
    (hsize : file.pos + size = (fs.device.inodeAt file.inode).length)
    (hroom : sector + (size + 511) / 512 ≤ src.size) :
    ∃ fs' pos data', copyLoop h src fs sector size data =
        some (fs', sector + (size + 511) / 512, data') ∧
      fs.Filled fs' file.inode ∧ fs'.file h = some { file with pos } ∧
      (∀ o < file.pos, fs'.device.byteFrom (fs.device.inodeAt file.inode).start o =
        fs.device.byteFrom (fs.device.inodeAt file.inode).start o) ∧
      ∀ o < size, fs'.device.byteFrom (fs.device.inodeAt file.inode).start (file.pos + o) =
        src.byteFrom sector o := by
  -- by induction on the rounds that are left
  induction hrounds : (size + 511) / 512 generalizing fs file sector size data with
  | zero =>
    have hnone : ¬ 0 < size := by omega
    refine ⟨fs, file.pos, data, ?_, .refl hc _, hfile, fun _ _ => rfl, ?_⟩
    · rw [copyLoop, if_neg hnone]
      rfl
    · intro o ho
      omega
  | succ rounds ih =>
    obtain ⟨chunk, hchunk⟩ : ∃ chunk, (if 512 < size then 512 else size) = chunk := ⟨_, rfl⟩
    obtain ⟨hsome, hle, hfits, hlast, hrest⟩ := chunk_round hrounds hchunk
    have hread := @blockRead_eq src data sector 0 (by omega)
    have hslice : sliceLength (fs.device.inodeAt file.inode).length chunk file.pos = chunk := by
      unfold sliceLength
      omega
    obtain ⟨d, hwrite, hwrote, hroot, heffect⟩ :=
      hc.fileWrite_allowed hfile hip hdeny (data.write 0 512 (src.data sector)) 0 chunk hslice
    obtain ⟨-, -, hisFile⟩ := hc.inode (file_eq_some.mp hfile)
    have hlive := (hc.mounted.cached hip).1
    have hinode : d.inodeAt file.inode = fs.device.inodeAt file.inode := heffect.inode hisFile hlive
    have hfilled : fs.Filled { fs with
        device := d, files := fs.files.set h (some { file with pos := file.pos + chunk }) }
        file.inode :=
      ⟨heffect.consistent, rfl, rfl, hroot, heffect.inode,
        fun hj hl hne hs ho => heffect.data hj hl hne hs ho⟩
    obtain ⟨fs', pos, data', hloop, hfilled', hfile', hbefore, hbytes⟩ :=
      @ih _ { file with pos := file.pos + chunk } (sector + 1) (size - chunk)
        (data.write 0 512 (src.data sector)) heffect.consistent (file_of_set hfile rfl) hip
        (by
          show file.pos + chunk + (size - chunk) = (d.inodeAt file.inode).length
          rw [hinode]
          omega) (by omega) hrest
    have hbefore : ∀ o < file.pos + chunk,
        fs'.device.byteFrom (d.inodeAt file.inode).start o =
          d.byteFrom (d.inodeAt file.inode).start o := hbefore
    have hbytes : ∀ o < size - chunk,
        fs'.device.byteFrom (d.inodeAt file.inode).start (file.pos + chunk + o) =
          src.byteFrom (sector + 1) o := hbytes
    rw [hinode] at hbefore hbytes
    refine ⟨fs', pos, data', ?_, hfilled.trans hfilled', hfile', ?_, ?_⟩
    · have hend : sector + 1 + rounds = sector + (rounds + 1) := by omega
      rw [hend] at hloop
      rw [copyLoop, if_pos hsome]
      simp only [hchunk]
      rw [hread]
      simp only [bind_eq_bind, bind_some, hwrite, ne_eq, not_true_eq_false, if_false]
      exact hloop
    · intro o ho
      rw [hbefore o (by omega), hwrote.byteFrom, if_neg (by omega)]
    · intro o ho
      by_cases hfirst : o < chunk
      · rw [hbefore _ (by omega), hwrote.byteFrom, if_pos (by omega), Nat.zero_add,
          Nat.add_sub_cancel_left, write_in (Nat.zero_le o) (by omega), Nat.sub_zero,
          byteFrom_first _ _ (by omega)]
      · have h512 := hlast (by omega)
        obtain ⟨o', rfl⟩ : ∃ o', o = 512 + o' := ⟨o - 512, by omega⟩
        have hnext := hbytes o' (by omega)
        rw [h512, Nat.add_assoc] at hnext
        rw [hnext, byteFrom_add]

theorem Block.fileAt_congr {d d' : Block} {k : Nat} (hinode : d'.inodeAt k = d.inodeAt k)
    (hbytes : ∀ o < (d.inodeAt k).length,
      d'.byteFrom (d.inodeAt k).start o = d.byteFrom (d.inodeAt k).start o) :
    d'.fileAt k = d.fileAt k := by
  unfold fileAt
  rw [hinode]
  have hwrite : write (fun _ => 0) 0 (d.inodeAt k).length
      (fun i => d'.byteFrom (d.inodeAt k).start (0 + i)) =
      write (fun _ => 0) 0 (d.inodeAt k).length
        fun i => d.byteFrom (d.inodeAt k).start (0 + i) := by
    refine write_congr fun i hi => ?_
    rw [Nat.zero_add]
    exact hbytes i hi
  rw [hwrite]

/-- The length and the bytes of the file with its inode in sector `k`. -/
def Archived.At (f : Archived) (d : Block) (k : Nat) : Prop := (d.fileAt k).2 = (f.size, f.bytes)

namespace Filesys

variable {fs fs₁ fs' : Filesys} {name : Name} {k n : Nat}

theorem Linked.live (h : fs.Linked fs' name k n) {j : Nat} (hj : fs.Live j) : fs'.Live j := by
  obtain ⟨i, hi, hfree, -, -, hothers⟩ := h.slot
  have hslots : fs'.device.slots rootDirSector = fs.device.slots rootDirSector := by
    unfold slots
    rw [h.root]
  unfold Live
  rw [h.openInodes]
  rcases hj with hj | hj | ⟨i', hi', huse, hsector⟩ | hj
  · exact .inl hj
  · exact .inr (.inl hj)
  · refine .inr (.inr (.inl ⟨i', hslots.symm ▸ hi', ?_⟩))
    have hne : i' ≠ i := by
      rintro rfl
      rw [hfree] at huse
      cases huse
    have hsame := hothers i' hi' hne
    exact ⟨hsame.inUse.trans huse, hsame.inodeSector.trans hsector⟩
  · exact .inr (.inr (.inr hj))

theorem Linked.closed (h : fs.Linked fs' name k n) : fs'.openInodes k = none := by
  rw [h.openInodes]
  cases hopen : fs.openInodes k with
  | none => rfl
  | some ip =>
    refine absurd (.inr (.inr (.inr ?_))) h.fresh
    rw [hopen]
    rfl

theorem Linked.lookup (h : fs.Linked fs' name k n) (hc' : fs'.Consistent)
    (hcan : CanAdd fs.device rootDirSector name.1) :
    fs'.Named k ∧ ∃ i e, fs'.withRoot.lookup Mallocs.all.lookup rootDirSector name.1 =
      some (some (e, i)) ∧ DirEntry.inodeSector e = k := by
  obtain ⟨i, hi, hfree, hlists, hsector, hothers⟩ := h.slot
  have hslots : fs'.device.slots rootDirSector = fs.device.slots rootDirSector := by
    unfold slots
    rw [h.root]
  have hi' : i < fs'.device.slots rootDirSector := hslots.symm ▸ hi
  refine ⟨⟨i, hi', hlists.1, hsector⟩, ?_⟩
  rcases hc'.mountedRoot.lookup fs'.withRoot_root name.1 with
    ⟨j, e, hj, hjlists, hsame, hfound⟩ | ⟨hnone, -⟩
  · have hjlists : fs'.device.Lists rootDirSector name.1 j := hjlists
    have hsame : SameEntry e (fs'.device.slot rootDirSector j) := hsame
    have hj : j < fs.device.slots rootDirSector := hslots ▸ hj
    have heq : j = i := by
      by_contra hne
      refine hcan.new j hj ?_
      simp only [Block.lists_iff]
      rw [← (hothers j hj hne).inUse, ← (hothers j hj hne).name]
      exact hjlists
    subst heq
    exact ⟨j, e, hfound, hsame.inodeSector.trans hsector⟩
  · exact absurd hlists (hnone i hi')

theorem Filled.fileAt (h : fs.Filled fs' k) (hc : fs.Consistent) {j : Nat} (hj : IsFile j)
    (hl : fs.Live j) (hne : j ≠ k) : fs'.device.fileAt j = fs.device.fileAt j := by
  refine fileAt_congr (h.inode hj hl) fun o ho => ?_
  have hle := sectors_le_bytesToSectors (hc.mounted.laid.length hl)
  unfold Inode.sectors at hle
  exact h.data hj hl hne ⟨by omega, by omega⟩ (Nat.mod_lt o (by omega))

theorem Effect.fileAt {closes : Nat → Prop} (h : fs.Effect fs' (fun _ => False) closes)
    (hc : fs.Consistent) {j : Nat} (hj : IsFile j) (hl : fs.Live j) :
    fs'.device.fileAt j = fs.device.fileAt j :=
  fileAt_congr (h.inode hj hl) fun _ ho => h.bytes hc hj hl id ho

/-- The file has been put into the file system, and the others are as they were. -/
structure Put (fs fs' : Filesys) (f : Archived) : Prop where
  consistent : fs'.Consistent
  slots : fs'.device.slots rootDirSector = fs.device.slots rootDirSector
  kept : ∀ {j}, IsFile j → fs.Live j → fs'.device.fileAt j = fs.device.fileAt j
  slot : ∃ i < fs.device.slots rootDirSector,
    DirEntry.inUse (fs.device.slot rootDirSector i) = false ∧
    fs'.device.Lists rootDirSector f.name.1 i ∧
    f.At fs'.device (DirEntry.inodeSector (fs'.device.slot rootDirSector i)) ∧
    ∀ j < fs.device.slots rootDirSector, j ≠ i →
      SameEntry (fs'.device.slot rootDirSector j) (fs.device.slot rootDirSector j)

theorem Linked.put {f : Archived} (h : fs.Linked fs₁ f.name k f.size) (hc : fs.Consistent)
    (hkeeps : fs.Keeps fs₁) (hfilled : (fs₁.opened k).Filled fs' k) (hnamed : fs₁.Named k)
    (hbytes : ∀ o < f.size, fs'.device.byteFrom (fs₁.device.inodeAt k).start o = f.bytes o)
    (htail : ∀ o, f.size ≤ o → f.bytes o = 0) : fs.Put fs' f := by
  have hc₁ := hkeeps.consistent
  obtain ⟨hc₂, hlive₂⟩ := hc₁.opened hnamed
  have hk := hc₁.entryFile hnamed
  have hkl : fs₁.Live k := .inr (.inr (.inl hnamed))
  have hslots : fs₁.device.slots rootDirSector = fs.device.slots rootDirSector := by
    unfold slots
    rw [h.root]
  have hroot : fs₁.SameRoot fs' := hfilled.root
  obtain ⟨i, hi, hfree, hlists, hsector, hothers⟩ := h.slot
  have hi₁ : i < fs₁.device.slots rootDirSector := hslots.symm ▸ hi
  refine ⟨hfilled.consistent, hroot.slots.trans hslots, fun {j} hj hl => ?_, i, hi, hfree, ?_, ?_, ?_⟩
  · have hne : j ≠ k := by
      rintro rfl
      exact h.fresh hl
    exact (hfilled.fileAt hc₂ hj (hlive₂ j (h.live hl)) hne).trans (hkeeps.fileAt hc hj hl)
  · simp only [Block.lists_iff]
    rw [(hroot.2 i hi₁).inUse, (hroot.2 i hi₁).name]
    exact hlists
  · rw [(hroot.2 i hi₁).inodeSector, hsector]
    have hinode : fs'.device.inodeAt k = fs₁.device.inodeAt k := hfilled.inode hk (hlive₂ k hkl)
    unfold Archived.At fileAt
    rw [hinode, h.inode]
    refine congrArg (Prod.mk f.size) (funext fun o => ?_)
    by_cases ho : o < f.size
    · rw [write_in (Nat.zero_le o) (by omega), Nat.sub_zero, Nat.zero_add, hbytes o ho]
    · rw [write_out (by omega), htail o (by omega)]
  · intro j hj hne o ho
    exact (hroot.2 j (hslots.symm ▸ hj) o ho).trans (hothers j hj hne o ho)

theorem Put.of_device {f : Archived} {fs'' : Filesys} (h : fs.Put fs' f) (hc : fs''.Consistent)
    (hdevice : fs''.device = fs'.device) : fs.Put fs'' f := by
  refine ⟨hc, ?_, ?_, ?_⟩
  · rw [hdevice]
    exact h.slots
  · rw [hdevice]
    exact h.kept
  · rw [hdevice]
    exact h.slot

theorem hasRoom_of_takeSectors {b : Bitmap} (h : takeSectors fs.freeMap n = some b) : fs.HasRoom n := by
  unfold takeSectors at h
  obtain ⟨b₁, h₁, h₂⟩ := bind_eq_some_iff.mp h
  obtain ⟨k, hk, rfl⟩ := map_eq_some_iff.mp h₁
  obtain ⟨start, hstart, -⟩ := map_eq_some_iff.mp h₂
  refine ⟨k, hk, ?_⟩
  rw [hstart]
  rfl

end Filesys

theorem extractFile_put {src : Block} {fs : Filesys} {sector : Nat} {f : Archived} {data : Mem}
    {b : Bitmap} (hc : fs.Consistent) (hsize : f.size < 2147483648)
    (htail : ∀ o, f.size ≤ o → f.bytes o = 0) (htake : takeSectors fs.freeMap f.size = some b)
    (hcan : CanAdd fs.device rootDirSector f.name.1)
    (hbytes : ∀ o < f.size, src.byteFrom sector o = f.bytes o)
    (hroom : sector + f.sectors ≤ src.size) :
    ∃ fs' data', extractFile src fs sector f.name f.size data =
        some (fs', sector + f.sectors, data') ∧ fs.Put fs' f ∧ fs'.freeMap = b := by
  rcases hc.create f.name hsize with
    ⟨fs', leaked, -, -, ⟨hno, -⟩ | ⟨-, hno, -⟩⟩ | ⟨fs₁, k, hcreate, -, -, hkeeps, hmap, hlinked⟩
  · exact absurd (hasRoom_of_takeSectors htake) hno
  · exact absurd hcan hno
  · have hc₁ := hkeeps.consistent
    obtain ⟨hnamed, i, e, hfound, rfl⟩ := hlinked.lookup hc₁ hcan
    have hopen := hc₁.openFile_some hfound hnamed
    generalize DirEntry.inodeSector e = k at *
    obtain ⟨hc₂, -⟩ := hc₁.opened hnamed
    have hip : (fs₁.opened k).openInodes k = some (fs₁.reopened k) := by
      show (fs₁.setInode k (some (fs₁.reopened k))).openInodes k = _
      exact setInode_self
    have hdeny : (fs₁.reopened k).denyWriteCnt = 0 := by
      unfold reopened
      rw [hlinked.closed]
    obtain ⟨fs₂, pos, data', hloop, hfilled, hfile, -, hfill⟩ :=
      @copyLoop_some _ src _ _ _ sector f.size data hc₂ fs₁.opened_file hip hdeny
        (by
          show 0 + f.size = (fs₁.device.inodeAt k).length
          rw [hlinked.inode, Nat.zero_add]) hroom
    have hfill : ∀ o < f.size, fs₂.device.byteFrom (fs₁.device.inodeAt k).start (0 + o) =
        src.byteFrom sector o := hfill
    have hput := hlinked.put hc hkeeps hfilled hnamed
      (fun o ho => by rw [← hbytes o ho, ← hfill o ho, Nat.zero_add]) htail
    obtain ⟨fs₃, hclose, heffect, hsame⟩ := hfilled.consistent.fileClose hfile
    obtain ⟨hdevice, hmap₃⟩ := hsame (hfilled.root.named.mpr hnamed)
    refine ⟨fs₃, data', ?_, hput.of_device heffect.consistent hdevice, ?_⟩
    · simp [extractFile, hcreate, hopen, hloop, hclose, Archived.sectors]
    · rw [hmap₃, hfilled.map]
      show fs₁.freeMap = b
      rw [htake] at hmap
      exact (Option.some.inj hmap).symm

end Pintos
