import Pintos.Filesys.Directory

/-!
# The file system (`filesys/file.c`, `filesys/filesys.c`)

* `Filesys.init`: `filesys_init`, with or without formatting.
* `Filesys.step`: one operation after another on the file system.
-/

namespace Pintos

open Lib

/-- Which allocations in `filesys_open` succeed: those of `dir_open_root`, the bounce buffers of
`lookup`, the `struct inode` and the `struct file`. -/
structure OpenMemory where
  dir : Bool
  lookup : Nat → Bool
  inode : Bool
  file : Bool

/-- All do. -/
def OpenMemory.all : OpenMemory := ⟨true, Mallocs.all.lookup, true, true⟩

namespace Filesys

/-! ## Files -/

/-- The open file at `h`. -/
def file (fs : Filesys) (h : Nat) : Option File := fs.files.getD h none

/-- `file_open`: the file gets a place of its own. -/
def fileOpen (fs : Filesys) (inode : Nat) : Nat × Filesys :=
  (fs.files.length, { fs with files := fs.files ++ [some ⟨inode, 0, false⟩] })

/-- `file_open`; `alloc` tells whether there is memory for a `struct file`. -/
def fileOpenWith (fs : Filesys) (alloc : Bool) (inode : Nat) : Option (Option Nat × Filesys) :=
  if alloc then
    let (h, fs) := fs.fileOpen inode
    some (some h, fs)
  else do
    let fs ← fs.inodeClose inode
    return (none, fs)

/-- `file_deny_write`. -/
def fileDenyWrite (fs : Filesys) (h : Nat) : Option Filesys := do
  let file ← fs.file h
  if file.denyWrite then return fs
  else
    let fs ← fs.inodeDenyWrite file.inode
    return { fs with files := fs.files.set h (some { file with denyWrite := true }) }

/-- `file_allow_write`. -/
def fileAllowWrite (fs : Filesys) (h : Nat) : Option Filesys := do
  let file ← fs.file h
  if file.denyWrite then
    let fs ← fs.inodeAllowWrite file.inode
    return { fs with files := fs.files.set h (some { file with denyWrite := false }) }
  else return fs

/-- `file_close`. -/
def fileClose (fs : Filesys) (h : Nat) : Option Filesys := do
  let file ← fs.file h
  let fs ← fs.fileAllowWrite h
  let fs ← fs.inodeClose file.inode
  return { fs with files := fs.files.set h none }

/-- `file_read`, into memory at `buffer`. -/
def fileRead (fs : Filesys) (h : Nat) (m : Mem) (buffer : Nat) (size : Int) :
    Option (Nat × Mem × Filesys) := do
  let file ← fs.file h
  let (n, m) ← fs.inodeReadAt true file.inode m buffer size file.pos
  return (n, m, { fs with files := fs.files.set h (some { file with pos := file.pos + n }) })

/-- `file_write`, from memory at `buffer`. -/
def fileWrite (fs : Filesys) (h : Nat) (m : Mem) (buffer : Nat) (size : Int) :
    Option (Nat × Filesys) := do
  let file ← fs.file h
  let (n, fs) ← fs.inodeWriteAt true file.inode m buffer size file.pos
  return (n, { fs with files := fs.files.set h (some { file with pos := file.pos + n }) })

/-- `file_length`. -/
def fileLength (fs : Filesys) (h : Nat) : Option Nat := do
  let file ← fs.file h
  let ip ← fs.openInodes file.inode
  return ip.data.length

/-- `file_seek`. -/
def fileSeek (fs : Filesys) (h : Nat) (newPos : Int) : Option Filesys := do
  let file ← fs.file h
  if 0 ≤ newPos then
    return { fs with files := fs.files.set h (some { file with pos := newPos.toNat }) }
  else none

/-- `file_tell`. -/
def fileTell (fs : Filesys) (h : Nat) : Option Nat := do
  let file ← fs.file h
  return file.pos

/-! ## Names -/

/-- `dir_open_root`. -/
def dirOpenRoot (fs : Filesys) : Option Filesys := fs.inodeOpen rootDirSector

/-- `dir_close`, of the root directory. -/
def dirClose (fs : Filesys) : Option Filesys := fs.inodeClose rootDirSector

/-- `filesys_create`. -/
def create (fs : Filesys) (name : Name) (initialSize : Int) : Option (Bool × Filesys) := do
  let fs ← fs.dirOpenRoot
  let (inodeSector, fs) ← fs.freeMapAllocate 1
  match inodeSector with
  | none =>
    -- `inode_sector` is still 0
    let fs ← fs.dirClose
    return (false, fs)
  | some inodeSector =>
    let (created, fs) ← fs.inodeCreate inodeSector initialSize
    let (success, fs) ← if created then fs.dirAdd .all rootDirSector name inodeSector
      else some (false, fs)
    let fs ← if !success && inodeSector ≠ 0 then fs.freeMapRelease inodeSector 1 else some fs
    let fs ← fs.dirClose
    return (success, fs)

/-- `inode_open`; `alloc` tells whether there is memory for a `struct inode`. -/
def inodeOpenWith (fs : Filesys) (alloc : Bool) (sector : Nat) : Option (Bool × Filesys) :=
  if (fs.openInodes sector).isSome || alloc then do
    let fs ← fs.inodeOpen sector
    return (true, fs)
  else some (false, fs)

/-- `filesys_open`, which asserts that the root directory has been opened. -/
def openFileWith (fs : Filesys) (mem : OpenMemory) (name : Name) : Option (Option Nat × Filesys) :=
  if mem.dir then do
    let fs ← fs.dirOpenRoot
    match ← fs.lookup mem.lookup rootDirSector name.1 with
    | some (e, _) =>
      let (opened, fs) ← fs.inodeOpenWith mem.inode (DirEntry.inodeSector e)
      let fs ← fs.dirClose
      if opened then fs.fileOpenWith mem.file (DirEntry.inodeSector e) else return (none, fs)
    | none =>
      let fs ← fs.dirClose
      return (none, fs)
  else none

def openFile (fs : Filesys) (name : Name) : Option (Option Nat × Filesys) := fs.openFileWith .all name

/-- `filesys_remove`. -/
def remove (fs : Filesys) (name : Name) : Option (Bool × Filesys) := do
  let fs ← fs.dirOpenRoot
  let (success, fs) ← fs.dirRemove .all rootDirSector name
  let fs ← fs.dirClose
  return (success, fs)

/-! ## Starting up -/

/-- `free_map_create`. -/
def freeMapCreate (fs : Filesys) : Option Filesys := do
  let (created, fs) ← fs.inodeCreate freeMapSector (byteCnt fs.freeMap.bitCnt)
  if created then
    let fs ← fs.inodeOpen freeMapSector
    let file : File := ⟨freeMapSector, 0, false⟩
    let fs := { fs with freeMapFile := some file }
    let (written, fs) ← fs.bitmapWrite file
    if written then return fs else none
  else none

/-- `free_map_open`. -/
def freeMapOpen (fs : Filesys) : Option Filesys := do
  let fs ← fs.inodeOpen freeMapSector
  let file : File := ⟨freeMapSector, 0, false⟩
  let fs := { fs with freeMapFile := some file }
  let (read, fs) ← fs.bitmapRead file
  if read then return fs else none

/-- `free_map_close`: nobody denies writes to the free map. -/
def freeMapClose (fs : Filesys) : Option Filesys := do
  let file ← fs.freeMapFile
  fs.inodeClose file.inode

/-- `do_format`; the root directory has room for 16 entries. -/
def doFormat (fs : Filesys) : Option Filesys := do
  let fs ← fs.freeMapCreate
  let (created, fs) ← fs.inodeCreate rootDirSector (16 * 20)
  if created then fs.freeMapClose else none

/-- `filesys_init`. -/
def init (device : Block) (format : Bool) : Option Filesys := do
  let freeMap := bitmapMark (bitmapMark (bitmapCreate device.size) freeMapSector) rootDirSector
  let fs : Filesys := ⟨device, fun _ => none, freeMap, none, []⟩
  let fs ← if format then fs.doFormat else some fs
  fs.freeMapOpen

end Filesys

/-! ## Runs -/

/-- The operations on the file system; an `Int32` is an `off_t`. -/
inductive FsOp
  | create (name : Name) (initialSize : Int32)
  | openFile (name : Name)
  | remove (name : Name)
  | close (h : Nat)
  | read (h : Nat) (m : Mem) (buffer : Nat) (size : Int32)
  | write (h : Nat) (m : Mem) (buffer : Nat) (size : Int32)
  | seek (h : Nat) (newPos : Int32)
  | denyWrite (h : Nat)

/-- The file system after an operation; `none` if it panics or an assertion fails. -/
def Filesys.step (fs : Filesys) : FsOp → Option Filesys
  | .create name initialSize => (fs.create name initialSize.toInt).map Prod.snd
  | .openFile name => (fs.openFile name).map Prod.snd
  | .remove name => (fs.remove name).map Prod.snd
  | .close h => fs.fileClose h
  | .read h m buffer size => (fs.fileRead h m buffer size.toInt).map fun r => r.2.2
  | .write h m buffer size => (fs.fileWrite h m buffer size.toInt).map Prod.snd
  | .seek h newPos => fs.fileSeek h newPos.toInt
  | .denyWrite h => fs.fileDenyWrite h

end Pintos
