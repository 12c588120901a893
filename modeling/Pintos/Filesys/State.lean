import Pintos.Filesys.Inode
import Pintos.Kernel.Bitmap

/-!
# Open inodes and the free map (`filesys/inode.c`, `filesys/free-map.c`)

The state of the file system: the device, the open inodes, the free map and the open files. Opening an
inode twice gives the same `struct inode`, so `open_inodes` is a function from sectors here and a
pointer to an inode is its sector. A function of the source that panics, or an assertion of which fails,
is `none`, and so is the use of an inode that is not open. Allocation of memory succeeds, but for the
bounce buffers, of which `malloc` tells.
-/

namespace Pintos

open Lib

/-- `struct inode`. -/
structure OpenInode where
  openCnt : Nat
  removed : Bool
  denyWriteCnt : Nat
  data : Inode
  deriving DecidableEq, Repr

/-- `struct file`; `inode` is the sector of its inode. -/
structure File where
  inode : Nat
  pos : Nat
  denyWrite : Bool
  deriving DecidableEq, Repr

/-- The file system. A `struct file *` that has been given out is its place in `files`. -/
structure Filesys where
  device : Block
  openInodes : Nat → Option OpenInode
  freeMap : Bitmap
  freeMapFile : Option File
  files : List (Option File)

/-- `FREE_MAP_SECTOR`. -/
def freeMapSector : Nat := 0

/-- `ROOT_DIR_SECTOR`. -/
def rootDirSector : Nat := 1

namespace Filesys

/-- The inode in `sector` is `ip` now. -/
def setInode (fs : Filesys) (sector : Nat) (ip : Option OpenInode) : Filesys :=
  { fs with openInodes := Function.update fs.openInodes sector ip }

section

variable (fs : Filesys) (k : Nat) (ip : Option OpenInode)

@[simp] theorem setInode_device : (fs.setInode k ip).device = fs.device := rfl

@[simp] theorem setInode_freeMap : (fs.setInode k ip).freeMap = fs.freeMap := rfl

@[simp] theorem setInode_files : (fs.setInode k ip).files = fs.files := rfl

end

@[simp] theorem setInode_self {fs : Filesys} {sector : Nat} {ip : Option OpenInode} :
    (fs.setInode sector ip).openInodes sector = ip := Function.update_self ..

theorem setInode_ne {fs : Filesys} {sector j : Nat} {ip : Option OpenInode} (h : j ≠ sector) :
    (fs.setInode sector ip).openInodes j = fs.openInodes j := Function.update_of_ne h ..

/-! ## Reading and writing -/

/-- `inode_read_at`. -/
def inodeReadAt (fs : Filesys) (malloc : Bool) (inode : Nat) (m : Mem) (buffer : Nat) (size : Int)
    (offset : Nat) : Option (Nat × Mem) := do
  let ip ← fs.openInodes inode
  readAt fs.device ip.data malloc m buffer size offset

/-- `inode_write_at`. -/
def inodeWriteAt (fs : Filesys) (malloc : Bool) (inode : Nat) (m : Mem) (buffer : Nat) (size : Int)
    (offset : Nat) : Option (Nat × Filesys) := do
  let ip ← fs.openInodes inode
  if ip.denyWriteCnt ≠ 0 then
    return (0, fs)
  else
    let (n, d) ← writeAt fs.device ip.data malloc m buffer size offset
    return (n, { fs with device := d })

/-! ## The free map -/

/-- `bitmap_write (free_map, file)`; `malloc` tells whether there is memory for a bounce buffer. -/
def bitmapWriteWith (fs : Filesys) (malloc : Bool) (file : File) : Option (Bool × Filesys) := do
  let size := byteCnt fs.freeMap.bitCnt
  let (n, fs) ← fs.inodeWriteAt malloc file.inode (bitmapBytes fs.freeMap) 0 size 0
  return (n = size, fs)

def bitmapWrite (fs : Filesys) (file : File) : Option (Bool × Filesys) := fs.bitmapWriteWith true file

/-- `bitmap_read (free_map, file)`. -/
def bitmapRead (fs : Filesys) (file : File) : Option (Bool × Filesys) := do
  if 0 < fs.freeMap.bitCnt then
    let size := byteCnt fs.freeMap.bitCnt
    let (n, m) ← fs.inodeReadAt true file.inode (bitmapBytes fs.freeMap) 0 size 0
    return (n = size, { fs with freeMap := bitmapLoad fs.freeMap m })
  else
    return (true, fs)

/-- `free_map_allocate`. -/
def freeMapAllocate (fs : Filesys) (cnt : Nat) : Option (Option Nat × Filesys) :=
  match bitmapScanAndFlip fs.freeMap 0 cnt false with
  | (none, _) => some (none, fs)
  | (some sector, freeMap) =>
    let fs := { fs with freeMap }
    match fs.freeMapFile with
    | none => some (some sector, fs)
    | some file => do
        let (written, fs) ← fs.bitmapWrite file
        if written then
          return (some sector, fs)
        else
          return (none, { fs with freeMap := bitmapSetMultiple fs.freeMap sector cnt false })

/-- `free_map_release`, with the assertions of `bitmap_all`. It does not look whether the map has been
written. -/
def freeMapReleaseWith (fs : Filesys) (malloc : Bool) (sector cnt : Nat) : Option Filesys :=
  if sector + cnt ≤ fs.freeMap.bitCnt ∧ bitmapAll fs.freeMap sector cnt then do
    let fs := { fs with freeMap := bitmapSetMultiple fs.freeMap sector cnt false }
    let file ← fs.freeMapFile
    let (_, fs) ← fs.bitmapWriteWith malloc file
    return fs
  else none

def freeMapRelease (fs : Filesys) (sector cnt : Nat) : Option Filesys :=
  fs.freeMapReleaseWith true sector cnt

/-! ## Inodes -/

/-- `inode_create`. -/
def inodeCreate (fs : Filesys) (sector : Nat) (length : Int) : Option (Bool × Filesys) :=
  if 0 ≤ length then do
    let sectors := bytesToSectors length.toNat
    let (start, fs) ← fs.freeMapAllocate sectors
    match start with
    | none => return (false, fs)
    | some start =>
      let d ← blockWrite fs.device sector (Inode.header ⟨start, length.toNat⟩) 0
      let d ← writeSectors (fun _ => 0) sectors d start 0
      return (true, { fs with device := d })
  else none

/-- `inode_open`. -/
def inodeOpen (fs : Filesys) (sector : Nat) : Option Filesys :=
  match fs.openInodes sector with
  | some ip => some (fs.setInode sector (some { ip with openCnt := ip.openCnt + 1 }))
  | none => do
      let m ← blockRead fs.device sector (fun _ => 0) 0
      return fs.setInode sector (some ⟨1, false, 0, .ofHeader m⟩)

/-- `inode_reopen`. -/
def inodeReopen (fs : Filesys) (inode : Nat) : Option Filesys := do
  let ip ← fs.openInodes inode
  return fs.setInode inode (some { ip with openCnt := ip.openCnt + 1 })

/-- `inode_close`; `release` tells of the two writes of the free map. -/
def inodeCloseWith (fs : Filesys) (release : Bool × Bool) (inode : Nat) : Option Filesys := do
  let ip ← fs.openInodes inode
  if ip.openCnt = 1 then
    let fs := fs.setInode inode none
    if ip.removed then
      let fs ← fs.freeMapReleaseWith release.1 inode 1
      fs.freeMapReleaseWith release.2 ip.data.start (bytesToSectors ip.data.length)
    else return fs
  else
    return fs.setInode inode (some { ip with openCnt := ip.openCnt - 1 })

def inodeClose (fs : Filesys) (inode : Nat) : Option Filesys := fs.inodeCloseWith (true, true) inode

/-- `inode_remove`. -/
def inodeRemove (fs : Filesys) (inode : Nat) : Option Filesys := do
  let ip ← fs.openInodes inode
  return fs.setInode inode (some { ip with removed := true })

/-- `inode_deny_write`. -/
def inodeDenyWrite (fs : Filesys) (inode : Nat) : Option Filesys := do
  let ip ← fs.openInodes inode
  if ip.denyWriteCnt + 1 ≤ ip.openCnt then
    return fs.setInode inode (some { ip with denyWriteCnt := ip.denyWriteCnt + 1 })
  else none

/-- `inode_allow_write`. -/
def inodeAllowWrite (fs : Filesys) (inode : Nat) : Option Filesys := do
  let ip ← fs.openInodes inode
  if 0 < ip.denyWriteCnt ∧ ip.denyWriteCnt ≤ ip.openCnt then
    return fs.setInode inode (some { ip with denyWriteCnt := ip.denyWriteCnt - 1 })
  else none

end Filesys

end Pintos
