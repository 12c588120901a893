import Pintos.Filesys.State

/-!
# Directories (`filesys/directory.c`)

A directory is a file of entries of 20 bytes: the sector of an inode, a name of at most 14 bytes with
its terminator, and a byte that says whether the entry is in use. A `struct dir_entry` is its memory
here.
-/

namespace Pintos

open Lib

/-- `NAME_MAX`. -/
def nameMax : Nat := 14

/-- A C string without its terminator. -/
def Name := { bytes : List UInt8 // 0 ∉ bytes }
  deriving DecidableEq

namespace DirEntry

/-- `e.inode_sector`. -/
def inodeSector (e : Mem) : Nat := e.word 0

/-- The bytes of `e.name` up to the terminator. -/
def name (e : Mem) : List UInt8 := ((List.range 15).map fun i => e (4 + i)).takeWhile (· ≠ 0)

/-- `e.in_use`. -/
def inUse (e : Mem) : Bool := e 19 ≠ 0

/-- `strlcpy (e.name, name, sizeof e.name)` of a name that fits. -/
def setName (e : Mem) (name : List UInt8) : Mem :=
  e.write 4 (name.length + 1) fun i => name.getD i 0

/-- `e.in_use = inUse`. -/
def setInUse (e : Mem) (inUse : Bool) : Mem := e.write 19 1 fun _ => if inUse then 1 else 0

end DirEntry

/-- Which calls of `inode_read_at` and `inode_write_at` in an operation on a directory get a bounce
buffer: the reads of `lookup` and of the search for a free slot, by slot, and the write. -/
structure Mallocs where
  lookup : Nat → Bool
  slot : Nat → Bool
  store : Bool

/-- All do. -/
def Mallocs.all : Mallocs := ⟨fun _ => true, fun _ => true, true⟩

namespace Filesys

/-- The loop of `lookup` from slot `i` on: the entry and its slot. -/
def lookupFrom (fs : Filesys) (malloc : Nat → Bool) (dir : Nat) (name : List UInt8) :
    Nat → Nat → Mem → Option (Option (Mem × Nat))
  | 0, _, _ => none
  | fuel + 1, i, e => do
      let (n, e) ← fs.inodeReadAt (malloc i) dir e 0 20 (20 * i)
      if n = 20 then
        if DirEntry.inUse e ∧ DirEntry.name e = name then return some (e, i)
        else fs.lookupFrom malloc dir name fuel (i + 1) e
      else return none

/-- The number of rounds of a loop over the entries: one after the last is the end of the file. -/
def dirRounds (fs : Filesys) (dir : Nat) : Nat :=
  match fs.openInodes dir with
  | some ip => ip.data.length / 20 + 1
  | none => 0

/-- `lookup`. -/
def lookup (fs : Filesys) (malloc : Nat → Bool) (dir : Nat) (name : List UInt8) :
    Option (Option (Mem × Nat)) :=
  fs.lookupFrom malloc dir name (fs.dirRounds dir) 0 fun _ => 0

/-- `dir_lookup`: the inode, which has been opened. -/
def dirLookup (fs : Filesys) (malloc : Nat → Bool) (dir : Nat) (name : Name) :
    Option (Option Nat × Filesys) := do
  match ← fs.lookup malloc dir name.1 with
  | some (e, _) => do
      let fs ← fs.inodeOpen (DirEntry.inodeSector e)
      return (some (DirEntry.inodeSector e), fs)
  | none => return (none, fs)

/-- The loop of `dir_add` from slot `i` on: the entry last read, and the slot that is free or at the
end of the file. -/
def freeSlotFrom (fs : Filesys) (malloc : Nat → Bool) (dir : Nat) :
    Nat → Nat → Mem → Option (Mem × Nat)
  | 0, _, _ => none
  | fuel + 1, i, e => do
      let (n, e) ← fs.inodeReadAt (malloc i) dir e 0 20 (20 * i)
      if n = 20 then
        if DirEntry.inUse e then fs.freeSlotFrom malloc dir fuel (i + 1) e else return (e, i)
      else return (e, i)

/-- `dir_add`. -/
def dirAdd (fs : Filesys) (malloc : Mallocs) (dir : Nat) (name : Name) (inodeSector : Nat) :
    Option (Bool × Filesys) :=
  if name.1 = [] ∨ nameMax < name.1.length then some (false, fs)
  else do
    match ← fs.lookup malloc.lookup dir name.1 with
    | some _ => return (false, fs)
    | none =>
      let (e, i) ← fs.freeSlotFrom malloc.slot dir (fs.dirRounds dir) 0 fun _ => 0
      let e := DirEntry.setName (DirEntry.setInUse e true) name.1
      let e := e.setWord 0 inodeSector
      let (n, fs) ← fs.inodeWriteAt malloc.store dir e 0 20 (20 * i)
      return (n = 20, fs)

/-- `dir_remove`; `release` is for `inode_close`. -/
def dirRemoveWith (fs : Filesys) (malloc : Mallocs) (release : Bool × Bool) (dir : Nat) (name : Name) :
    Option (Bool × Filesys) := do
  match ← fs.lookup malloc.lookup dir name.1 with
  | none => return (false, fs)
  | some (e, i) =>
    let inode := DirEntry.inodeSector e
    let fs ← fs.inodeOpen inode
    let (n, fs) ← fs.inodeWriteAt malloc.store dir (DirEntry.setInUse e false) 0 20 (20 * i)
    if n = 20 then
      let fs ← fs.inodeRemove inode
      let fs ← fs.inodeCloseWith release inode
      return (true, fs)
    else
      let fs ← fs.inodeCloseWith release inode
      return (false, fs)

def dirRemove (fs : Filesys) (malloc : Mallocs) (dir : Nat) (name : Name) : Option (Bool × Filesys) :=
  fs.dirRemoveWith malloc (true, true) dir name

/-- The loop of `dir_readdir`, with `dir->pos`: the name, if there is one, and the position after it. -/
def readdirLoop (fs : Filesys) (dir : Nat) : Nat → Nat → Mem → Option (Option (List UInt8) × Nat)
  | 0, _, _ => none
  | fuel + 1, pos, e => do
      let (n, e) ← fs.inodeReadAt true dir e 0 20 pos
      if n = 20 then
        -- `strlcpy` into `NAME_MAX + 1` bytes
        if DirEntry.inUse e then return (some ((DirEntry.name e).take nameMax), pos + 20)
        else fs.readdirLoop dir fuel (pos + 20) e
      else return (none, pos)

/-- `dir_readdir`. -/
def dirReaddir (fs : Filesys) (dir pos : Nat) : Option (Option (List UInt8) × Nat) :=
  fs.readdirLoop dir (fs.dirRounds dir) pos fun _ => 0

end Filesys

end Pintos
