import Pintos.Lib.Stops
import Pintos.Threads.Palloc

/-!
# System calls and user memory (`userprog/syscall.c`)

The handler of a system call reads its number and its arguments from the user stack, and strings and
buffers from where the arguments point, all in kernel mode. `is_pt_valid` looks at one address: it
ends the process if the address is not one of a user page, and brings the page in if it is not
present.

A process is seen here as its pages: which are present, which have a supplemental entry, and what
they hold. A page that is brought in takes a free frame or one that `evict_page` takes from some page,
and this may be one that has been checked; other processes take pages too. A kernel-mode access to a
page that is not present is a page fault that `kill` turns into a panic; from `PHYS_BASE` on it is an
access to kernel memory. Both are `Stop.fault`.
-/

namespace Pintos.Syscall

open Lib

/-- What happens to the frames of the process at a check. -/
inductive Turn
  /-- `evict_page`, here or in another process, takes those of these pages. -/
  | takes (pages : List Nat)
  /-- There is none to be had: `evict_page` returns a null pointer. -/
  | refuses
  deriving DecidableEq, Repr

/-- The user pages of a process, by their numbers, and the user bytes. -/
structure UserMem where
  present : Nat → Bool
  /-- `PTE_W` of a page that is present. -/
  writable : Nat → Bool
  /-- The supplemental entry of a page, of which only `writable` is needed. -/
  entry : Nat → Option Bool
  byte : Nat → UInt8
  /-- What happens at the checks to come; after these, nothing. -/
  turns : List Turn

/-- Why a handler does not return. -/
inductive Stop
  /-- The process has ended with a status. -/
  | ended (status : Int)
  /-- The byte at `a` was not there to be accessed. -/
  | fault (a : Nat)
  deriving DecidableEq, Repr

/-- Code that runs in a system call. -/
abbrev Handler := StateT UserMem (Except Stop)

/-- An open file: the bytes from its position on, and how many of them `file_write` may replace. -/
structure OpenFile where
  rest : List UInt8
  writeLeft : Nat
  deriving DecidableEq, Repr

/-- What else decides what a system call accesses. -/
structure Kernel where
  /-- The names of the directory entries in use; none has a null byte. -/
  names : List (List UInt8)
  /-- `filesys_create` gets to `dir_add`. -/
  creates : Bool
  /-- `t->files`. -/
  files : Nat → Option OpenFile
  /-- What `input_getc` returns. -/
  key : UInt8

/-- The open file of a descriptor. -/
def Kernel.fileOf (k : Kernel) (fd : Nat) : Option OpenFile :=
  if 2 ≤ fd ∧ fd < 1024 then k.files fd else none

namespace UserMem

/-- The byte at `a` is in a user page that is present. -/
def accessible (u : UserMem) (a : Nat) : Bool := a < physBase && u.present (a / 4096)

/-- `page_in`; `none` if the process ends. -/
def pageIn (u : UserMem) (pt : Nat) (stackPage : Bool) : Option UserMem :=
  if u.turns.head? = some .refuses then none
  else if stackPage then
    some { u with
      present := Function.update u.present (pt / 4096) true
      writable := Function.update u.writable (pt / 4096) true
      byte := fun a => if a / 4096 = pt / 4096 then 0 else u.byte a }
  else
    (u.entry (pt / 4096)).map fun w =>
      { u with
        present := Function.update u.present (pt / 4096) true
        writable := Function.update u.writable (pt / 4096) w }

/-- `is_pt_valid` up to its return; `none` if the process ends. -/
def check (u : UserMem) (esp pt : Nat) (allowStackGrowth : Bool) : Option UserMem :=
  if pt = 0 ∨ physBase ≤ pt then none
  else if u.present (pt / 4096) then some u
  else u.pageIn pt (allowStackGrowth && (esp + 4294967264) % 4294967296 ≤ pt)

/-- Pages are taken: `pagedir_clear_page` leaves the rest of their entries as it is. -/
def lose (u : UserMem) : UserMem :=
  match u.turns with
  | .takes pages :: turns =>
    { u with present := fun p => u.present p && !pages.contains p, turns := turns }
  | .refuses :: turns => { u with turns := turns }
  | [] => u

/-- The word at `a`. -/
def word (u : UserMem) (a : Nat) : Nat := Mem.word u.byte a

end UserMem

/-! ## Accesses -/

def readByte (a : Nat) : Handler UInt8 := fun u =>
  if u.accessible a then .ok (u.byte a, u) else .error (.fault a)

/-- A store; `CR0.WP` is set, so the page has to be writable for the kernel too. -/
def writeByte (a : Nat) (b : UInt8) : Handler Unit := fun u =>
  if u.accessible a && u.writable (a / 4096) then
    .ok ((), { u with byte := Function.update u.byte a b })
  else .error (.fault a)

def readWord (a : Nat) : Handler Nat := do
  let b₀ ← readByte a
  let b₁ ← readByte (a + 1)
  let b₂ ← readByte (a + 2)
  let b₃ ← readByte (a + 3)
  return b₀.toNat + 256 * (b₁.toNat + 256 * (b₂.toNat + 256 * b₃.toNat))

/-- `n` bytes from `a` on are read one after another. -/
def readBytes : Nat → Nat → Handler Unit
  | _, 0 => pure ()
  | a, n + 1 => do
      let _ ← readByte a
      readBytes (a + 1) n

/-- Bytes are written from `a` on one after another. -/
def writeBytes : Nat → List UInt8 → Handler Unit
  | _, [] => pure ()
  | a, b :: bs => do
      writeByte a b
      writeBytes (a + 1) bs

/-- `strlen`. A string that does not end before `PHYS_BASE` is followed no further. -/
def strlenFrom : Nat → Nat → Handler Nat
  | a, 0 => fun _ => .error (.fault a)
  | a, fuel + 1 => do
      let c ← readByte a
      if c = 0 then return 0
      else
        let n ← strlenFrom (a + 1) fuel
        return n + 1

def strlen (a : Nat) : Handler Nat := strlenFrom a (physBase - a)

/-- `strlcpy` from user memory. -/
def strlcpy (a size : Nat) : Handler Unit := do
  let n ← strlen a
  readBytes a (min n (size - 1))

/-- `!strcmp (name, e.name)`, with `name` at `a`. -/
def strcmp : Nat → List UInt8 → Handler Bool
  | a, [] => do
      let c ← readByte a
      return c = 0
  | a, b :: bs => do
      let c ← readByte a
      if c ≠ 0 ∧ c = b then strcmp (a + 1) bs else return false

/-- `lookup` of the name at `a`. -/
def lookup (a : Nat) : List (List UInt8) → Handler Bool
  | [] => return false
  | e :: es => do
      let found ← strcmp a e
      if found then return true else lookup a es

/-! ## The handler -/

/-- `is_pt_valid`. -/
def isPtValid (esp pt : Nat) (allowStackGrowth : Bool) : Handler Unit := fun u =>
  match u.check esp pt allowStackGrowth with
  | some u => .ok ((), u.lose)
  | none => .error (.ended (-1))

/-- The loop of `process_args`, from the argument at `a` on; `ptrPos` counts from there. -/
def processArgs (esp : Nat) : Nat → Nat → Nat → Handler Unit
  | _, 0, _ => pure ()
  | a, argc + 1, ptrPos => do
      isPtValid esp a false
      if ptrPos = 1 then
        let pt ← readWord a
        isPtValid esp pt true
      processArgs esp (a + 4) argc (ptrPos - 1)

/-- `sys_exec`, up to the end of `process_execute`'s copies. -/
def sysExec (cmdline : Nat) : Handler Unit := do
  strlcpy cmdline 4096
  strlcpy cmdline 4096

/-- `filesys_open` and `filesys_remove`. -/
def sysLookup (k : Kernel) (fileName : Nat) : Handler Unit := do
  let _ ← lookup fileName k.names

/-- `filesys_create`: `dir_add` tests and copies the name. -/
def sysCreate (k : Kernel) (fileName : Nat) : Handler Unit := do
  if k.creates then
    let c ← readByte fileName
    if c ≠ 0 then
      let n ← strlen fileName
      if n ≤ 14 then
        let found ← lookup fileName k.names
        if !found then strlcpy fileName 15

/-- `putbuf` of `n` bytes at `a`: what it sends to the console. -/
def putbuf : Nat → Nat → Handler (List UInt8)
  | _, 0 => return []
  | a, n + 1 => do
      let b ← readByte a
      let bs ← putbuf (a + 1) n
      return b :: bs

/-- The loop of `sys_write` to the console: what it prints, and the addresses it validates. `putbuf`
starts at `buffer` each time. `pos` does not wrap around, as a buffer in user memory is shorter than
that. -/
def consoleLoop (esp buffer size : Nat) : Nat → Nat → Nat → Int → Handler (List UInt8 × List Nat)
  | 0, _, _, _ => return ([], [])
  | fuel + 1, pos, charBuffer, bytesLeft => do
      if pos < size then
        let charBuffer := (charBuffer + pos) % 4294967296
        isPtValid esp charBuffer true
        if 300 < bytesLeft then
          let out ← putbuf buffer 300
          let rest ← consoleLoop esp buffer size fuel (pos + 300) charBuffer (bytesLeft - 300)
          return (out ++ rest.1, charBuffer :: rest.2)
        else
          let out ← putbuf buffer (bytesLeft % 4294967296).toNat
          let rest ← consoleLoop esp buffer size fuel (pos + 300) charBuffer 0
          return (out ++ rest.1, charBuffer :: rest.2)
      else return ([], [])

/-- What `sys_write` to the console does: the bytes sent, the addresses validated, `f->eax`. -/
structure Printed where
  output : List UInt8
  checked : List Nat
  eax : Nat
  deriving DecidableEq, Repr

/-- `sys_write` to descriptor 1. -/
def sysWriteConsole (esp buffer size : Nat) : Handler Printed := do
  let r ← consoleLoop esp buffer size (size / 300 + 1) 0 buffer (Int.bmod size 4294967296)
  return ⟨r.1, r.2, size⟩

/-- The bytes that `file_read` and `file_write` move when `size` is asked for, as an `off_t`. -/
def moved (size left : Nat) : Nat := if size < 2147483648 then min size left else 0

/-- `sys_write`. -/
def sysWrite (k : Kernel) (esp fd buffer size : Nat) : Handler Unit :=
  if fd = 1 then do
    let _ ← sysWriteConsole esp buffer size
  else
    match k.fileOf fd with
    | some file => readBytes buffer (moved size file.writeLeft)
    | none => pure ()

/-- `*(lookup_page (pd, pt, false)) & PTE_W`, for a page that has been present. -/
def isWritable (pt : Nat) : Handler Bool := fun u => .ok (u.writable (pt / 4096), u)

/-- The loop of `sys_read` from the keyboard. -/
def getLoop (k : Kernel) (esp : Nat) : Nat → Nat → Handler Unit
  | _, 0 => pure ()
  | a, n + 1 => do
      isPtValid esp a true
      let w ← isWritable a
      if w then
        writeByte a k.key
        getLoop k esp (a + 1) n
      else throw (.ended (-1))

/-- The loop of `sys_read` over the pages of its buffer. -/
def checkPages (esp : Nat) : Nat → Nat → Handler Unit
  | _, 0 => pure ()
  | p, n + 1 => do
      isPtValid esp p true
      let w ← isWritable p
      if w then checkPages esp (p + 4096) n else throw (.ended (-1))

/-- How often that loop runs: `(unsigned) buffer + size` may wrap around. -/
def bufferPages (buffer size : Nat) : Nat :=
  ((buffer + size) % 4294967296 - buffer / 4096 * 4096 + 4095) / 4096

/-- `sys_read`. -/
def sysRead (k : Kernel) (esp fd buffer size : Nat) : Handler Unit :=
  if fd = 0 then getLoop k esp buffer size
  else
    match k.fileOf fd with
    | some file => do
        checkPages esp (buffer / 4096 * 4096) (bufferPages buffer size)
        writeBytes buffer (file.rest.take (moved size file.rest.length))
    | none => pure ()

/-- The `switch` of `syscall_handler`, with the arguments at `args`. -/
def dispatch (k : Kernel) (esp args : Nat) : Nat → Handler Unit
  -- `halt`
  | 0 => pure ()
  -- `exit`
  | 1 => do
      processArgs esp args 1 0
      let status ← readWord args
      throw (.ended (Int.bmod status 4294967296))
  -- `exec`
  | 2 => do
      processArgs esp args 1 1
      let cmdline ← readWord args
      sysExec cmdline
  -- `create`
  | 4 => do
      processArgs esp args 2 1
      let fileName ← readWord args
      let _ ← readWord (args + 4)
      sysCreate k fileName
  -- `remove` and `open`
  | 5 | 6 => do
      processArgs esp args 1 1
      let fileName ← readWord args
      sysLookup k fileName
  -- `read`
  | 8 => do
      processArgs esp args 3 2
      let fd ← readWord args
      let buffer ← readWord (args + 4)
      let size ← readWord (args + 8)
      sysRead k esp fd buffer size
  -- `write`
  | 9 => do
      processArgs esp args 3 2
      let fd ← readWord args
      let buffer ← readWord (args + 4)
      let size ← readWord (args + 8)
      sysWrite k esp fd buffer size
  -- `seek`
  | 10 => do
      processArgs esp args 2 0
      let _ ← readWord args
      let _ ← readWord (args + 4)
  -- `wait`, `filesize`, `tell` and `close`
  | 3 | 7 | 11 | 12 => do
      processArgs esp args 1 0
      let _ ← readWord args
  | _ => throw (.ended (-1))

/-- `syscall_handler`. -/
def syscallHandler (k : Kernel) (esp : Nat) : Handler Unit := do
  isPtValid esp esp false
  let sysCallNum ← readWord esp
  dispatch k esp (esp + 4) sysCallNum

end Pintos.Syscall
