import Pintos.Userprog.Load
import Pintos.Userprog.Pagedir
import Pintos.Vm.Frame

/-!
# The paging machine

The kernel's paging state and its operations, executed one after another: `get_user_page`
and `evict_page` (`vm/frame.c`), `load_page` (`vm/page.c`), `page_in` and `page_fault`
(`userprog/exception.c`), `is_pt_valid` and `self_destruct` (`userprog/syscall.c`), and the
parts of `load`, `setup_stack` and `process_exit` (`userprog/process.c`) that touch pages.

An operation ends with a new state or with a `Crash`: a panic, a failed assertion or a wild
access. A process is named by the address of its `struct thread`; an address without a process
has a null `pagedir`. Memory of the kernel pool (page tables, entries) is not modelled, but
whether a page table or a bucket array can be allocated is part of each event (`Alloc`).
-/

namespace Pintos

open Lib Function

/-- How an operation can fail. -/
inductive Crash
  /-- A panic, a failed assertion or an access through a wild pointer. -/
  | panic
  /-- `evict_page` reads `spte->location` through a null `spte`. -/
  | nullSpte
  deriving DecidableEq, Repr

/-- What a thread has while it runs a program: `pagedir` and `supdir`. -/
structure Process where
  pagedir : Pagedir
  supdir : Supdir

/-- The state of the machine; `F` is the frame table. -/
structure Vm (F : Type) where
  procs : Nat → Option Process
  ft : F
  userPool : Pool
  swapTable : Bitmap
  mem : Mem
  swapDev : Block
  fsDev : Block

/-- Whether the allocations of an operation succeed: of a page table, of a bucket array. -/
structure Alloc where
  pageTable : Bool
  rehash : Bool
  deriving DecidableEq, Repr

namespace Vm

variable {F : Type}

/-- The page table entry of the page of `va` in process `t`. -/
def pte (vm : Vm F) (t va : Nat) : Pte :=
  match vm.procs t with
  | some pr => pr.pagedir.pte va
  | none => Pte.zero

/-- The supplemental entry of page `va` in process `t`. -/
def spte (vm : Vm F) (t va : Nat) : Option Spte :=
  match vm.procs t with
  | some pr => lookupSupPage pr.supdir va
  | none => none

/-- `t->pagedir` and `t->supdir` get new values. -/
def setProc (vm : Vm F) (t : Nat) (pr : Process) : Vm F :=
  { vm with procs := update vm.procs t (some pr) }

/-! ## Steps that do not touch the frame table -/

/-- The address `swap_write` reads from. A null `frame_addr` is an address too: that of the
current process's page 0, and the kernel panics unless that page is present. -/
def swapSource (frameAddr : Option Nat) (cur : Process) : Option Nat :=
  match frameAddr with
  | some f => some f
  | none => pagedirGetPage cur.pagedir 0

/-- `swap_write` and `supdir_set_swap` in `evict_page`, for the page `oldAddr` of `victim`. -/
def writeOut (cur : Process) (victim oldAddr : Nat) (pr : Process) (vm : Vm F) :
    Except Crash (Vm F) :=
  match swapSource (pagedirGetPage pr.pagedir oldAddr) cur with
  | none => .error .panic
  | some src =>
    match swapWrite vm.swapTable vm.swapDev vm.mem src with
    | none => .error .panic
    | some (sector, table, dev) =>
      .ok
        { vm with
          procs := update vm.procs victim (some
            { pagedir := pagedirClearPage pr.pagedir oldAddr
              supdir := (supdirSetSwap pr.supdir oldAddr (sector.getD 4294967295)).2 })
          swapTable := table
          swapDev := dev }

/-- `evict_page` from the dirty test to `pagedir_clear_page`, run by the process `cur`. -/
def swapOut (cur : Process) (victim oldAddr : Nat) (pr : Process) (vm : Vm F) :
    Except Crash (Vm F) :=
  if pagedirIsDirty pr.pagedir oldAddr then writeOut cur victim oldAddr pr vm
  else
    match lookupSupPage pr.supdir oldAddr with
    | none => .error .nullSpte
    | some spte =>
      if spte.location = .swap then writeOut cur victim oldAddr pr vm
      else .ok (vm.setProc victim { pr with pagedir := pagedirClearPage pr.pagedir oldAddr })

/-- `load_page`; the result of `pagedir_set_page` is not looked at. -/
def loadPage (a : Alloc) (t vpage frame : Nat) (vm : Vm F) : Except Crash (Bool × Vm F) :=
  match vm.procs t with
  | none => .error .panic
  | some pr =>
    match lookupSupPage pr.supdir vpage with
    | none => .ok (false, vm)
    | some e =>
      match fillFrame vm.fsDev vm.swapDev vm.swapTable e vm.mem frame,
          pagedirSetPage a.pageTable pr.pagedir vpage frame e.writable with
      | some (table, m), some (_, pd) =>
        .ok (true, { vm with
          procs := update vm.procs t (some { pr with pagedir := pd })
          swapTable := table
          mem := m })
      | _, _ => .error .panic

/-- `memset` and `pagedir_set_page` of a stack page in `page_in`. -/
def growStack (a : Alloc) (t page frame : Nat) (vm : Vm F) : Except Crash (Vm F) :=
  match vm.procs t with
  | none => .error .panic
  | some pr =>
    match pagedirSetPage a.pageTable pr.pagedir page frame true with
    | some (_, pd) =>
      .ok { vm with
        procs := update vm.procs t (some { pr with pagedir := pd })
        mem := vm.mem.fill frame 4096 0 }
    | none => .error .panic

/-- A store by the hardware: the byte changes and the dirty bit is set. -/
def storeByte (t va : Nat) (b : UInt8) (vm : Vm F) : Except Crash (Vm F) :=
  match vm.procs t with
  | none => .error .panic
  | some pr =>
    .ok { vm with
      procs := update vm.procs t (some
        { pr with pagedir := pr.pagedir.setPte va { pr.pagedir.pte va with dirty := true } })
      mem := update vm.mem ((pr.pagedir.pte va).frame + va % 4096) b }

/-- The loop of `supdir_destroy`. -/
def supdirDestroy (pd : Pagedir) : List Spte → Bitmap → Option Bitmap
  | [], table => some table
  | e :: es, table =>
    if ((lookupPage pd e.vaddr).any fun pte => !pte.present) && e.location == .swap then
      match swapRemove table e.sector with
      | some table => supdirDestroy pd es table
      | none => none
    else supdirDestroy pd es table

/-- `PHYS_BASE - PGSIZE`. -/
def stackAddr : Nat := 0xbffff000

/-- The supplemental table of an executable, the stack's entry included. -/
def imageSupdir (inode : Inode) (phs : List Phdr) : Supdir :=
  supdirSetPage (loadPhdrs inode phs supdirCreate).2 stackAddr 0 0 .zero true

/-- `addr < PHYS_BASE && addr >= esp - 32`, with the subtraction in 32 bits. -/
def isStackPage (addr esp : Nat) : Bool :=
  addr < physBase && (esp + 4294967264) % 4294967296 ≤ addr

/-! ## The kernel's functions -/

variable [FrameTableOps F]

/-- `get_user_page`. -/
def getUserPage (a : Alloc) (t vaddr : Nat) (vm : Vm F) : Option Nat × Vm F :=
  match pallocGetPage vm.userPool with
  | (some page, pool) =>
    (some page,
      { vm with
        userPool := pool
        mem := vm.mem.fill page 4096 0
        ft := FrameTableOps.insert a.rehash vm.ft t vaddr })
  | (none, _) => (none, vm)

/-- `evict_page`. A victim without a process has a null `pagedir`, which fails an assertion in
`lookup_page`; the address has to pass those of `pagedir_get_page` and `pagedir_clear_page`. -/
def evictPage (a : Alloc) (t newAddr : Nat) (vm : Vm F) : Except Crash (Option Nat × Vm F) :=
  match FrameTableOps.select vm.ft with
  | none => .error .panic
  | some (s, ft) =>
    let victim := FrameTableOps.thread ft s.chosen
    let oldAddr := FrameTableOps.vaddr ft s.chosen
    match vm.procs t, vm.procs victim with
    | some cur, some pr =>
      if oldAddr < physBase ∧ oldAddr % 4096 = 0 then
        match swapOut cur victim oldAddr pr vm, FrameTableOps.rekey a.rehash ft s t newAddr with
        | .ok vm', some ft => .ok (pagedirGetPage pr.pagedir oldAddr, { vm' with ft := ft })
        | .error c, _ => .error c
        | .ok _, none => .error .panic
      else .error .panic
    | _, _ => .error .panic

/-- `get_user_page`, and `evict_page` when there is no free page. -/
def obtainFrame (a : Alloc) (t vaddr : Nat) (vm : Vm F) : Except Crash (Option Nat × Vm F) :=
  match getUserPage a t vaddr vm with
  | (some frame, vm) => .ok (some frame, vm)
  | (none, vm) => evictPage a t vaddr vm

/-- `set_pinned (vaddr, false)`. -/
def setPinned (t vaddr : Nat) (vm : Vm F) : Vm F :=
  match FrameTableOps.find vm.ft t vaddr with
  | some i => { vm with ft := FrameTableOps.up (FrameTableOps.tryDown vm.ft i) i }
  | none => vm

/-- The loops of `pagedir_destroy`: each frame goes back to palloc, which fills it with 0xcc,
and then to `free_frame`, as a kernel address. -/
def destroyFrames (a : Alloc) (t : Nat) : List Nat → Vm F → Option (Vm F)
  | [], vm => some vm
  | page :: pages, vm =>
    match pallocFreePage vm.userPool page, FrameTableOps.free a.rehash vm.ft t page with
    | some pool, some ft =>
      destroyFrames a t pages
        { vm with
          userPool := pool
          mem := vm.mem.fill page 4096 0xcc
          ft := ft }
    | _, _ => none

/-- `self_destruct` and `process_exit`: `supdir_destroy`, `pagedir = NULL`, `pagedir_destroy`. -/
def exitProc (a : Alloc) (t : Nat) (vm : Vm F) : Except Crash (Vm F) :=
  match vm.procs t with
  | none => .error .panic
  | some pr =>
    match supdirDestroy pr.pagedir pr.supdir.entries vm.swapTable with
    | none => .error .panic
    | some table =>
      match destroyFrames a t (pagedirFrames pr.pagedir)
          { vm with
            procs := update vm.procs t none
            swapTable := table } with
      | some vm => .ok vm
      | none => .error .panic

/-- `page_in`. -/
def pageIn (a : Alloc) (t faultAddr : Nat) (stackPage : Bool) (vm : Vm F) : Except Crash (Vm F) :=
  let faultPage := faultAddr / 4096 * 4096
  match vm.procs t with
  | none => .error .panic
  | some pr =>
    if !stackPage && (lookupSupPage pr.supdir faultPage).isNone then exitProc a t vm
    else
      match obtainFrame a t faultPage vm with
      | .error c => .error c
      | .ok (none, vm) => exitProc a t vm
      | .ok (some frame, vm) =>
        if stackPage then growStack a t faultPage frame vm
        else
          match loadPage a t faultPage frame vm with
          | .ok (_, vm) => .ok (setPinned t faultPage vm)
          | .error c => .error c

/-- `setup_stack` after its `supdir_set_page`, without `parse_push`, whose stores are events. -/
def setupStack (a : Alloc) (t : Nat) (vm : Vm F) : Except Crash (Vm F) :=
  match obtainFrame a t stackAddr vm with
  | .error c => .error c
  | .ok (none, _) => .error .panic
  | .ok (some frame, vm) =>
    match loadPage a t stackAddr frame vm with
    | .ok (_, vm) => .ok vm
    | .error c => .error c

/-- `load` in `start_process`: a load that fails ends in `self_destruct`. -/
def startProcess (a : Alloc) (t : Nat) (inode : Inode) (phs : List Phdr) (vm : Vm F) :
    Except Crash (Vm F) :=
  if (loadPhdrs inode phs supdirCreate).1 then
    setupStack a t (vm.setProc t ⟨pagedirCreate, imageSupdir inode phs⟩)
  else exitProc a t (vm.setProc t ⟨pagedirCreate, (loadPhdrs inode phs supdirCreate).2⟩)

end Vm

/-! ## Events -/

/-- What can happen next. -/
inductive Event
  /-- A new thread `t` loads the executable `inode`. -/
  | load (a : Alloc) (t : Nat) (inode : Inode) (phs : List Phdr)
  /-- The user program of `t` touches `addr`, which is not present. -/
  | fault (a : Alloc) (t addr esp : Nat)
  /-- A system call of `t` checks the pointer `pt` by `is_pt_valid`. -/
  | validate (a : Alloc) (t pt esp : Nat) (allowStackGrowth : Bool)
  /-- `t` stores a byte at a present, writable address. -/
  | store (t va : Nat) (b : UInt8)
  /-- `t` exits. -/
  | exit (a : Alloc) (t : Nat)

namespace Vm

variable {F : Type}

/-- When an event can happen. -/
def enabled (vm : Vm F) : Event → Bool
  | .load _ t _ _ => (vm.procs t).isNone
  | .fault _ t addr _ => (vm.procs t).isSome && !(vm.pte t addr).present
  | .validate _ t _ _ _ => (vm.procs t).isSome
  | .store t va _ => (vm.pte t va).present && (vm.pte t va).writable && va < physBase
  | .exit _ t => (vm.procs t).isSome

variable [FrameTableOps F]

/-- `is_pt_valid`; `sys_exit (-1)` is an exit. -/
def isPtValid (a : Alloc) (t pt esp : Nat) (allowStackGrowth : Bool) (vm : Vm F) :
    Except Crash (Vm F) :=
  if pt = 0 ∨ physBase ≤ pt then exitProc a t vm
  else if (vm.pte t pt).present then .ok vm
  else pageIn a t pt (allowStackGrowth && isStackPage pt esp) vm

/-- The kernel's answer to an event. -/
def apply (vm : Vm F) : Event → Except Crash (Vm F)
  | .load a t inode phs => startProcess a t inode phs vm
  | .fault a t addr esp => pageIn a t addr (isStackPage addr esp) vm
  | .validate a t pt esp allow => isPtValid a t pt esp allow vm
  | .store t va b => storeByte t va b vm
  | .exit a t => exitProc a t vm

/-- One step of the machine. -/
def Step (vm : Vm F) (e : Event) (vm' : Vm F) : Prop :=
  vm.enabled e = true ∧ vm.apply e = .ok vm'

/-- The machine after boot: no process, all swap space free, any files. -/
structure Boot (vm : Vm F) : Prop where
  procs : ∀ t, vm.procs t = none
  keys : FrameTableOps.keys vm.ft = []
  swapTable : ∀ i, bitmapTest vm.swapTable i = false

end Vm

end Pintos
