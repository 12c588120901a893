import Pintos.Vm.Evict
import Pintos.Vm.Steps

/-!
# Threads in the paging code

The machine of `Pintos.Vm.Machine` runs each operation to its end. Here every thread is somewhere in
the paging code, and any thread may take the next step. A step is what a thread does between two
points where another thread's action matters: an allocation, a section under `ft_sema`, a use of the
swap table, one `block_write`, the installation of a page, the visit of one entry or page by
`supdir_destroy` and `pagedir_destroy`. Reading a page in (`block_read`, `swap_read`, `memset`) is one
step: its frame belongs to the thread.

A step is missing where the thread has to wait for `ft_sema` and where the kernel panics. An access
to a supplemental table that `supdir_destroy` has freed counts as a panic.
-/

namespace Pintos

open Lib Function

/-- Who asks for a frame: `page_in` for a page with an entry, `page_in` for a stack page, or
`setup_stack`. -/
inductive Request
  | pageIn
  | stackGrowth
  | setupStack
  deriving DecidableEq, Repr

/-- The variables of `evict_page` once it has found a victim, and who called it. -/
structure EvictLocals where
  request : Request
  newAddr : Nat
  sel : Selection
  victim : Nat
  oldAddr : Nat
  frameAddr : Option Nat
  deriving DecidableEq, Repr

/-- The frame table entry of a thread's new frame, and whether `get_user_page` made it; the code does
not keep this. -/
structure NewFrame where
  entry : Nat
  fresh : Bool
  deriving DecidableEq, Repr

/-- Where a thread is. -/
inductive Pc
  /-- No process: not yet, or no longer. -/
  | gone
  /-- In the user program, or in a system call that does not touch pages. -/
  | user
  /-- Before `palloc_get_page` in `get_user_page`. -/
  | getUserPage (request : Request) (page : Nat)
  /-- Before `sema_down (ft_sema)` in `get_user_page`. -/
  | insertEntry (request : Request) (page frame : Nat)
  /-- Before `sema_down (ft_sema)` in `evict_page`. -/
  | evictPage (request : Request) (page : Nat)
  /-- In `evict_page`, with `ft_sema`; `done` is before `hash_delete`. -/
  | evict (c : EvictLocals) (at_ : EvictPc)
  /-- Before `load_page`, or before `memset` for a stack page. -/
  | fill (request : Request) (page frame : Nat) (new : NewFrame)
  /-- Before `pagedir_set_page`. -/
  | install (request : Request) (page frame : Nat) (new : NewFrame) (writable : Bool)
  /-- Before `sema_down (ft_sema)` in `set_pinned`. -/
  | setPinned (page : Nat) (new : NewFrame)
  /-- In `set_pinned`, before `sema_try_down` of the entry `found`. -/
  | tryDown (found : Nat) (new : NewFrame)
  /-- In `set_pinned`, before `sema_up` of the entry `found`. -/
  | up (found : Nat) (new : NewFrame)
  /-- In `supdir_destroy`: the addresses still to visit, and those whose slot was given up. -/
  | supdirDestroy (todo removed : List Nat)
  /-- In `supdir_destroy`, before `swap_remove`. -/
  | swapRemove (sector : Nat) (todo removed : List Nat)
  /-- In `process_exit`, before `cur->pagedir = NULL`; the supplemental table is freed. -/
  | processExit
  /-- In `pagedir_destroy` of `pd`: the pages still to visit. -/
  | pagedirDestroy (pd : Pagedir) (todo : List Nat)
  /-- In `pagedir_destroy`, before `sema_down (ft_sema)` in `free_frame`. -/
  | freeFrame (pd : Pagedir) (frame : Nat) (todo : List Nat)

/-- The machine and where its threads are. -/
structure Sys (F : Type) where
  vm : Vm F
  pc : Nat → Pc
  /-- The thread that is past its `sema_down (ft_sema)`; `none` is a semaphore value of 1. -/
  ftSema : Option Nat

/-- What can happen next. -/
inductive Act
  /-- Thread `t` takes its next step. -/
  | run (a : Alloc) (t : Nat)
  /-- A new thread `t` loads the executable `inode`. -/
  | load (t : Nat) (inode : Inode) (phs : List Phdr)
  /-- The user program of `t` touches `addr`, which is not present. -/
  | fault (t addr esp : Nat)
  /-- A system call of `t` checks the pointer `pt` by `is_pt_valid`. -/
  | validate (t pt esp : Nat) (allowStackGrowth : Bool)
  /-- `t` stores a byte at a present, writable address. -/
  | store (t va : Nat) (b : UInt8)
  /-- `t` calls `self_destruct`. -/
  | exit (t : Nat)

/-- The thread that acts. -/
def Act.thread : Act → Nat
  | .run _ t | .load t _ _ | .fault t _ _ | .validate t _ _ _ | .store t _ _ | .exit t => t

/-- The steps that read or write the victim's supplemental table. -/
def EvictPc.usesSupdir : EvictPc → Bool
  | .test | .record _ => true
  | _ => false

namespace Sys

variable {F : Type}

/-- Thread `t` goes on to `pc`. -/
def goto (s : Sys F) (t : Nat) (pc : Pc) : Sys F := { s with pc := update s.pc t pc }

/-- The table of `t` has been freed, while `t->supdir` still points to it. -/
def supdirFreed (s : Sys F) (t : Nat) : Bool :=
  match s.pc t with
  | .processExit => true
  | _ => false

/-- `t` runs its user program. -/
def inUser (s : Sys F) (t : Nat) : Bool :=
  match s.pc t with
  | .user => true
  | _ => false

/-- The start of `supdir_destroy`, with all entries to visit. -/
def destroyList (pr : Process) : Pc := .supdirDestroy (pr.supdir.entries.map Spte.vaddr) []

/-- `self_destruct`, up to the loop of `supdir_destroy`. -/
def selfDestruct (s : Sys F) (t : Nat) : Option (Sys F) :=
  match s.vm.procs t with
  | some pr => some (s.goto t (destroyList pr))
  | none => none

/-- `page_in`, up to `get_user_page`. -/
def pageIn (s : Sys F) (t faultAddr : Nat) (stackPage : Bool) : Option (Sys F) :=
  let faultPage := faultAddr / 4096 * 4096
  if !stackPage && (s.vm.spte t faultPage).isNone then s.selfDestruct t
  else some (s.goto t (.getUserPage (if stackPage then .stackGrowth else .pageIn) faultPage))

/-- Where the thread goes when its page is in place. -/
def afterLoad (request : Request) (page : Nat) (new : NewFrame) : Pc :=
  match request with
  | .pageIn => .setPinned page new
  | .stackGrowth | .setupStack => .user

/-- The address that `swap_write` reads in `evict_page` of thread `t`. -/
def source (s : Sys F) (t : Nat) (c : EvictLocals) : Option Nat :=
  match s.vm.procs t with
  | some cur => Vm.swapSource c.frameAddr cur
  | none => none

section Destruct

variable {s s' : Sys F}

theorem selfDestruct_some {t : Nat} (h : s.selfDestruct t = some s') :
    ∃ pr, s.vm.procs t = some pr ∧ s' = s.goto t (destroyList pr) := by
  unfold selfDestruct at h
  split at h
  · next pr hpr =>
    cases h
    exact ⟨pr, hpr, rfl⟩
  · cases h

theorem inUser_iff {t : Nat} : s.inUser t = true ↔ s.pc t = .user := by
  unfold inUser
  split <;> simp_all

end Destruct

variable [FrameTableOps F]

/-- The next step of thread `t`. -/
def advance (a : Alloc) (t : Nat) (s : Sys F) : Option (Sys F) :=
  match s.pc t with
  | .gone | .user => none
  | .getUserPage request page =>
    match pallocGetPage s.vm.userPool with
    | (some frame, pool) =>
      some { s with
        vm := { s.vm with userPool := pool, mem := s.vm.mem.fill frame 4096 0 }
        pc := update s.pc t (.insertEntry request page frame) }
    | (none, _) => some (s.goto t (.evictPage request page))
  | .insertEntry request page frame =>
    if s.ftSema = none then
      some { s with
        vm := { s.vm with ft := FrameTableOps.insert a.rehash s.vm.ft t page }
        pc := update s.pc t (.fill request page frame ⟨FrameTableOps.fresh s.vm.ft, true⟩) }
    else none
  | .evictPage request page =>
    if s.ftSema = none then
      match FrameTableOps.select s.vm.ft with
      | none => none
      | some (sel, ft) =>
        let victim := FrameTableOps.thread ft sel.chosen
        let oldAddr := FrameTableOps.vaddr ft sel.chosen
        match s.vm.procs victim with
        | none => none
        | some pr =>
          if oldAddr < physBase ∧ oldAddr % 4096 = 0 then
            some
              { vm := { s.vm with ft := ft }
                pc := update s.pc t (.evict
                  { request := request
                    newAddr := page
                    sel := sel
                    victim := victim
                    oldAddr := oldAddr
                    frameAddr := pagedirGetPage pr.pagedir oldAddr } .test)
                ftSema := some t }
          else none
    else none
  | .evict c .done =>
    match FrameTableOps.rekey a.rehash s.vm.ft c.sel t c.newAddr, c.frameAddr, c.request with
    | none, _, _ => none
    | some ft, some frame, request =>
      some
        { vm := { s.vm with ft := ft }
          pc := update s.pc t (.fill request c.newAddr frame ⟨c.sel.chosen, false⟩)
          ftSema := none }
    | some _, none, .setupStack => none
    | some ft, none, _ =>
      selfDestruct { s with vm := { s.vm with ft := ft }, ftSema := none } t
  | .evict c pc =>
    if pc.usesSupdir && s.supdirFreed c.victim then none
    else
      match s.vm.evictStep (s.source t c) c.victim c.oldAddr pc with
      | none => none
      | some (pc, vm) => some { s with vm := vm, pc := update s.pc t (.evict c pc) }
  | .fill .stackGrowth page frame new =>
    some { s with
      vm := { s.vm with mem := s.vm.mem.fill frame 4096 0 }
      pc := update s.pc t (.install .stackGrowth page frame new true) }
  | .fill request page frame new =>
    match s.vm.spte t page with
    | none =>
      match request with
      | .setupStack => s.selfDestruct t
      | _ => some (s.goto t (.setPinned page new))
    | some e =>
      match fillFrame s.vm.fsDev s.vm.swapDev s.vm.swapTable e s.vm.mem frame with
      | none => none
      | some (table, m) =>
        some { s with
          vm := { s.vm with swapTable := table, mem := m }
          pc := update s.pc t (.install request page frame new e.writable) }
  | .install request page frame new writable =>
    match s.vm.procs t with
    | none => none
    | some pr =>
      match pagedirSetPage a.pageTable pr.pagedir page frame writable with
      | none => none
      | some (_, pd) =>
        some { s with
          vm := s.vm.setProc t { pr with pagedir := pd }
          pc := update s.pc t (afterLoad request page new) }
  | .setPinned page new =>
    if s.ftSema = none then
      match FrameTableOps.find s.vm.ft t page with
      | some i => some (s.goto t (.tryDown i new))
      | none => some (s.goto t .user)
    else none
  | .tryDown i new =>
    some { s with
      vm := { s.vm with ft := FrameTableOps.tryDown s.vm.ft i }
      pc := update s.pc t (.up i new) }
  | .up i _ =>
    some { s with
      vm := { s.vm with ft := FrameTableOps.up s.vm.ft i }
      pc := update s.pc t .user }
  | .supdirDestroy [] _ => some (s.goto t .processExit)
  | .supdirDestroy (va :: todo) removed =>
    match s.vm.procs t with
    | none => none
    | some pr =>
      match lookupSupPage pr.supdir va with
      | none => some (s.goto t (.supdirDestroy todo removed))
      | some e =>
        if ((lookupPage pr.pagedir va).any fun pte => !pte.present) && e.location == .swap then
          some (s.goto t (.swapRemove e.sector todo (va :: removed)))
        else some (s.goto t (.supdirDestroy todo removed))
  | .swapRemove sector todo removed =>
    match swapRemove s.vm.swapTable sector with
    | none => none
    | some table =>
      some { s with
        vm := { s.vm with swapTable := table }
        pc := update s.pc t (.supdirDestroy todo removed) }
  | .processExit =>
    match s.vm.procs t with
    | none => none
    | some pr =>
      some { s with
        vm := { s.vm with procs := update s.vm.procs t none }
        pc := update s.pc t (.pagedirDestroy pr.pagedir (pagedirPages pr.pagedir)) }
  | .pagedirDestroy _ [] => some (s.goto t .gone)
  | .pagedirDestroy pd (va :: todo) =>
    match pallocFreePage s.vm.userPool (pd.pte va).frame with
    | none => none
    | some pool =>
      some { s with
        vm := { s.vm with
          userPool := pool
          mem := s.vm.mem.fill (pd.pte va).frame 4096 0xcc }
        pc := update s.pc t (.freeFrame pd (pd.pte va).frame todo) }
  | .freeFrame pd frame todo =>
    if s.ftSema = none then
      match FrameTableOps.free a.rehash s.vm.ft t frame with
      | none => none
      | some ft =>
        some { s with
          vm := { s.vm with ft := ft }
          pc := update s.pc t (.pagedirDestroy pd todo) }
    else none

/-- The steps of the machine with threads. -/
def step (s : Sys F) : Act → Option (Sys F)
  | .run a t => s.advance a t
  | .load t inode phs =>
    match s.pc t with
    | .gone =>
      if (loadPhdrs inode phs supdirCreate).1 then
        some { s with
          vm := s.vm.setProc t ⟨pagedirCreate, Vm.imageSupdir inode phs⟩
          pc := update s.pc t (.getUserPage .setupStack Vm.stackAddr) }
      else
        selfDestruct
          { s with vm := s.vm.setProc t ⟨pagedirCreate, (loadPhdrs inode phs supdirCreate).2⟩ } t
    | _ => none
  | .fault t addr esp =>
    if s.inUser t && !(s.vm.pte t addr).present then s.pageIn t addr (Vm.isStackPage addr esp)
    else none
  | .validate t pt esp allow =>
    if s.inUser t then
      if pt = 0 ∨ physBase ≤ pt then s.selfDestruct t
      else if (s.vm.pte t pt).present then some s
      else s.pageIn t pt (allow && Vm.isStackPage pt esp)
    else none
  | .store t va b =>
    if s.inUser t && (s.vm.pte t va).present && (s.vm.pte t va).writable then
      match Vm.storeByte t va b s.vm with
      | .ok vm => some { s with vm := vm }
      | .error _ => none
    else none
  | .exit t => if s.inUser t then s.selfDestruct t else none

/-- The steps, as a relation. -/
def Step (s : Sys F) (e : Act) (s' : Sys F) : Prop := s.step e = some s'

/-- After boot: no process, all swap space free, the swap table as long as the device. -/
structure Boot (s : Sys F) : Prop where
  vm : s.vm.Boot
  pc : ∀ t, s.pc t = .gone
  ftSema : s.ftSema = none
  swapInit : s.vm.swapTable.bitCnt = s.vm.swapDev.size

/-! ## The cases of a step -/

/-- What a step does, by the statement that is executed. -/
inductive Trans (s : Sys F) : Act → Sys F → Prop
  | getPage {a t request page frame pool} (hpc : s.pc t = .getUserPage request page)
      (hget : pallocGetPage s.vm.userPool = (some frame, pool)) :
      Trans s (.run a t) { s with
        vm := { s.vm with userPool := pool, mem := s.vm.mem.fill frame 4096 0 }
        pc := update s.pc t (.insertEntry request page frame) }
  | noPage {a t request page} (hpc : s.pc t = .getUserPage request page) :
      Trans s (.run a t) (s.goto t (.evictPage request page))
  | insert {a t request page frame} (hpc : s.pc t = .insertEntry request page frame)
      (hsema : s.ftSema = none) :
      Trans s (.run a t) { s with
        vm := { s.vm with ft := FrameTableOps.insert a.rehash s.vm.ft t page }
        pc := update s.pc t (.fill request page frame ⟨FrameTableOps.fresh s.vm.ft, true⟩) }
  | select {a t request page sel ft pr} (hpc : s.pc t = .evictPage request page)
      (hsema : s.ftSema = none) (hsel : FrameTableOps.select s.vm.ft = some (sel, ft))
      (hpr : s.vm.procs (FrameTableOps.thread ft sel.chosen) = some pr)
      (hold : FrameTableOps.vaddr ft sel.chosen < physBase ∧
        FrameTableOps.vaddr ft sel.chosen % 4096 = 0) :
      Trans s (.run a t)
        { vm := { s.vm with ft := ft }
          pc := update s.pc t (.evict
            { request := request
              newAddr := page
              sel := sel
              victim := FrameTableOps.thread ft sel.chosen
              oldAddr := FrameTableOps.vaddr ft sel.chosen
              frameAddr := pagedirGetPage pr.pagedir (FrameTableOps.vaddr ft sel.chosen) } .test)
          ftSema := some t }
  | evict {a t c pc pc' vm} (hpc : s.pc t = .evict c pc)
      (hfreed : pc.usesSupdir = true → s.supdirFreed c.victim = false)
      (hstep : s.vm.evictStep (s.source t c) c.victim c.oldAddr pc = some (pc', vm)) :
      Trans s (.run a t) { s with vm := vm, pc := update s.pc t (.evict c pc') }
  | rekey {a t c ft frame} (hpc : s.pc t = .evict c .done)
      (hkey : FrameTableOps.rekey a.rehash s.vm.ft c.sel t c.newAddr = some ft)
      (hframe : c.frameAddr = some frame) :
      Trans s (.run a t)
        { vm := { s.vm with ft := ft }
          pc := update s.pc t (.fill c.request c.newAddr frame ⟨c.sel.chosen, false⟩)
          ftSema := none }
  | rekeyNull {a t c ft pr} (hpc : s.pc t = .evict c .done)
      (hkey : FrameTableOps.rekey a.rehash s.vm.ft c.sel t c.newAddr = some ft)
      (hframe : c.frameAddr = none) (hpr : s.vm.procs t = some pr) :
      Trans s (.run a t)
        { vm := { s.vm with ft := ft }
          pc := update s.pc t (destroyList pr)
          ftSema := none }
  | zero {a t page frame new} (hpc : s.pc t = .fill .stackGrowth page frame new) :
      Trans s (.run a t) { s with
        vm := { s.vm with mem := s.vm.mem.fill frame 4096 0 }
        pc := update s.pc t (.install .stackGrowth page frame new true) }
  | fill {a t request page frame new e table m} (hpc : s.pc t = .fill request page frame new)
      (hspte : s.vm.spte t page = some e)
      (hfill : fillFrame s.vm.fsDev s.vm.swapDev s.vm.swapTable e s.vm.mem frame = some (table, m)) :
      Trans s (.run a t) { s with
        vm := { s.vm with swapTable := table, mem := m }
        pc := update s.pc t (.install request page frame new e.writable) }
  | noEntry {a t request page frame new} (hpc : s.pc t = .fill request page frame new)
      (hspte : s.vm.spte t page = none) : Trans s (.run a t) (s.goto t (.setPinned page new))
  | noStack {a t page frame new pr} (hpc : s.pc t = .fill .setupStack page frame new)
      (hpr : s.vm.procs t = some pr) : Trans s (.run a t) (s.goto t (destroyList pr))
  | install {a t request page frame new writable pr ok pd}
      (hpc : s.pc t = .install request page frame new writable) (hpr : s.vm.procs t = some pr)
      (hset : pagedirSetPage a.pageTable pr.pagedir page frame writable = some (ok, pd)) :
      Trans s (.run a t) { s with
        vm := s.vm.setProc t { pr with pagedir := pd }
        pc := update s.pc t (afterLoad request page new) }
  | found {a t page new i} (hpc : s.pc t = .setPinned page new) (hsema : s.ftSema = none)
      (hfind : FrameTableOps.find s.vm.ft t page = some i) :
      Trans s (.run a t) (s.goto t (.tryDown i new))
  | notFound {a t page new} (hpc : s.pc t = .setPinned page new) (hsema : s.ftSema = none)
      (hfind : FrameTableOps.find s.vm.ft t page = none) : Trans s (.run a t) (s.goto t .user)
  | tryDown {a t i new} (hpc : s.pc t = .tryDown i new) :
      Trans s (.run a t) { s with
        vm := { s.vm with ft := FrameTableOps.tryDown s.vm.ft i }
        pc := update s.pc t (.up i new) }
  | up {a t i new} (hpc : s.pc t = .up i new) :
      Trans s (.run a t) { s with
        vm := { s.vm with ft := FrameTableOps.up s.vm.ft i }
        pc := update s.pc t .user }
  | supdirSkip {a t va todo removed} (hpc : s.pc t = .supdirDestroy (va :: todo) removed) :
      Trans s (.run a t) (s.goto t (.supdirDestroy todo removed))
  | supdirPick {a t va todo removed e} (hpc : s.pc t = .supdirDestroy (va :: todo) removed)
      (hspte : s.vm.spte t va = some e) (hloc : e.location = .swap) :
      Trans s (.run a t) (s.goto t (.swapRemove e.sector todo (va :: removed)))
  | swapRemove {a t sector todo removed table} (hpc : s.pc t = .swapRemove sector todo removed)
      (hrem : Pintos.swapRemove s.vm.swapTable sector = some table) :
      Trans s (.run a t) { s with
        vm := { s.vm with swapTable := table }
        pc := update s.pc t (.supdirDestroy todo removed) }
  | supdirFree {a t removed} (hpc : s.pc t = .supdirDestroy [] removed) :
      Trans s (.run a t) (s.goto t .processExit)
  | processExit {a t pr} (hpc : s.pc t = .processExit) (hpr : s.vm.procs t = some pr) :
      Trans s (.run a t) { s with
        vm := { s.vm with procs := update s.vm.procs t none }
        pc := update s.pc t (.pagedirDestroy pr.pagedir (pagedirPages pr.pagedir)) }
  | freePage {a t pd va todo pool} (hpc : s.pc t = .pagedirDestroy pd (va :: todo))
      (hfree : pallocFreePage s.vm.userPool (pd.pte va).frame = some pool) :
      Trans s (.run a t) { s with
        vm := { s.vm with
          userPool := pool
          mem := s.vm.mem.fill (pd.pte va).frame 4096 0xcc }
        pc := update s.pc t (.freeFrame pd (pd.pte va).frame todo) }
  | freeFrame {a t pd frame todo ft} (hpc : s.pc t = .freeFrame pd frame todo)
      (hsema : s.ftSema = none)
      (hfree : FrameTableOps.free a.rehash s.vm.ft t frame = some ft) :
      Trans s (.run a t) { s with
        vm := { s.vm with ft := ft }
        pc := update s.pc t (.pagedirDestroy pd todo) }
  | exited {a t pd} (hpc : s.pc t = .pagedirDestroy pd []) : Trans s (.run a t) (s.goto t .gone)
  | load {t inode phs} (hpc : s.pc t = .gone) :
      Trans s (.load t inode phs) { s with
        vm := s.vm.setProc t ⟨pagedirCreate, Vm.imageSupdir inode phs⟩
        pc := update s.pc t (.getUserPage .setupStack Vm.stackAddr) }
  | loadFail {t inode phs} (hpc : s.pc t = .gone) :
      Trans s (.load t inode phs) { s with
        vm := s.vm.setProc t ⟨pagedirCreate, (loadPhdrs inode phs supdirCreate).2⟩
        pc := update s.pc t
          (destroyList ⟨pagedirCreate, (loadPhdrs inode phs supdirCreate).2⟩) }
  | pageIn {e : Act} {request page} (hpc : s.pc e.thread = .user) :
      Trans s e (s.goto e.thread (.getUserPage request page))
  | quit {e : Act} {pr} (hpc : s.pc e.thread = .user) (hpr : s.vm.procs e.thread = some pr) :
      Trans s e (s.goto e.thread (destroyList pr))
  | store {t va b vm} (hpc : s.pc t = .user) (hp : (s.vm.pte t va).present = true)
      (hst : Vm.storeByte t va b s.vm = .ok vm) : Trans s (.store t va b) { s with vm := vm }
  | nothing {e} : Trans s e s

variable {s s' : Sys F}

theorem trans_pageIn {e : Act} {addr : Nat} {stackPage : Bool} (hpc : s.pc e.thread = .user)
    (h : s.pageIn e.thread addr stackPage = some s') : Trans s e s' := by
  unfold pageIn at h
  simp only at h
  split at h
  · obtain ⟨pr, hpr, rfl⟩ := selfDestruct_some h
    exact .quit hpc hpr
  · cases h
    exact .pageIn hpc

theorem trans_advance {a : Alloc} {t : Nat} (h : s.advance a t = some s') :
    Trans s (.run a t) s' := by
  unfold advance at h
  split at h
  · cases h
  · cases h
  · next hpc =>
    split at h
    · next hget =>
      cases h
      exact .getPage hpc hget
    · cases h
      exact .noPage hpc
  · next hpc =>
    split at h
    · next hsema =>
      cases h
      exact .insert hpc hsema
    · cases h
  · next hpc =>
    split at h
    · next hsema =>
      split at h
      · cases h
      · next hsel =>
        simp only at h
        split at h
        · cases h
        · next hpr =>
          split at h
          · next hold =>
            cases h
            exact .select hpc hsema hsel hpr hold
          · cases h
    · cases h
  · next hpc =>
    split at h
    · cases h
    · next hkey hframe =>
      cases h
      exact .rekey hpc hkey hframe
    · cases h
    · next hkey hframe _ =>
      obtain ⟨pr, hpr, rfl⟩ := selfDestruct_some h
      exact .rekeyNull hpc hkey hframe hpr
  · next hpc =>
    split at h
    · cases h
    · next hfreed =>
      split at h
      · cases h
      · next hstep =>
        cases h
        exact .evict hpc (by simpa using hfreed) hstep
  · next hpc =>
    cases h
    exact .zero hpc
  · next hpc =>
    split at h
    · next hspte =>
      split at h
      · obtain ⟨pr, hpr, rfl⟩ := selfDestruct_some h
        exact .noStack hpc hpr
      · cases h
        exact .noEntry hpc hspte
    · next hspte =>
      split at h
      · cases h
      · next hfill =>
        cases h
        exact .fill hpc hspte hfill
  · next hpc =>
    split at h
    · cases h
    · next hpr =>
      split at h
      · cases h
      · next hset =>
        cases h
        exact .install hpc hpr hset
  · next hpc =>
    split at h
    · next hsema =>
      split at h
      · next hfind =>
        cases h
        exact .found hpc hsema hfind
      · next hfind =>
        cases h
        exact .notFound hpc hsema hfind
    · cases h
  · next hpc =>
    cases h
    exact .tryDown hpc
  · next hpc =>
    cases h
    exact .up hpc
  · next hpc =>
    cases h
    exact .supdirFree hpc
  · next hpc =>
    split at h
    · cases h
    · next hpr =>
      split at h
      · cases h
        exact .supdirSkip hpc
      · next e he =>
        split at h
        · next hout =>
          cases h
          rw [← Vm.spte_of_procs hpr] at he
          exact .supdirPick hpc he (by simp_all)
        · cases h
          exact .supdirSkip hpc
  · next hpc =>
    split at h
    · cases h
    · next hrem =>
      cases h
      exact .swapRemove hpc hrem
  · next hpc =>
    split at h
    · cases h
    · next hpr =>
      cases h
      exact .processExit hpc hpr
  · next hpc =>
    cases h
    exact .exited hpc
  · next hpc =>
    split at h
    · cases h
    · next hfree =>
      cases h
      exact .freePage hpc hfree
  · next hpc =>
    split at h
    · next hsema =>
      split at h
      · cases h
      · next hfree =>
        cases h
        exact .freeFrame hpc hsema hfree
    · cases h

theorem trans_of_step {e : Act} (h : Step s e s') : Trans s e s' := by
  cases e with
  | run a t => exact trans_advance h
  | load t inode phs =>
    simp only [Step, step] at h
    split at h
    · next hpc =>
      split at h
      · cases h
        exact .load hpc
      · obtain ⟨pr, hpr, rfl⟩ := selfDestruct_some h
        simp only [Vm.setProc, update_self, Option.some.injEq] at hpr
        subst hpr
        exact .loadFail hpc
    · cases h
  | fault t addr esp =>
    simp only [Step, step] at h
    split at h
    · next hok =>
      rw [Bool.and_eq_true, inUser_iff] at hok
      exact trans_pageIn (e := .fault t addr esp) hok.1 h
    · cases h
  | validate t pt esp allow =>
    simp only [Step, step] at h
    split at h
    · next hok =>
      rw [inUser_iff] at hok
      split at h
      · obtain ⟨pr, hpr, rfl⟩ := selfDestruct_some h
        exact .quit (e := .validate t pt esp allow) hok hpr
      · split at h
        · cases h
          exact .nothing
        · exact trans_pageIn (e := .validate t pt esp allow) hok h
    · cases h
  | store t va b =>
    simp only [Step, step] at h
    split at h
    · next hok =>
      simp only [Bool.and_eq_true, inUser_iff] at hok
      split at h
      · next hst =>
        cases h
        exact .store hok.1.1 hok.1.2 hst
      · cases h
    · cases h
  | exit t =>
    simp only [Step, step] at h
    split at h
    · next hok =>
      obtain ⟨pr, hpr, rfl⟩ := selfDestruct_some h
      exact .quit (e := .exit t) (inUser_iff.mp hok) hpr
    · cases h

theorem Trans.pc_other {e : Act} {t : Nat} (h : Trans s e s') (ht : t ≠ e.thread) :
    s'.pc t = s.pc t := by
  cases h with
  | store | nothing => rfl
  | _ => exact update_of_ne ht _ _

/-! ## Concrete runs -/

/-- A machine that has booted, with `frames` pages for user programs. -/
def bootWith (frames sectors : Nat) (fsDev : Block) : Sys FrameTable where
  vm := Vm.bootWith frames sectors fsDev
  pc _ := .gone
  ftSema := none

theorem boot_bootWith (frames sectors : Nat) (fsDev : Block) :
    Boot (bootWith frames sectors fsDev) :=
  ⟨Vm.boot_bootWith frames sectors fsDev, fun _ => rfl, rfl, rfl⟩

/-- `n` steps of thread `t`, with all allocations successful. -/
def runs (t n : Nat) : List Act := List.replicate n (.run ⟨true, true⟩ t)

/-- A thread loads an executable with one page of text and sets up its stack. -/
def loadText (t : Nat) : List Act := .load t ⟨0, 4096⟩ [Vm.textPhdr] :: runs t 4

end Sys

end Pintos
