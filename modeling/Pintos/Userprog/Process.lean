import Pintos.Lib.Runs

/-!
# Parents and children

A process and its parent meet in `process_execute`, `start_process`, `process_wait`, `self_destruct`
and `process_exit`. They share the fields of `struct thread`: the parent finds its children in its
list and waits on the `child_sema` of one of them, a child reports the success of its `load` to its
parent and ups `load_sema` there. A `struct thread` lies in one page with the thread's kernel stack,
so `palloc_free_page` of it takes away both; here the place in the code is a field.

Any thread may take the next step. A step is one access to a field that another thread uses. A step
is missing where the thread has to wait for a semaphore and where the kernel does not survive:
`palloc_free_page` fills the page with `0xcc`, so neither a thread that frees its own page nor the
loop of `process_exit`, which reads the next pointer from the page it has just freed, goes on.
-/

namespace Pintos.Process

open Lib

/-- Where a thread is. -/
inductive ThreadPc
  /-- The loop of the idle thread. -/
  | idle
  /-- In `load`, called by `start_process`. -/
  | load
  /-- In `start_process`, before `t->parent->success = success`. -/
  | setSuccess (success : Bool)
  /-- In `start_process`, before `sema_up (&t->parent->load_sema)`. -/
  | upLoadSema (success : Bool)
  /-- In `start_process` after a failed `load`, before `sema_up (&t->child_sema)`. -/
  | upChildSema
  /-- In the user program; for the initial thread, in `run_actions`. -/
  | running
  /-- In `sys_exec`, before `sema_down (&parent->load_sema)`. -/
  | downLoadSema (tid : Int)
  /-- In `sys_exec`, before `f->eax` is set. -/
  | setEax (tid : Int)
  /-- In `sys_exec`, before `parent->success` is read again. -/
  | dropFailed (tid eax : Int)
  /-- At the start of `process_wait`. -/
  | processWait (tid : Int)
  /-- In `process_wait`, before `sema_down (&child->child_sema)`. -/
  | downChildSema (child : Nat) (tid : Int)
  /-- In `process_wait`, before `child->return_status` is read. -/
  | readStatus (child : Nat) (tid : Int)
  /-- In `process_wait`, before the child is removed from the list and freed. -/
  | removeChild (tid status : Int)
  /-- At the start of `self_destruct`. -/
  | selfDestruct (status : Int)
  /-- In the loop of `self_destruct`: the children still to visit. -/
  | orphan (todo : List Nat)
  /-- In the loop of `process_exit`: the children still to visit. -/
  | processExit (todo : List Nat)
  /-- In `process_exit`, before `cur->parent` is read. -/
  | testParent
  /-- In `process_exit`, before `sema_up (&cur->child_sema)`. -/
  | signalParent
  /-- In `thread_exit`, before `schedule` switches to another thread. -/
  | switchOut
  /-- Switched out for the last time. -/
  | dying
  deriving DecidableEq, Repr

/-- A `struct thread` in its page. Pages are known by their addresses. -/
structure Thread where
  tid : Int
  parent : Option Nat
  children : List Nat
  childSema : Nat
  loadSema : Nat
  returnStatus : Int
  success : Bool
  pc : ThreadPc
  deriving DecidableEq, Repr

/-- What has happened, by the `tid`s of the threads. -/
inductive Note
  | created (parent child : Int)
  /-- `load` returns. -/
  | loaded (tid : Int) (success : Bool)
  | killed (tid : Int)
  /-- `self_destruct (status)`. -/
  | destructed (tid status : Int)
  /-- `sys_exec` of `parent` returns. -/
  | execReturned (parent child eax : Int)
  /-- `process_wait (tid)` of `parent` returns. -/
  | waited (parent tid status : Int)
  deriving DecidableEq, Repr

/-- The threads, and what they have done, the latest first. -/
structure Tree where
  page : Nat → Option Thread
  initialThread : Nat
  nextTid : Int
  log : List Note

/-- What can happen next. -/
inductive Event
  /-- Thread `t` takes its next step. -/
  | run (t : Nat)
  /-- `load` of thread `t` returns. -/
  | load (t : Nat) (success : Bool)
  /-- The initial thread runs a task; `page` is the new thread's, `none` if there was no memory. -/
  | runTask (page : Option Nat)
  /-- `t` calls `exec`. -/
  | exec (t : Nat) (page : Option Nat)
  /-- `t` calls `wait`. -/
  | wait (t : Nat) (tid : Int)
  /-- `t` calls `exit`. -/
  | exit (t : Nat) (status : Int)
  /-- The kernel kills `t`. -/
  | kill (t : Nat)
  deriving DecidableEq, Repr

/-- `childelem_from_tid`. The result `none` is an access to a freed page. -/
def childelemFromTid (page : Nat → Option Thread) (tid : Int) : List Nat → Option (Option Nat)
  | [] => some none
  | c :: cs =>
    match page c with
    | none => none
    | some child => if child.tid = tid then some (some c) else childelemFromTid page tid cs

/-- What `init_thread` and `thread_create` write, for a thread that starts in `start_process`. -/
def initThread (tid : Int) (parent : Nat) : Thread :=
  { tid := tid
    parent := some parent
    children := []
    childSema := 0
    loadSema := 0
    returnStatus := 0
    success := false
    pc := .load }

namespace Tree

/-- The thread in page `a` becomes `x`. -/
def put (s : Tree) (a : Nat) (x : Thread) : Tree :=
  { s with page := Function.update s.page a (some x) }

/-- `palloc_free_page`. -/
def free (s : Tree) (a : Nat) : Tree := { s with page := Function.update s.page a none }

def note (s : Tree) (n : Note) : Tree := { s with log := n :: s.log }

/-- Thread `t` goes on to `pc`. -/
def goto (s : Tree) (t : Nat) (x : Thread) (pc : ThreadPc) : Tree := s.put t { x with pc := pc }

@[simp] theorem put_log (s : Tree) (a : Nat) (x : Thread) : (s.put a x).log = s.log := rfl

@[simp] theorem goto_log (s : Tree) (t : Nat) (x : Thread) (pc : ThreadPc) :
    (s.goto t x pc).log = s.log := rfl

/-- `thread_create` by thread `t`, with `a` from `palloc_get_page`. Past `INT_MAX` the result of
`next_tid++` is not defined. -/
def threadCreate (s : Tree) (t : Nat) (x : Thread) (a : Nat) (pc : Int → ThreadPc) : Option Tree :=
  if s.page a = none ∧ s.nextTid < 2147483647 then
    some
      { (s.put a (initThread s.nextTid t)).put t
          { x with children := x.children ++ [a], pc := pc s.nextTid } with
        nextTid := s.nextTid + 1
        log := .created x.tid s.nextTid :: s.log }
  else none

/-- The next step of thread `t`, which is `x`. -/
def advance (s : Tree) (t : Nat) (x : Thread) : Option Tree :=
  match x.pc with
  | .idle | .load | .running | .dying => none
  | .setSuccess success =>
    match x.parent with
    | none => none
    | some p =>
      match s.page p with
      | none => none
      | some parent =>
        some ((s.put p { parent with success := success }).goto t x (.upLoadSema success))
  | .upLoadSema success =>
    match x.parent with
    | none => none
    | some p =>
      match s.page p with
      | none => none
      | some parent =>
        some ((s.goto t x (if success then .running else .upChildSema)).put p
          { parent with loadSema := parent.loadSema + 1 })
  | .upChildSema =>
    some (s.put t { x with childSema := x.childSema + 1, pc := .selfDestruct (-1) })
  | .downLoadSema tid =>
    if 0 < x.loadSema then some (s.put t { x with loadSema := x.loadSema - 1, pc := .setEax tid })
    else none
  | .setEax tid => some (s.goto t x (.dropFailed tid (if x.success then tid else -1)))
  | .dropFailed tid eax =>
    if x.success then some ((s.goto t x .running).note (.execReturned x.tid tid eax))
    else
      match childelemFromTid s.page tid x.children with
      | some (some c) =>
        some ((s.put t { x with children := x.children.erase c, pc := .running }).note
          (.execReturned x.tid tid eax))
      | _ => none
  | .processWait tid =>
    match childelemFromTid s.page tid x.children with
    | none => none
    | some none => some ((s.goto t x .running).note (.waited x.tid tid (-1)))
    | some (some c) => some (s.goto t x (.downChildSema c tid))
  | .downChildSema c tid =>
    match s.page c with
    | none => none
    | some child =>
      if 0 < child.childSema then
        some ((s.goto t x (.readStatus c tid)).put c
          { child with childSema := child.childSema - 1 })
      else none
  | .readStatus c tid =>
    match s.page c with
    | none => none
    | some child => some (s.goto t x (.removeChild tid child.returnStatus))
  | .removeChild tid status =>
    match childelemFromTid s.page tid x.children with
    | none => none
    | some none => some ((s.goto t x .running).note (.waited x.tid tid status))
    | some (some c) =>
      some (((s.put t { x with children := x.children.erase c, pc := .running }).note
        (.waited x.tid tid status)).free c)
  | .selfDestruct status =>
    some ((s.put t { x with returnStatus := status, pc := .orphan x.children }).note
      (.destructed x.tid status))
  | .orphan [] => some (s.goto t x (.processExit x.children))
  | .orphan (c :: todo) =>
    match s.page c with
    | none => none
    | some child => some ((s.put c { child with parent := none }).goto t x (.orphan todo))
  | .processExit [] => some (s.goto t x .testParent)
  | .processExit (c :: todo) =>
    match s.page c with
    | none => none
    | some child => if 0 < child.childSema then none else some (s.goto t x (.processExit todo))
  | .testParent => if x.parent.isSome then some (s.goto t x .signalParent) else none
  | .signalParent => some (s.put t { x with childSema := x.childSema + 1, pc := .switchOut })
  | .switchOut => some (s.goto t x .dying)

/-- The steps. -/
def step (s : Tree) : Event → Option Tree
  | .run t =>
    match s.page t with
    | none => none
    | some x => s.advance t x
  | .load t success =>
    match s.page t with
    | none => none
    | some x =>
      if x.pc = .load then
        some ((s.goto t x (.setSuccess success)).note (.loaded x.tid success))
      else none
  | .runTask page =>
    match s.page s.initialThread with
    | none => none
    | some x =>
      if x.pc = .running then
        match page with
        | none => some (s.goto s.initialThread x (.processWait (-1)))
        | some a => s.threadCreate s.initialThread x a .processWait
      else none
  | .exec t page =>
    match s.page t with
    | none => none
    | some x =>
      if t ≠ s.initialThread ∧ x.pc = .running then
        match page with
        | none => some s
        | some a => s.threadCreate t x a .downLoadSema
      else none
  | .wait t tid =>
    match s.page t with
    | none => none
    | some x =>
      if t ≠ s.initialThread ∧ x.pc = .running then some (s.goto t x (.processWait tid))
      else none
  | .exit t status =>
    match s.page t with
    | none => none
    | some x =>
      if t ≠ s.initialThread ∧ x.pc = .running then some (s.goto t x (.selfDestruct status))
      else none
  | .kill t =>
    match s.page t with
    | none => none
    | some x =>
      if t ≠ s.initialThread ∧ (x.pc = .running ∨ x.pc = .load) then
        some ((s.goto t x (.selfDestruct (-1))).note (.killed x.tid))
      else none

/-- The steps, as a relation. -/
def Step (s : Tree) (e : Event) (s' : Tree) : Prop := s.step e = some s'

/-- The initial thread, in `run_actions`. -/
def firstThread : Thread :=
  { tid := 1
    parent := none
    children := []
    childSema := 0
    loadSema := 0
    returnStatus := 0
    success := false
    pc := .running }

/-- After `thread_init`. -/
def threadInit (initial : Nat) : Tree :=
  { page := Function.update (fun _ => none) initial (some firstThread)
    initialThread := initial
    nextTid := 2
    log := [] }

/-- After `thread_start`: the idle thread is the first child of the initial thread. -/
def boot (initial idle : Nat) : Tree :=
  (({ threadInit initial with
      page := Function.update (threadInit initial).page idle
        (some { initThread 2 initial with pc := .idle })
      nextTid := 3 } : Tree).put initial { firstThread with children := [idle] }).note (.created 1 2)

/-! ## The cases of a step -/

/-- What a step does, by the statement that is executed. -/
inductive Trans (s : Tree) : Event → Tree → Prop
  | setSuccess {t x ok p w} (hx : s.page t = some x) (hpc : x.pc = .setSuccess ok)
      (hpar : x.parent = some p) (hw : s.page p = some w) :
      Trans s (.run t) ((s.put p { w with success := ok }).goto t x (.upLoadSema ok))
  | upLoadSema {t x ok p w} (hx : s.page t = some x) (hpc : x.pc = .upLoadSema ok)
      (hpar : x.parent = some p) (hw : s.page p = some w) :
      Trans s (.run t) ((s.goto t x (if ok then .running else .upChildSema)).put p
        { w with loadSema := w.loadSema + 1 })
  | upChildSema {t x} (hx : s.page t = some x) (hpc : x.pc = .upChildSema) :
      Trans s (.run t) (s.put t { x with childSema := x.childSema + 1, pc := .selfDestruct (-1) })
  | downLoadSema {t x tid} (hx : s.page t = some x) (hpc : x.pc = .downLoadSema tid)
      (hpos : 0 < x.loadSema) :
      Trans s (.run t) (s.put t { x with loadSema := x.loadSema - 1, pc := .setEax tid })
  | setEax {t x tid} (hx : s.page t = some x) (hpc : x.pc = .setEax tid) :
      Trans s (.run t) (s.goto t x (.dropFailed tid (if x.success then tid else -1)))
  | execDone {t x tid eax} (hx : s.page t = some x) (hpc : x.pc = .dropFailed tid eax)
      (hsuccess : x.success = true) :
      Trans s (.run t) ((s.goto t x .running).note (.execReturned x.tid tid eax))
  | execFail {t x tid eax c} (hx : s.page t = some x) (hpc : x.pc = .dropFailed tid eax)
      (hsuccess : x.success = false)
      (hfind : childelemFromTid s.page tid x.children = some (some c)) :
      Trans s (.run t) ((s.put t { x with children := x.children.erase c, pc := .running }).note
        (.execReturned x.tid tid eax))
  | waitOther {t x tid} (hx : s.page t = some x) (hpc : x.pc = .processWait tid)
      (hfind : childelemFromTid s.page tid x.children = some none) :
      Trans s (.run t) ((s.goto t x .running).note (.waited x.tid tid (-1)))
  | waitChild {t x tid c} (hx : s.page t = some x) (hpc : x.pc = .processWait tid)
      (hfind : childelemFromTid s.page tid x.children = some (some c)) :
      Trans s (.run t) (s.goto t x (.downChildSema c tid))
  | downChildSema {t x c tid y} (hx : s.page t = some x) (hpc : x.pc = .downChildSema c tid)
      (hy : s.page c = some y) (hpos : 0 < y.childSema) :
      Trans s (.run t) ((s.goto t x (.readStatus c tid)).put c
        { y with childSema := y.childSema - 1 })
  | readStatus {t x c tid y} (hx : s.page t = some x) (hpc : x.pc = .readStatus c tid)
      (hy : s.page c = some y) :
      Trans s (.run t) (s.goto t x (.removeChild tid y.returnStatus))
  | removeNone {t x tid status} (hx : s.page t = some x) (hpc : x.pc = .removeChild tid status)
      (hfind : childelemFromTid s.page tid x.children = some none) :
      Trans s (.run t) ((s.goto t x .running).note (.waited x.tid tid status))
  | removeChild {t x tid status c} (hx : s.page t = some x) (hpc : x.pc = .removeChild tid status)
      (hfind : childelemFromTid s.page tid x.children = some (some c)) :
      Trans s (.run t) (((s.put t { x with children := x.children.erase c, pc := .running }).note
        (.waited x.tid tid status)).free c)
  | selfDestruct {t x status} (hx : s.page t = some x) (hpc : x.pc = .selfDestruct status) :
      Trans s (.run t) ((s.put t { x with returnStatus := status, pc := .orphan x.children }).note
        (.destructed x.tid status))
  | orphanDone {t x} (hx : s.page t = some x) (hpc : x.pc = .orphan []) :
      Trans s (.run t) (s.goto t x (.processExit x.children))
  | orphan {t x c todo y} (hx : s.page t = some x) (hpc : x.pc = .orphan (c :: todo))
      (hy : s.page c = some y) :
      Trans s (.run t) ((s.put c { y with parent := none }).goto t x (.orphan todo))
  | exitDone {t x} (hx : s.page t = some x) (hpc : x.pc = .processExit []) :
      Trans s (.run t) (s.goto t x .testParent)
  | exitChild {t x c todo y} (hx : s.page t = some x) (hpc : x.pc = .processExit (c :: todo))
      (hy : s.page c = some y) (hzero : y.childSema = 0) :
      Trans s (.run t) (s.goto t x (.processExit todo))
  | testParent {t x} (hx : s.page t = some x) (hpc : x.pc = .testParent)
      (hpar : x.parent.isSome = true) : Trans s (.run t) (s.goto t x .signalParent)
  | signalParent {t x} (hx : s.page t = some x) (hpc : x.pc = .signalParent) :
      Trans s (.run t) (s.put t { x with childSema := x.childSema + 1, pc := .switchOut })
  | switchOut {t x} (hx : s.page t = some x) (hpc : x.pc = .switchOut) :
      Trans s (.run t) (s.goto t x .dying)
  | load {t x ok} (hx : s.page t = some x) (hpc : x.pc = .load) :
      Trans s (.load t ok) ((s.goto t x (.setSuccess ok)).note (.loaded x.tid ok))
  | noTask {x} (hx : s.page s.initialThread = some x) (hpc : x.pc = .running) :
      Trans s (.runTask none) (s.goto s.initialThread x (.processWait (-1)))
  | task {x a} (hx : s.page s.initialThread = some x) (hpc : x.pc = .running)
      (hcreate : s.threadCreate s.initialThread x a .processWait = some s') :
      Trans s (.runTask (some a)) s'
  | noExec {t x} (hx : s.page t = some x) (hpc : x.pc = .running) (ht : t ≠ s.initialThread) :
      Trans s (.exec t none) s
  | exec {t x a} (hx : s.page t = some x) (hpc : x.pc = .running) (ht : t ≠ s.initialThread)
      (hcreate : s.threadCreate t x a .downLoadSema = some s') : Trans s (.exec t (some a)) s'
  | wait {t x tid} (hx : s.page t = some x) (hpc : x.pc = .running) (ht : t ≠ s.initialThread) :
      Trans s (.wait t tid) (s.goto t x (.processWait tid))
  | exit {t x status} (hx : s.page t = some x) (hpc : x.pc = .running)
      (ht : t ≠ s.initialThread) : Trans s (.exit t status) (s.goto t x (.selfDestruct status))
  | kill {t x} (hx : s.page t = some x) (hpc : x.pc = .running ∨ x.pc = .load)
      (ht : t ≠ s.initialThread) :
      Trans s (.kill t) ((s.goto t x (.selfDestruct (-1))).note (.killed x.tid))

theorem trans_of_advance {s s' : Tree} {t : Nat} {x : Thread} (hx : s.page t = some x)
    (h : s.advance t x = some s') : Trans s (.run t) s' := by
  unfold advance at h
  split at h
  · cases h
  · cases h
  · cases h
  · cases h
  · next ok hpc =>
    split at h
    · cases h
    · next p hpar =>
      split at h
      · cases h
      · next w hw =>
        cases h
        exact .setSuccess hx hpc hpar hw
  · next ok hpc =>
    split at h
    · cases h
    · next p hpar =>
      split at h
      · cases h
      · next w hw =>
        cases h
        exact .upLoadSema hx hpc hpar hw
  · next hpc =>
    cases h
    exact .upChildSema hx hpc
  · next tid hpc =>
    split at h
    · next hpos =>
      cases h
      exact .downLoadSema hx hpc hpos
    · cases h
  · next tid hpc =>
    cases h
    exact .setEax hx hpc
  · next tid eax hpc =>
    split at h
    · next hsuccess =>
      cases h
      exact .execDone hx hpc hsuccess
    · next hsuccess =>
      split at h
      · next c hfind =>
        cases h
        exact .execFail hx hpc (by simpa using hsuccess) hfind
      · cases h
  · next tid hpc =>
    split at h
    · cases h
    · next hfind =>
      cases h
      exact .waitOther hx hpc hfind
    · next c hfind =>
      cases h
      exact .waitChild hx hpc hfind
  · next c tid hpc =>
    split at h
    · cases h
    · next y hy =>
      split at h
      · next hpos =>
        cases h
        exact .downChildSema hx hpc hy hpos
      · cases h
  · next c tid hpc =>
    split at h
    · cases h
    · next y hy =>
      cases h
      exact .readStatus hx hpc hy
  · next tid status hpc =>
    split at h
    · cases h
    · next hfind =>
      cases h
      exact .removeNone hx hpc hfind
    · next c hfind =>
      cases h
      exact .removeChild hx hpc hfind
  · next status hpc =>
    cases h
    exact .selfDestruct hx hpc
  · next hpc =>
    cases h
    exact .orphanDone hx hpc
  · next c todo hpc =>
    split at h
    · cases h
    · next y hy =>
      cases h
      exact .orphan hx hpc hy
  · next hpc =>
    cases h
    exact .exitDone hx hpc
  · next c todo hpc =>
    split at h
    · cases h
    · next y hy =>
      split at h
      · cases h
      · next hzero =>
        cases h
        exact .exitChild hx hpc hy (by omega)
  · next hpc =>
    split at h
    · next hpar =>
      cases h
      exact .testParent hx hpc hpar
    · cases h
  · next hpc =>
    cases h
    exact .signalParent hx hpc
  · next hpc =>
    cases h
    exact .switchOut hx hpc

theorem trans_of_step {s s' : Tree} {e : Event} (h : Step s e s') : Trans s e s' := by
  unfold Step step at h
  split at h
  · next t =>
    split at h
    · cases h
    · next x hx => exact trans_of_advance hx h
  · next t ok =>
    split at h
    · cases h
    · next x hx =>
      split at h
      · next hpc =>
        cases h
        exact .load hx hpc
      · cases h
  · next page =>
    split at h
    · cases h
    · next x hx =>
      split at h
      · next hpc =>
        split at h
        · cases h
          exact .noTask hx hpc
        · exact .task hx hpc h
      · cases h
  · next t page =>
    split at h
    · cases h
    · next x hx =>
      split at h
      · next hpc =>
        split at h
        · cases h
          exact .noExec hx hpc.2 hpc.1
        · exact .exec hx hpc.2 hpc.1 h
      · cases h
  · next t tid =>
    split at h
    · cases h
    · next x hx =>
      split at h
      · next hpc =>
        cases h
        exact .wait hx hpc.2 hpc.1
      · cases h
  · next t status =>
    split at h
    · cases h
    · next x hx =>
      split at h
      · next hpc =>
        cases h
        exact .exit hx hpc.2 hpc.1
      · cases h
  · next t =>
    split at h
    · cases h
    · next x hx =>
      split at h
      · next hpc =>
        cases h
        exact .kill hx hpc.2 hpc.1
      · cases h

end Tree

/-! ## What `process_wait` has to report -/

/-- By the history: `tid` is a child of `p` that has not been waited for, and `exec` did not return
-1 for it. -/
def unwaited (p tid : Int) : List Note → Bool
  | [] => false
  | .created p' c :: old => (p' = p ∧ c = tid) || unwaited p tid old
  | .execReturned p' c eax :: old => !(p' = p ∧ c = tid ∧ eax = -1) && unwaited p tid old
  | .waited p' c _ :: old => !(p' = p ∧ c = tid) && unwaited p tid old
  | _ :: old => unwaited p tid old

/-- What the answers have to be. `process_wait` returns, for a child of the caller that has not been
waited for, the status the child passed to `self_destruct` before, which is -1 if it was killed or
failed to load, and -1 for any other `tid`; this is asked for under the condition `G`. `exec` returns
the `tid` of the child if its `load` returned true, and -1 if it returned false. -/
def Reports (G : Prop) (old : List Note) : Note → Prop
  | .waited p tid status =>
    G →
      if unwaited p tid old then
        (∀ v, .destructed tid v ∈ old ↔ v = status) ∧
        (.loaded tid false ∈ old ∨ .killed tid ∈ old → status = -1)
      else status = -1
  | .execReturned _ c eax =>
    ∃ success, (∀ b, .loaded c b ∈ old ↔ b = success) ∧ eax = if success then c else -1
  | _ => True

end Pintos.Process
