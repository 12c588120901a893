import Pintos.Lib.Runs
import Pintos.Lib.Permits

/-!
# The file system semaphore

`file_sema` is taken and given back in the system calls on files, in `process_execute`, in `load`
and, through `sys_close`, for every file of a process that exits. Threads run these in any
interleaving; a step is one operation on the semaphore, or a test that decides which comes next.

`load` has two exits before its `sema_down`, for a command line that is too long and for a process
without a page directory, and both go to the `sema_up` at `done`.
-/

namespace Pintos.FileSema

open Lib List

/-- The system calls that use `file_sema` themselves. -/
inductive Call
  | open
  | write (fd : Int)
  | filesize (fd : Int)
  | close (fd : Int)
  | create
  | remove
  | read (fd : Int)
  | seek (fd : Int)
  | tell (fd : Int)
  deriving DecidableEq, Repr

/-- Where a thread is. -/
inductive Pc
  /-- In the user program, or in kernel code that does not use `file_sema`. -/
  | user
  /-- In a system call, before `sema_down (file_sema)`. -/
  | down (c : Call)
  /-- In a system call, before `sema_up (file_sema)`. -/
  | inside (c : Call)
  /-- In `process_execute` after `thread_create`, before `sema_down (file_sema)`. -/
  | execDown (child : Option Nat)
  /-- In `process_execute`, before `sema_up (file_sema)`. -/
  | execInside (child : Option Nat)
  /-- At the start of `load`. -/
  | load
  /-- In `load`, before `sema_down (file_sema)`. -/
  | loadDown
  /-- In `load`, behind `sema_down (file_sema)`. -/
  | loading
  /-- At `done` in `load`; `held` says whether `sema_down` was called. -/
  | done (held success : Bool)
  /-- In the loop of `close_all_files`. -/
  | closeAll (fd : Nat)
  /-- In `sys_close (fd)`, called by `close_all_files`, before `sema_down (file_sema)`. -/
  | closeDown (fd : Nat)
  /-- In `sys_close (fd)`, called by `close_all_files`, before `sema_up (file_sema)`. -/
  | closing (fd : Nat)
  | gone
  deriving DecidableEq, Repr

/-- A thread: where it is, and which elements of `files` are not null. -/
structure Thread where
  pc : Pc
  files : Nat → Bool

open Thread

/-- The value of `file_sema`, and the threads in the order of their creation. -/
structure State where
  value : Nat
  threads : List Thread

/-- What can happen next. -/
inductive Event
  /-- Thread `t` makes a system call. -/
  | call (t : Nat) (c : Call)
  /-- `t` calls `process_execute`; `created` says whether `thread_create` succeeds. -/
  | exec (t : Nat) (created : Bool)
  /-- `load` of `t` looks at the length of its command line and at its page directory. -/
  | load (t : Nat) (cmdLen : Nat) (pagedir : Bool)
  /-- `t` goes on; `ok` says whether the file was opened or the executable loaded. -/
  | run (t : Nat) (ok : Bool)
  /-- `t` exits, or is killed. -/
  | exit (t : Nat)
  deriving DecidableEq, Repr

/-- `MAX_CMD_LEN`. -/
def maxCmdLen : Nat := 128

namespace Thread

/-- A new thread, in `start_process`. -/
def start : Thread := ⟨.load, fun _ => false⟩

/-- `fd < 1024 && fd >= 2 && (file = t->files[fd])`. -/
def hasFile (x : Thread) (fd : Int) : Bool := fd < 1024 && 2 ≤ fd && x.files fd.toNat

/-- Whether a call gets to its `sema_down (file_sema)`. -/
def takes (x : Thread) : Call → Bool
  | .write fd | .read fd => x.hasFile fd
  | _ => true

/-- The first free element of `files` gets a file; without one the file stays open for nobody. -/
def install (x : Thread) : Thread :=
  match (List.range' 2 1022).find? fun i => !x.files i with
  | some i => { x with files := Function.update x.files i true }
  | none => x

/-- What a system call does to `files`. -/
def finish (x : Thread) (c : Call) (ok : Bool) : Thread :=
  match c with
  | .open => if ok then x.install else x
  | .close fd => if x.hasFile fd then { x with files := Function.update x.files fd.toNat false } else x
  | _ => x

/-- Between a `sema_down (file_sema)` and the matching `sema_up`. -/
def holds (x : Thread) : Bool :=
  match x.pc with
  | .inside _ | .execInside _ | .loading | .done true _ | .closing _ => true
  | _ => false

end Thread

namespace State

/-- Thread `t`, which is `x`, goes on to `pc`. -/
def goto (s : State) (t : Nat) (x : Thread) (pc : Pc) : State :=
  { s with threads := s.threads.set t { x with pc := pc } }

/-- `sema_down (file_sema)` by thread `t`. -/
def down (s : State) (t : Nat) (x : Thread) (pc : Pc) : Option State :=
  if 0 < s.value then some { s.goto t x pc with value := s.value - 1 } else none

/-- `sema_up (file_sema)` by thread `t`. -/
def up (s : State) (t : Nat) (x : Thread) (pc : Pc) : State :=
  { s.goto t x pc with value := s.value + 1 }

/-- The next step of thread `t`, which is `x`. -/
def advance (s : State) (t : Nat) (x : Thread) (ok : Bool) : Option State :=
  match x.pc with
  | .user | .load | .gone => none
  | .down c => s.down t x (.inside c)
  | .inside c => some (s.up t (x.finish c ok) .user)
  | .execDown child => s.down t x (.execInside child)
  | .execInside child =>
    if ok then
      -- The file is put into `files` of the child; without a child the kernel crashes.
      match child with
      | none => none
      | some c =>
        match s.threads[c]? with
        | none => none
        | some y => some ({ s with threads := s.threads.set c y.install }.up t x .user)
    else some (s.up t x .user)
  | .loadDown => s.down t x .loading
  | .loading => some (s.goto t x (.done true ok))
  | .done _ success => some (s.up t x (if success then .user else .closeAll 2))
  | .closeAll fd =>
    some (s.goto t x
      (if fd < 1024 then if x.files fd then .closeDown fd else .closeAll (fd + 1) else .gone))
  | .closeDown fd => s.down t x (.closing fd)
  | .closing fd =>
    some (s.up t { x with files := Function.update x.files fd false } (.closeAll (fd + 1)))

/-- The steps. -/
def step (s : State) : Event → Option State
  | .call t c =>
    match s.threads[t]? with
    | none => none
    | some x =>
      if x.pc = .user then some (s.goto t x (if x.takes c then .down c else .user)) else none
  | .exec t created =>
    match s.threads[t]? with
    | none => none
    | some x =>
      if x.pc = .user then
        if created then
          some ({ s with threads := s.threads ++ [Thread.start] }.goto t x
            (.execDown (some s.threads.length)))
        else some (s.goto t x (.execDown none))
      else none
  | .load t cmdLen pagedir =>
    match s.threads[t]? with
    | none => none
    | some x =>
      if x.pc = .load then
        some (s.goto t x
          (if maxCmdLen < cmdLen then .done false false
          else if pagedir then .loadDown else .done false false))
      else none
  | .run t ok =>
    match s.threads[t]? with
    | none => none
    | some x => s.advance t x ok
  | .exit t =>
    match s.threads[t]? with
    | none => none
    | some x => if x.pc = .user then some (s.goto t x (.closeAll 2)) else none

/-- The steps, as a relation. -/
def Step (s : State) (e : Event) (s' : State) : Prop := s.step e = some s'

/-- After `syscall_init`: the initial thread. -/
def boot : State := ⟨1, [⟨.user, fun _ => false⟩]⟩

/-- Every `load` gets to its `sema_down`. -/
def entersLoad : Event → Bool
  | .load _ cmdLen pagedir => cmdLen ≤ maxCmdLen && pagedir
  | _ => true

end State

/-! ## One thread inside -/

/-- The semaphore has one permit, and no thread will give one back that it has not taken. -/
structure Inv (s : State) : Prop where
  permits : Permits Thread.holds s.value s.threads 1
  matched : ∀ x ∈ s.threads, ∀ success, x.pc ≠ .done false success

section Steps

variable {s s' : State} {t : Nat} {x x' : Thread} {pc : Pc}

theorem matched_set {ts : List Thread} (h : ∀ x ∈ ts, ∀ success, x.pc ≠ .done false success)
    (hnew : ∀ success, x'.pc ≠ .done false success) :
    ∀ x ∈ ts.set t x', ∀ success, x.pc ≠ .done false success := by
  intro x hx
  rcases mem_or_eq_of_mem_set hx with hold | rfl
  · exact h x hold
  · exact hnew

section

variable (h : Inv s) (hx : s.threads[t]? = some x)
include h hx

theorem Inv.goto (hsame : Thread.holds { x with pc := pc } = x.holds)
    (hpc : ∀ success, pc ≠ .done false success) : Inv (s.goto t x pc) :=
  ⟨h.permits.set hx hsame, matched_set h.matched hpc⟩

theorem Inv.down (hdown : s.down t x pc = some s') (hold : x.holds = false)
    (hnew : Thread.holds { x with pc := pc } = true) (hpc : ∀ success, pc ≠ .done false success) :
    Inv s' := by
  unfold State.down at hdown
  split at hdown
  · next hpos =>
    cases hdown
    exact ⟨h.permits.down hx hpos hold hnew, matched_set h.matched hpc⟩
  · cases hdown

theorem Inv.up {files : Nat → Bool} (hold : x.holds = true)
    (hnew : Thread.holds ⟨pc, files⟩ = false) (hpc : ∀ success, pc ≠ .done false success) :
    Inv (s.up t ⟨x.pc, files⟩ pc) :=
  ⟨h.permits.up hx hold hnew, matched_set h.matched hpc⟩

end

theorem install_pc (x : Thread) : x.install.pc = x.pc := by
  unfold install
  split <;> rfl

theorem finish_pc (x : Thread) (c : Call) (ok : Bool) : (x.finish c ok).pc = x.pc := by
  unfold finish
  split
  · split
    · exact install_pc x
    · rfl
  · split <;> rfl
  · rfl

theorem Inv.install {c : Nat} {y : Thread} (h : Inv s) (hy : s.threads[c]? = some y) :
    Inv { s with threads := s.threads.set c y.install } := by
  refine ⟨h.permits.set hy ?_, matched_set h.matched fun success => ?_⟩
  · simp only [holds, install_pc]
  · rw [install_pc]
    exact h.matched y (mem_of_getElem? hy) success

theorem Inv.advance {ok : Bool} (h : Inv s) (hx : s.threads[t]? = some x)
    (hstep : s.advance t x ok = some s') : Inv s' := by
  have hmatched := h.matched x (mem_of_getElem? hx)
  unfold State.advance at hstep
  split at hstep
  case h_1 => cases hstep
  case h_2 => cases hstep
  case h_3 => cases hstep
  case h_4 c hpc =>
    exact h.down hx hstep (by simp [holds, hpc]) rfl nofun
  case h_5 c hpc =>
    cases hstep
    have hfinish : x.finish c ok = ⟨x.pc, (x.finish c ok).files⟩ := by
      rw [← finish_pc x c ok]
    rw [hfinish]
    exact h.up hx (by simp [holds, hpc]) rfl nofun
  case h_6 child hpc =>
    exact h.down hx hstep (by simp [holds, hpc]) rfl nofun
  case h_7 child hpc =>
    split at hstep
    · split at hstep
      · cases hstep
      · next c =>
        split at hstep
        · cases hstep
        · next y hy =>
          cases hstep
          -- the child is another thread; were it the same one, its table would stay
          by_cases hct : c = t
          · subst hct
            have hup : Inv (s.up c x .user) := h.up hx (by simp [holds, hpc]) rfl nofun
            simpa only [State.up, State.goto, set_set] using hup
          · have hx' : (s.threads.set c y.install)[t]? = some x := by
              rw [List.getElem?_set_ne hct, hx]
            exact (h.install hy).up hx' (by simp [holds, hpc]) rfl nofun
    · cases hstep
      exact h.up hx (by simp [holds, hpc]) rfl nofun
  case h_8 hpc =>
    exact h.down hx hstep (by simp [holds, hpc]) rfl nofun
  case h_9 hpc =>
    cases hstep
    exact h.goto hx (by simp [holds, hpc]) nofun
  case h_10 held success hpc =>
    cases hstep
    cases held with
    | false => exact absurd hpc (hmatched success)
    | true =>
      refine h.up hx (by simp [holds, hpc]) ?_ ?_
      · cases success <;> rfl
      · cases success <;> nofun
  case h_11 fd hpc =>
    have hgo : ∀ pc, holds ⟨pc, x.files⟩ = false →
        (∀ success, pc ≠ .done false success) → Inv (s.goto t x pc) := by
      intro pc hnew hne
      exact h.goto hx (by rw [hnew]; simp [holds, hpc]) hne
    cases hstep
    split
    · split
      · exact hgo _ rfl nofun
      · exact hgo _ rfl nofun
    · exact hgo _ rfl nofun
  case h_12 fd hpc =>
    exact h.down hx hstep (by simp [holds, hpc]) rfl nofun
  case h_13 fd hpc =>
    cases hstep
    exact h.up hx (by simp [holds, hpc]) rfl nofun

theorem Inv.step {e : Event} (h : Inv s) (hok : State.entersLoad e = true)
    (hstep : State.Step s e s') : Inv s' := by
  unfold State.Step State.step at hstep
  split at hstep
  · next t c =>
    split at hstep
    · cases hstep
    · next x hx =>
      split at hstep
      · next hpc =>
        cases hstep
        split
        · exact h.goto hx (by simp [holds, hpc]) nofun
        · exact h.goto hx (by simp [holds, hpc]) nofun
      · cases hstep
  · next t created =>
    split at hstep
    · cases hstep
    · next x hx =>
      split at hstep
      · next hpc =>
        split at hstep
        · cases hstep
          have hnew : Inv { s with threads := s.threads ++ [start] } := by
            refine ⟨h.permits.push rfl, fun y hy => ?_⟩
            rcases mem_append.mp hy with hold | hlast
            · exact h.matched y hold
            · cases mem_singleton.mp hlast
              nofun
          have hx' : (s.threads ++ [start])[t]? = some x := by
            rw [List.getElem?_append_left (List.getElem?_eq_some_iff.mp hx).1, hx]
          exact hnew.goto hx' (by simp [holds, hpc]) nofun
        · cases hstep
          exact h.goto hx (by simp [holds, hpc]) nofun
      · cases hstep
  · next t cmdLen pagedir =>
    split at hstep
    · cases hstep
    · next x hx =>
      split at hstep
      · next hpc =>
        simp only [State.entersLoad, Bool.and_eq_true, decide_eq_true_eq] at hok
        cases hstep
        rw [if_neg (Nat.not_lt.mpr hok.1), if_pos hok.2]
        exact h.goto hx (by simp [holds, hpc]) nofun
      · cases hstep
  · next t ok =>
    split at hstep
    · cases hstep
    · next x hx => exact h.advance hx hstep
  · next t =>
    split at hstep
    · cases hstep
    · next x hx =>
      split at hstep
      · next hpc =>
        cases hstep
        exact h.goto hx (by simp [holds, hpc]) nofun
      · cases hstep

end Steps

/-! ## Every run -/

/-- **When `file_sema` is a mutex.** In every run in which each `load` gets to its `sema_down`: the
value of the semaphore and the number of threads between a `sema_down` and the matching `sema_up`
make up 1, so at most one thread is inside. -/
theorem file_sema_mutex {es : List Event} {s : State}
    (hrun : Runs State.Step (fun _ e => State.entersLoad e = true) State.boot es s) :
    s.value + s.threads.countP Thread.holds = 1 ∧
    ∀ (t u : Nat) (x y : Thread), s.threads[t]? = some x → s.threads[u]? = some y →
      x.holds = true → y.holds = true → t = u := by
  have hboot : Inv State.boot := by
    refine ⟨rfl, fun x hx => ?_⟩
    cases mem_singleton.mp hx
    nofun
  have h : Inv s := Runs.invariant (fun hi hok hstep => hi.step hok hstep) hrun hboot
  exact ⟨h.permits, fun t u x y hx hy => h.permits.exclusive hx hy⟩

/-- A process is loaded and opens a file. -/
def loadsAndOpens : List Event :=
  [.exec 0 true, .run 0 true, .load 1 5 true, .run 0 true, .run 1 true, .run 1 true, .run 1 true,
    .call 1 .open, .run 1 true]

/-- The process is inside, and the semaphore has no permit left. -/
theorem file_sema_mutex_loadsAndOpens :
    (loadsAndOpens.foldl (after State.step) State.boot).value +
      (loadsAndOpens.foldl (after State.step) State.boot).threads.countP Thread.holds = 1 :=
  (file_sema_mutex (runs_of_allows (fun _ e => State.entersLoad e) (fun _ _ h => h)
    (show allows State.step (fun _ e => State.entersLoad e) State.boot loadsAndOpens = true by
      decide +kernel))).1

/-- The initial thread runs a program with a command line of 129 characters, whose `load` fails;
then it runs another one. -/
def longCommandLine : List Event :=
  [.exec 0 true, .run 0 false, .run 0 false, .load 1 129 true, .run 1 false,
    .exec 0 true, .run 0 true, .load 2 5 true, .run 2 true]

/-- The `sema_up` of the failed `load` lets two threads in: `process_execute` and `load` of the
second program. -/
theorem file_sema_leak :
    Runs State.Step (fun _ _ => True) State.boot longCommandLine
      (longCommandLine.foldl (after State.step) State.boot) ∧
    (longCommandLine.foldl (after State.step) State.boot).value +
      (longCommandLine.foldl (after State.step) State.boot).threads.countP Thread.holds = 2 ∧
    ((longCommandLine.foldl (after State.step) State.boot).threads.map Thread.holds) =
      [true, false, true] :=
  ⟨runs_of_allows (fun _ _ => true) (fun _ _ _ => trivial) (by decide +kernel), by decide +kernel,
    by decide +kernel⟩

end Pintos.FileSema
