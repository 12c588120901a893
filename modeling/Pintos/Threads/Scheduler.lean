import Mathlib.Algebra.Group.Nat.Defs
import Mathlib.Data.List.Nodup
import Mathlib.Logic.Function.Basic
import Pintos.Lib.Runs

/-!
# Threads and semaphores (`threads/thread.c`, `threads/synch.c`)

A thread is named by the address of its `struct thread`, a semaphore by its own address. One
`elem` per thread links it into the run queue or into the waiters of one semaphore; the model
has the lists and says by `Sched.Queues` that no thread is on two of them.

Each section that runs with interrupts off is one step. A section that ends in `schedule` hands
the processor over; the thread that gets it goes on where it stopped. The only place where it
has something left to do with interrupts still off is the loop of `sema_down`, so `inDown`
records the semaphore whose loop a thread is in, and its next step is another round
(`SchedOp.resume`).

`ASSERT`s are the cases of `Panic`.
-/

namespace Pintos

open Lib Function Option List

/-- `enum thread_status`. -/
inductive ThreadStatus
  | running | ready | blocked | dying
deriving DecidableEq

/-- The assertions of `thread_unblock`, `thread_current` and `schedule`. -/
inductive Panic
  | unblockNotBlocked
  | currentNotRunning
  | scheduleRunning
  | noThread
deriving DecidableEq

/-- `struct semaphore`; `value` is an `unsigned`. -/
structure Semaphore where
  value : Nat
  waiters : List Nat
deriving DecidableEq

/-- The threads, the run queue and the semaphores. -/
structure Sched where
  status : Nat → Option ThreadStatus
  readyList : List Nat
  allList : List Nat
  sema : Nat → Semaphore
  current : Nat
  idleThread : Option Nat
  inDown : Nat → Option Nat

open Sched

namespace Sched

def setStatus (s : Sched) (t : Nat) (x : ThreadStatus) : Sched :=
  { s with status := update s.status t (some x) }

def setSema (s : Sched) (k : Nat) (x : Semaphore) : Sched :=
  { s with sema := update s.sema k x }

def setInDown (s : Sched) (t : Nat) (x : Option Nat) : Sched :=
  { s with inDown := update s.inDown t x }

/-! ## The functions of `thread.c` -/

/-- `thread_current`. -/
def threadCurrent (s : Sched) : Except Panic Nat :=
  if s.status s.current = some .running then .ok s.current else .error .currentNotRunning

/-- `next_thread_to_run`; the result is null before the idle thread has run. -/
def nextThreadToRun (s : Sched) : Option Nat × Sched :=
  match s.readyList with
  | [] => (s.idleThread, s)
  | t :: rest => (some t, { s with readyList := rest })

/-- `schedule` with `thread_schedule_tail`: the next thread is marked as running. -/
def schedule (s : Sched) : Except Panic Sched :=
  match s.nextThreadToRun with
  | (next, s) =>
    if s.status s.current = some .running then .error .scheduleRunning
    else
      match next with
      | none => .error .noThread
      | some t => .ok { s.setStatus t .running with current := t }

theorem schedule_ok {s s' : Sched} (h : s.schedule = .ok s') :
    ∃ t rest, s' = { { s with readyList := rest }.setStatus t .running with current := t } ∧
      (s.readyList = t :: rest ∨ s.readyList = [] ∧ rest = [] ∧ s.idleThread = some t) := by
  unfold schedule nextThreadToRun at h
  cases hready : s.readyList with
  | nil =>
    simp only [hready] at h
    split at h
    · cases h
    · cases hidle : s.idleThread with
      | none => simp [hidle] at h
      | some t =>
        simp only [hidle] at h
        cases h
        exact ⟨t, [], by rw [← hready, ← hidle], .inr ⟨rfl, rfl, rfl⟩⟩
  | cons t rest =>
    simp only [hready] at h
    split at h
    · cases h
    · cases h
      exact ⟨t, rest, rfl, .inl rfl⟩

/-- `thread_block`. -/
def threadBlock (s : Sched) : Except Panic Sched := do
  let cur ← s.threadCurrent
  (s.setStatus cur .blocked).schedule

/-- `thread_unblock`. -/
def threadUnblock (s : Sched) (t : Nat) : Except Panic Sched :=
  if s.status t = some .blocked then
    .ok { s.setStatus t .ready with readyList := s.readyList ++ [t] }
  else .error .unblockNotBlocked

/-- `thread_yield`; the timer interrupt calls it at the end of a time slice. -/
def threadYield (s : Sched) : Except Panic Sched := do
  let cur ← s.threadCurrent
  let s := if s.idleThread ≠ some cur then { s with readyList := s.readyList ++ [cur] } else s
  (s.setStatus cur .ready).schedule

/-- The last part of `thread_exit`. -/
def threadExit (s : Sched) : Except Panic Sched := do
  let cur ← s.threadCurrent
  ({ s with allList := s.allList.erase cur }.setStatus cur .dying).schedule

/-- `init_thread` in `thread_create`, for the page `t` that palloc returned. The thread becomes
ready by the `thread_unblock` at the end of `thread_create`. -/
def initThread (s : Sched) (t : Nat) : Sched :=
  { s with allList := s.allList ++ [t] }.setStatus t .blocked

/-! ## The functions of `synch.c` -/

/-- One round of the loop of `sema_down`: the current thread waits, or takes a unit. -/
def semaDown (s : Sched) (k : Nat) : Except Panic Sched :=
  if (s.sema k).value = 0 then do
    let cur ← s.threadCurrent
    ((s.setSema k { s.sema k with waiters := (s.sema k).waiters ++ [cur] }).setInDown cur
      (some k)).threadBlock
  else
    .ok ((s.setSema k { s.sema k with value := (s.sema k).value - 1 }).setInDown s.current none)

/-- `sema_try_down`. -/
def semaTryDown (s : Sched) (k : Nat) : Bool × Sched :=
  if 0 < (s.sema k).value then
    (true, s.setSema k { s.sema k with value := (s.sema k).value - 1 })
  else (false, s)

/-- The `sema->value++` of `sema_up`: an `unsigned` wraps around. -/
def semaIncrement (s : Sched) (k : Nat) : Sched :=
  s.setSema k { s.sema k with value := ((s.sema k).value + 1) % 2 ^ 32 }

/-- `sema_up`. -/
def semaUp (s : Sched) (k : Nat) : Except Panic Sched :=
  match (s.sema k).waiters with
  | [] => .ok (s.semaIncrement k)
  | t :: rest => do
      let s ← (s.setSema k { s.sema k with waiters := rest }).threadUnblock t
      .ok (s.semaIncrement k)

theorem threadUnblock_ok {s s' : Sched} {t : Nat} (h : s.threadUnblock t = .ok s') :
    s' = { s.setStatus t .ready with readyList := s.readyList ++ [t] } := by
  unfold threadUnblock at h
  split at h
  · cases h
    rfl
  · cases h

theorem semaUp_ok {s s' : Sched} {k : Nat} (h : s.semaUp k = .ok s') :
    (s.sema k).waiters = [] ∧ s' = s.semaIncrement k ∨
      ∃ t rest s₁, (s.sema k).waiters = t :: rest ∧
        (s.setSema k { s.sema k with waiters := rest }).threadUnblock t = .ok s₁ ∧
        s' = s₁.semaIncrement k := by
  unfold semaUp at h
  split at h
  · next hk =>
    cases h
    exact .inl ⟨hk, rfl⟩
  · next t rest hk =>
    cases hu : (s.setSema k { s.sema k with waiters := rest }).threadUnblock t with
    | error p =>
      rw [hu] at h
      cases h
    | ok s₁ =>
      rw [hu] at h
      cases h
      exact .inr ⟨t, rest, s₁, hk, hu, rfl⟩

end Sched

/-! ## Steps -/

inductive SchedOp
  | create (t : Nat)
  | block
  | unblock (t : Nat)
  | yield
  | preempt
  | exit
  | becomeIdle
  | down (k : Nat)
  | tryDown (k : Nat)
  | up (k : Nat)
  | resume
deriving DecidableEq

/-- What a step does. `becomeIdle` is the first statement of `idle`. -/
def Sched.exec (s : Sched) : SchedOp → Except Panic Sched
  | .create t => .ok (s.initThread t)
  | .block => s.threadBlock
  | .unblock t => s.threadUnblock t
  | .yield => s.threadYield
  | .preempt => s.threadYield
  | .exit => s.threadExit
  | .becomeIdle => .ok { s with idleThread := some s.current }
  | .down k => s.semaDown k
  | .tryDown k => .ok (s.semaTryDown k).2
  | .up k => s.semaUp k
  | .resume =>
    match s.inDown s.current with
    | some k => s.semaDown k
    | none => .ok s

/-- When a step is possible. A thread in the loop of `sema_down` does nothing else, and no
interrupt comes in between. palloc hands out pages that are not in use; that of a thread that has
exited counts as in use for good. The idle thread runs `idle`: it is set once, and neither exits nor
downs a semaphore. -/
def Sched.enabled (s : Sched) : SchedOp → Bool
  | .resume => (s.inDown s.current).isSome
  | .create t => (s.inDown s.current).isNone && (s.status t).isNone
  | .exit => (s.inDown s.current).isNone && s.idleThread != some s.current
  | .down _ => (s.inDown s.current).isNone && s.idleThread != some s.current
  | .becomeIdle => (s.inDown s.current).isNone && s.idleThread.isNone
  | _ => (s.inDown s.current).isNone

/-- What callers of `thread_unblock` have to know: the thread is blocked, it is not waiting for a
semaphore, and it is not the idle thread. -/
def Sched.rightful (s : Sched) : SchedOp → Bool
  | .unblock t =>
    s.status t == some .blocked && (s.inDown t).isNone && s.idleThread != some t
  | _ => true

/-- The state after a step that is possible and fails no assertion. -/
def Sched.step (s : Sched) (op : SchedOp) : Option Sched :=
  if s.enabled op then (s.exec op).toOption else none

theorem Sched.step_eq_some {s s' : Sched} {op : SchedOp} :
    s.step op = some s' ↔ s.enabled op = true ∧ s.exec op = .ok s' :=
  ite_toOption_eq_some

/-- `thread_init` for the thread `main`; the semaphores have the values `v`. -/
def Sched.init (main : Nat) (v : Nat → Nat) : Sched where
  status := update (fun _ => none) main (some .running)
  readyList := []
  allList := [main]
  sema := fun k => ⟨v k, []⟩
  current := main
  idleThread := none
  inDown := fun _ => none

/-! ## The queues -/

/-- The thread has been created and has not exited. -/
def Sched.Alive (s : Sched) (t : Nat) : Prop := s.status t ≠ none ∧ s.status t ≠ some .dying

/-- The queues are in order while `run` is the running thread, if there is one. -/
structure Sched.Queues (s : Sched) (run : Option Nat) : Prop where
  running_iff : ∀ t, s.status t = some .running ↔ run = some t
  ready_iff : ∀ t, t ∈ s.readyList ↔ s.status t = some .ready ∧ s.idleThread ≠ some t
  ready_nodup : s.readyList.Nodup
  waiting_iff : ∀ k t, t ∈ (s.sema k).waiters ↔ s.status t = some .blocked ∧ s.inDown t = some k
  waiters_nodup : ∀ k, (s.sema k).waiters.Nodup
  idle : ∀ t, s.idleThread = some t → s.inDown t = none ∧ s.Alive t
  all_iff : ∀ t, t ∈ s.allList ↔ s.Alive t
  all_nodup : s.allList.Nodup
  inDown_alive : ∀ t k, s.inDown t = some k → s.Alive t

namespace Sched.Queues

variable {s s' : Sched} {run : Option Nat} {t c k : Nat}

theorem init (main : Nat) (v : Nat → Nat) : (Sched.init main v).Queues (some main) := by
  constructor
  all_goals simp only [Sched.init, Sched.Alive, update_apply]
  all_goals grind

theorem nodup_append {l : List Nat} (h : l.Nodup) (ht : t ∉ l) : (l ++ [t]).Nodup := by
  rw [List.nodup_append]
  grind

section

variable (h : s.Queues (some c))
include h

theorem toReady (hc : s.idleThread ≠ some c) :
    ({ s with readyList := s.readyList ++ [c] }.setStatus c .ready).Queues none := by
  obtain ⟨h₁, h₂, h₃, h₄, h₅, h₆, h₇, h₈, h₉⟩ := h
  have hrun : s.status c = some .running := (h₁ c).mpr rfl
  have hnot : c ∉ s.readyList := fun hm => by grind
  constructor
  case ready_nodup => exact nodup_append h₃ hnot
  all_goals simp only [setStatus, Sched.Alive, update_apply, mem_append, mem_singleton] at *
  all_goals grind

theorem idleReady (hc : s.idleThread = some c) : (s.setStatus c .ready).Queues none := by
  have hrun := (h.running_iff c).mpr rfl
  cases h
  constructor
  all_goals simp only [setStatus, Sched.Alive, update_apply] at *
  all_goals grind

theorem toBlocked (hc : s.inDown c = none) : (s.setStatus c .blocked).Queues none := by
  have hrun := (h.running_iff c).mpr rfl
  cases h
  constructor
  all_goals simp only [setStatus, Sched.Alive, update_apply] at *
  all_goals grind

theorem toWaiters (hc : s.idleThread ≠ some c) :
    (((s.setSema k { s.sema k with waiters := (s.sema k).waiters ++ [c] }).setInDown c
      (some k)).setStatus c .blocked).Queues none := by
  obtain ⟨h₁, h₂, h₃, h₄, h₅, h₆, h₇, h₈, h₉⟩ := h
  have hrun : s.status c = some .running := (h₁ c).mpr rfl
  have hnot : ∀ k, c ∉ (s.sema k).waiters := fun k hm => by grind
  have hmem : ∀ k' t, t ∈ (update s.sema k
      { s.sema k with waiters := (s.sema k).waiters ++ [c] } k').waiters ↔
        t ∈ (s.sema k').waiters ∨ (k' = k ∧ t = c) := by
    intro k' t
    rw [update_apply]
    split <;> grind
  constructor
  case waiters_nodup =>
    intro k'
    simp only [setStatus, setInDown, setSema, update_apply]
    split
    · exact nodup_append (h₅ k) (hnot k)
    · exact h₅ k'
  case waiting_iff =>
    intro k' t
    simp only [setStatus, setInDown, setSema, hmem]
    simp only [update_apply]
    grind
  all_goals simp only [setStatus, setInDown, setSema, Sched.Alive, update_apply] at *
  all_goals grind

theorem toDying (hc : s.idleThread ≠ some c) (hd : s.inDown c = none) :
    ({ s with allList := s.allList.erase c }.setStatus c .dying).Queues none := by
  have hrun := (h.running_iff c).mpr rfl
  have hnd := h.all_nodup
  have hmem : ∀ t, t ∈ s.allList.erase c ↔ t ≠ c ∧ t ∈ s.allList := fun t => hnd.mem_erase_iff
  cases h
  constructor
  case all_nodup => exact hnd.erase c
  all_goals simp only [setStatus, Sched.Alive, update_apply] at *
  all_goals grind

end

theorem toRunning {rest : List Nat} (h : s.Queues none) (ht : s.Alive t)
    (hrest : ∀ x, x ∈ rest ↔ x ∈ s.readyList ∧ x ≠ t) (hnd : rest.Nodup)
    (hoff : ∀ k, t ∉ (s.sema k).waiters) :
    { { s with readyList := rest }.setStatus t .running with current := t }.Queues (some t) := by
  cases h
  constructor
  all_goals simp only [setStatus, Sched.Alive, update_apply] at *
  all_goals grind

/-- `schedule` finds a thread that is ready, or else the idle thread. -/
theorem schedule (h : s.Queues none) (hs : s.schedule = .ok s') : s'.Queues (some s'.current) := by
  obtain ⟨t, rest, rfl, hready | ⟨hready, rfl, hidle⟩⟩ := schedule_ok hs
  · have hmem : t ∈ s.readyList := by rw [hready]; exact mem_cons_self
    have hst := ((h.ready_iff t).mp hmem).1
    have hnd := h.ready_nodup
    rw [hready, nodup_cons] at hnd
    refine h.toRunning ⟨by simp [hst], by simp [hst]⟩ (fun x => ?_) hnd.2 fun k hm => ?_
    · rw [hready, mem_cons]
      grind
    · have := ((h.waiting_iff k t).mp hm).1
      rw [hst] at this
      cases this
  · obtain ⟨hnone, halive⟩ := h.idle t hidle
    refine h.toRunning halive (fun x => ?_) nodup_nil fun k hm => ?_
    · rw [hready]
      exact ⟨nofun, fun hx => hx.1⟩
    · have := ((h.waiting_iff k t).mp hm).2
      rw [hnone] at this
      cases this

theorem schedule_error {p : Panic} (h : s.Queues none) (hs : s.schedule = .error p) :
    p = .noThread := by
  have hrun : ∀ t, s.status t ≠ some .running := fun t heq => by
    have := (h.running_iff t).mp heq
    cases this
  unfold Sched.schedule Sched.nextThreadToRun at hs
  cases hready : s.readyList with
  | nil =>
    simp only [hready, if_neg (hrun _)] at hs
    cases hidle : s.idleThread with
    | none =>
      simp only [hidle] at hs
      cases hs
      rfl
    | some t =>
      simp only [hidle] at hs
      cases hs
  | cons t rest =>
    simp only [hready, if_neg (hrun _)] at hs
    cases hs

theorem threadCurrent (h : s.Queues (some s.current)) : s.threadCurrent = .ok s.current :=
  if_pos ((h.running_iff _).mpr rfl)

theorem unblocked (h : s.Queues run) (ht : s.status t = some .blocked)
    (hoff : ∀ k, t ∉ (s.sema k).waiters) (hidle : s.idleThread ≠ some t) :
    { s.setStatus t .ready with readyList := s.readyList ++ [t] }.Queues run := by
  obtain ⟨h₁, h₂, h₃, h₄, h₅, h₆, h₇, h₈, h₉⟩ := h
  have hnot : t ∉ s.readyList := fun hm => by grind
  constructor
  case ready_nodup => exact nodup_append h₃ hnot
  all_goals simp only [setStatus, Sched.Alive, update_apply, mem_append, mem_singleton] at *
  all_goals grind

/-- The first waiter of a semaphore joins the run queue. It stays in the loop of `sema_down`. -/
theorem woken {rest : List Nat} (h : s.Queues run) (hk : (s.sema k).waiters = t :: rest) :
    { (s.setSema k { s.sema k with waiters := rest }).setStatus t .ready with
      readyList := s.readyList ++ [t] }.Queues run := by
  obtain ⟨h₁, h₂, h₃, h₄, h₅, h₆, h₇, h₈, h₉⟩ := h
  obtain ⟨hst, hdown⟩ := (h₄ k t).mp (by rw [hk]; exact mem_cons_self)
  have hnot : t ∉ s.readyList := fun hm => by grind
  have hnd := h₅ k
  rw [hk, nodup_cons] at hnd
  have hmem : ∀ k' x, x ∈ (update s.sema k { s.sema k with waiters := rest } k').waiters ↔
      x ∈ (s.sema k').waiters ∧ ¬ (k' = k ∧ x = t) := by
    intro k' x
    rw [update_apply]
    split <;> grind
  constructor
  case ready_nodup => exact nodup_append h₃ hnot
  case waiters_nodup =>
    intro k'
    simp only [setStatus, setSema, update_apply]
    split
    · exact hnd.2
    · exact h₅ k'
  case waiting_iff =>
    intro k' x
    simp only [setStatus, setSema, hmem, h₄]
    simp only [update_apply]
    grind
  all_goals simp only [setStatus, setSema, Sched.Alive, update_apply,
    mem_append, mem_singleton] at *
  all_goals grind

theorem setValue (h : s.Queues run) (n : Nat) :
    (s.setSema k { s.sema k with value := n }).Queues run := by
  have hsame : ∀ k', (update s.sema k { s.sema k with value := n } k').waiters =
      (s.sema k').waiters := by
    intro k'
    rw [update_apply]
    split
    · next heq => rw [heq]
    · rfl
  refine ⟨h.running_iff, h.ready_iff, h.ready_nodup, fun k' t => ?_, fun k' => ?_, h.idle, h.all_iff,
    h.all_nodup, h.inDown_alive⟩
  · exact (iff_of_eq (congrArg (t ∈ ·) (hsame k'))).trans (h.waiting_iff k' t)
  · exact (hsame k').symm ▸ h.waiters_nodup k'

theorem leaveDown (h : s.Queues (some c)) : (s.setInDown c none).Queues (some c) := by
  have hrun := (h.running_iff c).mpr rfl
  cases h
  constructor
  all_goals simp only [setInDown, Sched.Alive, update_apply] at *
  all_goals grind

theorem initThread (h : s.Queues run) (ht : s.status t = none) : (s.initThread t).Queues run := by
  have hnd := nodup_append h.all_nodup fun hm => ((h.all_iff t).mp hm).1 ht
  cases h
  constructor
  case all_nodup => exact hnd
  all_goals simp only [Sched.initThread, Sched.setStatus, Sched.Alive, update_apply,
    mem_append, mem_singleton] at *
  all_goals grind

theorem becomeIdle (h : s.Queues (some c)) (hc : s.inDown c = none)
    (hnone : s.idleThread = none) : { s with idleThread := some c }.Queues (some c) := by
  have hrun := (h.running_iff c).mpr rfl
  cases h
  constructor
  all_goals simp only [Sched.Alive] at *
  all_goals grind

end Sched.Queues

/-! ## Every step keeps the queues -/

/-- The outcome of an operation: the queues are in order afterwards, or there was no thread to
switch to. -/
def Sched.Orderly (r : Except Panic Sched) : Prop :=
  (∀ s', r = .ok s' → s'.Queues (some s'.current)) ∧ ∀ p, r = .error p → p = .noThread

namespace Sched.Queues

variable {s s' : Sched} {t k : Nat}

theorem orderly (h : s.Queues (some s.current)) : Orderly (.ok s) :=
  ⟨fun s' heq => by cases heq; exact h, nofun⟩

theorem schedule_orderly (h : s.Queues none) : Orderly s.schedule :=
  ⟨fun _ hs => h.schedule hs, fun _ hs => h.schedule_error hs⟩

section

variable (h : s.Queues (some s.current))
include h

theorem threadBlock (hc : s.inDown s.current = none) : Orderly s.threadBlock := by
  rw [Sched.threadBlock, h.threadCurrent]
  exact (h.toBlocked hc).schedule_orderly

theorem threadYield : Orderly s.threadYield := by
  rw [Sched.threadYield, h.threadCurrent]
  by_cases hc : s.idleThread = some s.current
  · have := (h.idleReady hc).schedule_orderly
    simpa only [bind, Except.bind, hc, ne_eq, not_true_eq_false, if_false] using this
  · have := (h.toReady hc).schedule_orderly
    simpa only [bind, Except.bind, hc, ne_eq, not_false_eq_true, if_true] using this

theorem threadExit (hc : s.idleThread ≠ some s.current) (hd : s.inDown s.current = none) :
    Orderly s.threadExit := by
  rw [Sched.threadExit, h.threadCurrent]
  exact (h.toDying hc hd).schedule_orderly

theorem semaDown (hc : s.idleThread ≠ some s.current) : Orderly (s.semaDown k) := by
  unfold Sched.semaDown
  split
  · rw [h.threadCurrent]
    have hrun : s.status s.current = some .running := (h.running_iff _).mpr rfl
    show Orderly (Sched.threadBlock _)
    rw [Sched.threadBlock, Sched.threadCurrent, if_pos (by exact hrun)]
    exact (h.toWaiters hc).schedule_orderly
  · exact (h.setValue _).leaveDown.orderly

theorem semaUp : Orderly (s.semaUp k) := by
  unfold Sched.semaUp
  split
  · exact (h.setValue _).orderly
  · next t rest hk =>
    have hst := ((h.waiting_iff k t).mp (by rw [hk]; exact mem_cons_self)).1
    rw [Sched.threadUnblock, if_pos (by exact hst)]
    exact ((h.woken hk).setValue _).orderly

theorem semaTryDown : Orderly (.ok (s.semaTryDown k).2) := by
  unfold Sched.semaTryDown
  split
  · exact (h.setValue _).orderly
  · exact h.orderly

theorem threadUnblock (ht : s.status t = some .blocked) (hd : s.inDown t = none)
    (hc : s.idleThread ≠ some t) : Orderly (s.threadUnblock t) := by
  rw [Sched.threadUnblock, if_pos ht]
  refine (h.unblocked ht (fun k hm => ?_) hc).orderly
  have := ((h.waiting_iff k t).mp hm).2
  rw [hd] at this
  cases this

/-- **The step lemma**: what a rightful call does to the queues. -/
theorem exec (op : SchedOp) (hen : s.enabled op = true) (hright : s.rightful op = true) :
    Orderly (s.exec op) := by
  cases op with
  | create t =>
    simp only [Sched.enabled, Bool.and_eq_true, isNone_iff_eq_none] at hen
    exact (h.initThread hen.2).orderly
  | block => exact h.threadBlock (isNone_iff_eq_none.mp hen)
  | unblock t =>
    simp only [Sched.rightful, Bool.and_eq_true, beq_iff_eq, isNone_iff_eq_none,
      bne_iff_ne, ne_eq] at hright
    exact h.threadUnblock hright.1.1 hright.1.2 hright.2
  | yield => exact h.threadYield
  | preempt => exact h.threadYield
  | exit =>
    simp only [Sched.enabled, Bool.and_eq_true, isNone_iff_eq_none, bne_iff_ne, ne_eq] at hen
    exact h.threadExit hen.2 hen.1
  | becomeIdle =>
    simp only [Sched.enabled, Bool.and_eq_true, isNone_iff_eq_none] at hen
    exact (h.becomeIdle hen.1 hen.2).orderly
  | down k =>
    simp only [Sched.enabled, Bool.and_eq_true, isNone_iff_eq_none, bne_iff_ne, ne_eq] at hen
    exact h.semaDown hen.2
  | tryDown k => exact h.semaTryDown
  | up k => exact h.semaUp
  | resume =>
    obtain ⟨k, hk⟩ := isSome_iff_exists.mp hen
    simp only [Sched.exec, hk]
    refine h.semaDown fun hidle => ?_
    -- the idle thread is never in the loop of `sema_down`
    have := (h.idle _ hidle).1
    rw [hk] at this
    cases this

end

end Sched.Queues

/-- The runs in which every direct `thread_unblock` is rightful. -/
abbrev SchedRuns (s : Sched) (ops : List SchedOp) (s' : Sched) : Prop :=
  Runs (fun s op s' => s.step op = some s') (fun s op => s.rightful op = true) s ops s'

theorem Sched.Queues.runs {s s' : Sched} {ops : List SchedOp} (h : s.Queues (some s.current))
    (hruns : SchedRuns s ops s') : s'.Queues (some s'.current) := by
  refine hruns.invariant (I := fun s => s.Queues (some s.current)) ?_ h
  intro s op s' hs hright hstep
  obtain ⟨hen, hok⟩ := step_eq_some.mp hstep
  exact (hs.exec op hen hright).1 s' hok

/-- **The scheduler's queues.** In every state that calls lead to from `thread_init` on, with each
direct `thread_unblock` given a blocked thread that waits for no semaphore and is not the idle
thread: exactly one thread is running; the run queue has each ready thread but the idle thread
once and nothing else; no thread is on two lists; the waiters of a semaphore are blocked, each
there once; a dying thread is on no list; and the status assertions of `thread_unblock`,
`thread_current` and `schedule` hold in the next step. -/
theorem sched_invariant {main : Nat} {v : Nat → Nat} {ops : List SchedOp} {s : Sched}
    (h : SchedRuns (Sched.init main v) ops s) :
    (∃! t, s.status t = some .running) ∧
      (∀ t, s.readyList.count t =
        if s.status t = some .ready ∧ s.idleThread ≠ some t then 1 else 0) ∧
      (∀ t, t ∈ s.readyList → ∀ k, t ∉ (s.sema k).waiters) ∧
      (∀ t k k', t ∈ (s.sema k).waiters → t ∈ (s.sema k').waiters → k = k') ∧
      (∀ k, ∀ t ∈ (s.sema k).waiters, s.status t = some .blocked ∧ (s.sema k).waiters.count t = 1) ∧
      (∀ t, s.status t = some .dying → t ∉ s.readyList ∧ ∀ k, t ∉ (s.sema k).waiters) ∧
      ∀ op, s.enabled op = true → s.rightful op = true → ∀ p, s.exec op = .error p →
        p ≠ .unblockNotBlocked ∧ p ≠ .currentNotRunning ∧ p ≠ .scheduleRunning := by
  have hq : s.Queues (some s.current) := (Sched.Queues.init main v).runs h
  refine ⟨⟨s.current, (hq.running_iff _).mpr rfl, fun t ht => ?_⟩, fun t => ?_, fun t ht k hk => ?_,
    fun t k k' hk hk' => ?_, fun k t ht => ⟨((hq.waiting_iff k t).mp ht).1, ?_⟩,
    fun t ht => ⟨fun hm => ?_, fun k hm => ?_⟩, fun op hen hright p hp => ?_⟩
  · exact (Option.some.inj ((hq.running_iff t).mp ht)).symm
  · split
    · next hc => exact count_eq_one_of_mem hq.ready_nodup ((hq.ready_iff t).mpr hc)
    · next hc => exact count_eq_zero.mpr fun hm => hc ((hq.ready_iff t).mp hm)
  · have h₁ := ((hq.ready_iff t).mp ht).1
    rw [((hq.waiting_iff k t).mp hk).1] at h₁
    cases h₁
  · have h₁ := ((hq.waiting_iff k t).mp hk).2
    rw [((hq.waiting_iff k' t).mp hk').2] at h₁
    exact (Option.some.inj h₁).symm
  · exact count_eq_one_of_mem (hq.waiters_nodup k) ht
  · have h₁ := ((hq.ready_iff t).mp hm).1
    rw [ht] at h₁
    cases h₁
  · have h₁ := ((hq.waiting_iff k t).mp hm).1
    rw [ht] at h₁
    cases h₁
  · rw [(hq.exec op hen hright).2 p hp]
    simp

/-- `main` creates a thread and waits for a semaphore that the new thread ups. -/
def handover : List SchedOp := [.create 1, .unblock 1, .down 0, .up 0]

theorem sched_invariant_handover :
    SchedRuns (Sched.init 0 fun _ => 0) handover
        (handover.foldl (after Sched.step) (Sched.init 0 fun _ => 0)) ∧
      ∃! t, (handover.foldl (after Sched.step) (Sched.init 0 fun _ => 0)).status t =
        some .running := by
  have hruns : SchedRuns (init 0 fun _ => 0) handover
      (handover.foldl (after step) (init 0 fun _ => 0)) :=
    runs_of_allows rightful (fun _ _ h => h) (by decide +kernel)
  exact ⟨hruns, (sched_invariant hruns).1⟩

/-- `main` waits for semaphore 0 and the new thread calls `thread_unblock` on it. -/
def unblockWaiter : List SchedOp := [.create 1, .unblock 1, .down 0, .unblock 0]

/-- A `thread_unblock` of a thread that waits for a semaphore leaves it on two lists, and the next
`sema_up` fails the assertion of `thread_unblock`. -/
theorem unblock_waiter_on_two_lists :
    ∃ s, Runs (fun s op s' => Sched.step s op = some s') (fun _ _ => True)
        (Sched.init 0 fun _ => 0) unblockWaiter s ∧
      0 ∈ s.readyList ∧ 0 ∈ (s.sema 0).waiters ∧ s.enabled (.up 0) = true ∧
      s.exec (.up 0) = .error .unblockNotBlocked := by
  refine ⟨unblockWaiter.foldl (after step) (init 0 fun _ => 0),
    runs_of_allows (fun _ _ => true) (fun _ _ _ => trivial) (by decide +kernel), ?_⟩
  exact ⟨by decide +kernel, by decide +kernel, by decide +kernel, rfl⟩

end Pintos
