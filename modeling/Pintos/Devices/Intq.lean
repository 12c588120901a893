import Pintos.Threads.Synch

/-!
# Interrupt queues (`devices/intq.c`)

Threads call `intq_getc` and `intq_putc` with interrupts off, and interrupt handlers call them
when they need not wait. A thread therefore goes on without interruption until it sleeps: on the
queue's lock, in the loop of `sema_down`, or in `wait`. Both are `IntqPc`s, and the step that
takes a thread on from there is `IntqOp.resume`.

`wait` asserts what the caller's loop has tested. Between the test and the assertion lies
`lock_acquire`, which may sleep; the queue may have changed when it returns
(`two_readers_two_bytes`). It does not sleep where a thread that has to wait finds the lock free.
-/

namespace Pintos

open Lib Function

/-- A call of `intq_getc` or `intq_putc`. -/
inductive IntqCall
  | getc
  | putc (byte : UInt8)
deriving DecidableEq

/-- The condition a caller waits for: `not_empty` or `not_full`. -/
inductive IntqCond
  | notEmpty
  | notFull
deriving DecidableEq

/-- The condition of the `while` loop of the call, negated. -/
def IntqCall.awaits : IntqCall → IntqCond
  | .getc => .notEmpty
  | .putc _ => .notFull

/-- The condition the call brings about. -/
def IntqCall.signals : IntqCall → IntqCond
  | .getc => .notFull
  | .putc _ => .notEmpty

/-- `struct intq` without its lock. -/
structure Intq where
  buf : Nat → UInt8
  head : Nat
  tail : Nat
  waiter : IntqCond → Option Nat

namespace Intq

/-- `next`: `INTQ_BUFSIZE` is 64. -/
def next (pos : Nat) : Nat := (pos + 1) % 64

def empty (q : Intq) : Bool := q.head == q.tail

def full (q : Intq) : Bool := next q.head == q.tail

/-- The queue is such that a thread has to wait for the condition. -/
def unmet (q : Intq) : IntqCond → Bool
  | .notEmpty => q.empty
  | .notFull => q.full

/-- The byte goes out or in. -/
def transfer (q : Intq) : IntqCall → Intq
  | .getc => { q with tail := next q.tail }
  | .putc byte => { q with buf := update q.buf q.head byte, head := next q.head }

def setWaiter (q : Intq) (c : IntqCond) (t : Option Nat) : Intq :=
  { q with waiter := update q.waiter c t }

end Intq

/-- Where a thread sleeps in a call. -/
inductive IntqPc
  | out
  /-- In the `sema_down` of `lock_acquire`. -/
  | acquiring (call : IntqCall)
  /-- In the `thread_block` of `wait`. -/
  | waiting (call : IntqCall)
deriving DecidableEq

/-- The assertions on the way. -/
inductive IntqPanic
  | sched (p : Panic)
  /-- The assertions at the entry of `wait` and of `signal`. -/
  | wait
  | signal
  /-- `lock_acquire` by the holder, or `lock_release` by another thread. -/
  | lock
deriving DecidableEq

/-- The scheduler, the queue, and its lock: semaphore `lock` and `holder`. -/
structure IntqState where
  sched : Sched
  lock : Nat
  holder : Option Nat
  q : Intq
  pc : Nat → IntqPc

open IntqState

namespace IntqState

def current (s : IntqState) : Nat := s.sched.current

def setPc (s : IntqState) (pc : IntqPc) : IntqState :=
  { s with pc := update s.pc s.current pc }

/-- A part of the step that is an operation of the scheduler. -/
def run (s : IntqState) (r : Except Panic Sched) : Except IntqPanic IntqState :=
  match r with
  | .ok sched => .ok { s with sched := sched }
  | .error p => .error (.sched p)

/-- `signal`. -/
def signal (s : IntqState) (c : IntqCond) : Except IntqPanic IntqState :=
  if s.q.unmet c then .error .signal
  else
    match s.q.waiter c with
    | some t => { s with q := s.q.setWaiter c none }.run (s.sched.threadUnblock t)
    | none => .ok s

/-- A call behind its loop. -/
def finish (s : IntqState) (call : IntqCall) : Except IntqPanic IntqState :=
  { s with q := s.q.transfer call }.signal call.signals

/-- `wait`. -/
def wait (s : IntqState) (call : IntqCall) : Except IntqPanic IntqState :=
  if s.q.unmet call.awaits then
    { s with q := s.q.setWaiter call.awaits (some s.current) }.setPc (.waiting call)
      |>.run s.sched.threadBlock
  else .error .wait

/-- A round of the `sema_down` in `lock_acquire`, and `wait` once it returns. -/
def acquireRound (s : IntqState) (call : IntqCall) : Except IntqPanic IntqState :=
  if 0 < (s.sched.sema s.lock).value then do
    let s ← s.run (s.sched.semaDown s.lock)
    { s with holder := some s.current }.wait call
  else (s.setPc (.acquiring call)).run (s.sched.semaDown s.lock)

/-- The loop of a call. -/
def loop (s : IntqState) (call : IntqCall) : Except IntqPanic IntqState :=
  if s.q.unmet call.awaits then
    if s.holder = some s.current then .error .lock else s.acquireRound call
  else s.finish call

/-- `lock_release`, when `wait` has returned. -/
def release (s : IntqState) : Except IntqPanic IntqState :=
  if s.holder = some s.current then
    ({ s with holder := none }.setPc .out).run (s.sched.semaUp s.lock)
  else .error .lock

end IntqState

inductive IntqOp
  /-- The current thread calls. -/
  | call (call : IntqCall)
  /-- The current thread goes on where it slept. -/
  | resume
  /-- An interrupt handler calls. -/
  | interrupt (call : IntqCall)
  /-- Anything else. -/
  | sched (op : SchedOp)
deriving DecidableEq

namespace IntqState

def exec (s : IntqState) : IntqOp → Except IntqPanic IntqState
  | .call call => s.loop call
  | .resume =>
    match s.pc s.current with
    | .acquiring call => s.acquireRound call
    | .waiting call => do
        let s ← s.release
        s.loop call
    | .out => .ok s
  | .interrupt call => s.finish call
  | .sched op => s.run (s.sched.exec op)

/-- A thread that slept in a call goes on before anything else happens. Handlers call when they
need not wait. Other code leaves the queue's lock and waiters alone. The idle thread calls
nothing. -/
def enabled (s : IntqState) : IntqOp → Bool
  | .call _ =>
    s.pc s.current == .out && (s.sched.inDown s.current).isNone &&
      s.sched.idleThread != some s.current
  | .resume => s.pc s.current != .out
  | .interrupt call =>
    s.pc s.current == .out && (s.sched.inDown s.current).isNone && !s.q.unmet call.awaits
  | .sched op =>
    s.pc s.current == .out && s.sched.enabled op && s.sched.rightful op &&
      s.sched.foreign (· == s.lock) op &&
      match op with
      | .unblock t => s.pc t == .out
      | _ => true

def step (s : IntqState) (op : IntqOp) : Option IntqState :=
  if s.enabled op then (s.exec op).toOption else none

theorem step_eq_some {s s' : IntqState} {op : IntqOp} :
    s.step op = some s' ↔ s.enabled op = true ∧ s.exec op = .ok s' :=
  ite_toOption_eq_some

/-- `intq_init`. -/
def init (main lock : Nat) (v : Nat → Nat) : IntqState where
  sched := Sched.init main fun k => if k = lock then 1 else v k
  lock := lock
  holder := none
  q := ⟨fun _ => 0, 0, 0, fun _ => none⟩
  pc := fun _ => .out

end IntqState

/-! ## Threads that are parked -/

/-- The thread sleeps in a `thread_block` of its own, on no list. -/
structure Sched.Parked (s : Sched) (t : Nat) : Prop where
  blocked : s.status t = some .blocked
  inDown : s.inDown t = none
  notIdle : s.idleThread ≠ some t

section Parked

variable {s s' : Sched} {t : Nat}

theorem Sched.schedule_status (h : s.schedule = .ok s') :
    s'.idleThread = s.idleThread ∧
      (t ∉ s.readyList → s.idleThread ≠ some t → s'.status t = s.status t) := by
  obtain ⟨u, rest, rfl, hu⟩ := Sched.schedule_ok h
  refine ⟨rfl, fun hnot hidle => update_of_ne ?_ _ _⟩
  rintro rfl
  rcases hu with hready | ⟨-, -, hu⟩
  · rw [hready] at hnot
    exact hnot List.mem_cons_self
  · exact hidle hu

namespace Sched.Parked

section

variable (hp : s.Parked t)
include hp

theorem off (hq : s.Queues (some s.current)) : t ≠ s.current ∧ t ∉ s.readyList := by
  refine ⟨?_, fun hm => ?_⟩
  · rintro rfl
    have := (hq.running_iff _).mpr rfl
    rw [hp.blocked] at this
    cases this
  · have := ((hq.ready_iff t).mp hm).1
    rw [hp.blocked] at this
    cases this

theorem schedule {s₁ : Sched} (h : s₁.schedule = .ok s') (hready : t ∉ s₁.readyList)
    (hst : s₁.status t = s.status t) (hdown : s₁.inDown t = s.inDown t)
    (hidle : s₁.idleThread = s.idleThread) : s'.Parked t := by
  obtain ⟨hidle', hst'⟩ := Sched.schedule_status (t := t) h
  refine ⟨?_, ?_, ?_⟩
  · rw [hst' hready (hidle ▸ hp.notIdle), hst, hp.blocked]
  · rw [(Sched.schedule_frame h).2.1, hdown, hp.inDown]
  · rw [hidle', hidle]
    exact hp.notIdle

theorem threadBlock (hq : s.Queues (some s.current)) (h : s.threadBlock = .ok s') :
    s'.Parked t := by
  obtain ⟨hne, hready⟩ := hp.off hq
  exact hp.schedule (Sched.threadCurrent_bind h) hready (update_of_ne hne _ _) rfl rfl

theorem threadYield (hq : s.Queues (some s.current)) (h : s.threadYield = .ok s') :
    s'.Parked t := by
  obtain ⟨hne, hready⟩ := hp.off hq
  have h := Sched.threadCurrent_bind h
  split at h
  · refine hp.schedule h ?_ (update_of_ne hne _ _) rfl rfl
    show t ∉ s.readyList ++ [s.current]
    simp [hready, hne]
  · exact hp.schedule h hready (update_of_ne hne _ _) rfl rfl

theorem threadExit (hq : s.Queues (some s.current)) (h : s.threadExit = .ok s') : s'.Parked t := by
  obtain ⟨hne, hready⟩ := hp.off hq
  exact hp.schedule (Sched.threadCurrent_bind h) hready (update_of_ne hne _ _) rfl rfl

theorem threadUnblock {u : Nat} (hne : u ≠ t) (h : s.threadUnblock u = .ok s') : s'.Parked t := by
  obtain rfl := Sched.threadUnblock_ok h
  refine ⟨?_, hp.inDown, hp.notIdle⟩
  exact (update_of_ne (Ne.symm hne) _ _).trans hp.blocked

theorem semaDown {k : Nat} (hq : s.Queues (some s.current)) (h : s.semaDown k = .ok s') :
    s'.Parked t := by
  obtain ⟨hne, hready⟩ := hp.off hq
  unfold Sched.semaDown at h
  split at h
  · have h := Sched.threadCurrent_bind (Sched.threadCurrent_bind h)
    exact hp.schedule h hready (update_of_ne hne _ _) (update_of_ne hne _ _) rfl
  · cases h
    exact ⟨hp.blocked, (update_of_ne hne _ _).trans hp.inDown, hp.notIdle⟩

theorem semaUp {k : Nat} (hq : s.Queues (some s.current)) (h : s.semaUp k = .ok s') :
    s'.Parked t := by
  obtain ⟨-, rfl⟩ | ⟨u, rest, s₁, hk, hu, rfl⟩ := Sched.semaUp_ok h
  · exact ⟨hp.blocked, hp.inDown, hp.notIdle⟩
  · -- the thread that is woken waits for the semaphore
    have hne : u ≠ t := by
      rintro rfl
      have := ((hq.waiting_iff k u).mp (by rw [hk]; exact List.mem_cons_self)).2
      rw [hp.inDown] at this
      cases this
    have hp' : (s.setSema k { s.sema k with waiters := rest }).Parked t :=
      ⟨hp.blocked, hp.inDown, hp.notIdle⟩
    obtain ⟨h₁, h₂, h₃⟩ := hp'.threadUnblock hne hu
    exact ⟨h₁, h₂, h₃⟩

theorem exec {op : SchedOp} (hq : s.Queues (some s.current)) (hop : op ≠ .unblock t)
    (h : s.exec op = .ok s') : s'.Parked t := by
  cases op with
  | create u =>
    cases h
    refine ⟨?_, hp.inDown, hp.notIdle⟩
    show update s.status u (some .blocked) t = _
    rw [update_apply]
    split
    · rfl
    · exact hp.blocked
  | block => exact hp.threadBlock hq h
  | unblock u => exact hp.threadUnblock (fun heq => hop (heq ▸ rfl)) h
  | yield => exact hp.threadYield hq h
  | preempt => exact hp.threadYield hq h
  | exit => exact hp.threadExit hq h
  | becomeIdle =>
    cases h
    exact ⟨hp.blocked, hp.inDown, fun heq => (hp.off hq).1 (Option.some.inj heq).symm⟩
  | down k => exact hp.semaDown hq h
  | tryDown k =>
    simp only [Sched.exec, Sched.semaTryDown] at h
    split at h
    all_goals
      cases h
      exact ⟨hp.blocked, hp.inDown, hp.notIdle⟩
  | up k => exact hp.semaUp hq h
  | resume =>
    simp only [Sched.exec] at h
    split at h
    · exact hp.semaDown hq h
    · cases h
      exact hp

end

theorem ofThreadBlock (hq : s.Queues (some s.current)) (hdown : s.inDown s.current = none)
    (hidle : s.idleThread ≠ some s.current) (h : s.threadBlock = .ok s') :
    s'.Parked s.current := by
  have hp : (s.setStatus s.current .blocked).Parked s.current :=
    ⟨update_self .., hdown, hidle⟩
  refine hp.schedule (Sched.threadCurrent_bind h) (fun hm => ?_) rfl rfl rfl
  have hrun := (hq.running_iff _).mpr rfl
  have hready := ((hq.ready_iff s.current).mp hm).1
  rw [hrun] at hready
  cases hready

end Sched.Parked

theorem Sched.semaUp_current {k : Nat} (h : s.semaUp k = .ok s') : s'.current = s.current := by
  obtain ⟨-, rfl⟩ | ⟨u, rest, s₁, -, hu, rfl⟩ := Sched.semaUp_ok h
  · rfl
  · obtain rfl := Sched.threadUnblock_ok hu
    rfl

/-- Only a thread that becomes the idle thread changes `idle_thread`. -/
theorem Sched.exec_idle (op : SchedOp) (h : s.exec op = .ok s') :
    s'.idleThread = s.idleThread ∨ op = .becomeIdle ∧ s'.idleThread = some s.current := by
  have hschedule : ∀ {s₁ : Sched}, s₁.schedule = .ok s' → s₁.idleThread = s.idleThread →
      s'.idleThread = s.idleThread := fun h h₁ => ((Sched.schedule_status (t := 0) h).1).trans h₁
  have hdown : ∀ k, s.semaDown k = .ok s' → s'.idleThread = s.idleThread := by
    intro k h
    unfold Sched.semaDown at h
    split at h
    · have h := Sched.threadCurrent_bind (Sched.threadCurrent_bind h)
      exact hschedule h rfl
    · cases h
      rfl
  have hunblock : ∀ {s₁ s₂ : Sched} {u : Nat}, s₁.threadUnblock u = .ok s₂ →
      s₂.idleThread = s₁.idleThread := by
    intro s₁ s₂ u h
    obtain rfl := Sched.threadUnblock_ok h
    rfl
  cases op with
  | create u =>
    cases h
    exact .inl rfl
  | block | exit => exact .inl (hschedule (Sched.threadCurrent_bind h) rfl)
  | unblock u => exact .inl (hunblock h)
  | yield | preempt =>
    have h := Sched.threadCurrent_bind h
    split at h
    all_goals exact .inl (hschedule h rfl)
  | becomeIdle =>
    cases h
    exact .inr ⟨rfl, rfl⟩
  | down k => exact .inl (hdown k h)
  | tryDown k =>
    simp only [Sched.exec, Sched.semaTryDown] at h
    split at h
    all_goals
      cases h
      exact .inl rfl
  | up k =>
    obtain ⟨-, rfl⟩ | ⟨u, rest, s₁, -, hu, rfl⟩ := Sched.semaUp_ok h
    · exact .inl rfl
    · have hsame := hunblock hu
      exact .inl hsame
  | resume =>
    simp only [Sched.exec] at h
    split at h
    · exact .inl (hdown _ h)
    · cases h
      exact .inl rfl

end Parked

open Sched

/-! ## The queue's lock and waiters -/

/-- What holds between the steps. -/
structure IntqInv (s : IntqState) : Prop where
  inBuf : s.q.head < 64 ∧ s.q.tail < 64
  queues : s.sched.Queues (some s.sched.current)
  holder_iff : ∀ t, s.holder = some t ↔ ∃ call, s.pc t = .waiting call
  locked : s.holder ≠ none → (s.sched.sema s.lock).value = 0
  binary : (s.sched.sema s.lock).value ≤ 1
  notIdle : ∀ t, s.pc t ≠ .out → s.sched.idleThread ≠ some t
  recorded : ∀ c t, s.q.waiter c = some t →
    s.sched.Parked t ∧ ∃ call, s.pc t = .waiting call ∧ call.awaits = c

/-- A recorded waiter stays recorded, or it is made ready. -/
def IntqState.KeepsWaiters (s s' : IntqState) : Prop :=
  ∀ c t, s.q.waiter c = some t →
    s'.q.waiter c = some t ∨ s'.q.waiter c = none ∧ s'.sched.status t = some .ready

theorem IntqState.run_eq_ok {s s' : IntqState} {r : Except Panic Sched} (h : s.run r = .ok s') :
    ∃ sched, r = .ok sched ∧ s' = { s with sched := sched } := by
  cases r with
  | error p => cases h
  | ok sched =>
    cases h
    exact ⟨sched, rfl, rfl⟩

namespace IntqInv

variable {s s' : IntqState} {call : IntqCall}

theorem init (main lock : Nat) (v : Nat → Nat) : IntqInv (.init main lock v) where
  inBuf := ⟨Nat.zero_lt_succ 63, Nat.zero_lt_succ 63⟩
  queues := .init main _
  holder_iff t := by simp [IntqState.init]
  locked h := absurd rfl h
  binary := by simp [IntqState.init, Sched.init]
  notIdle t h := absurd rfl h
  recorded c t h := by cases h

section

variable (h : IntqInv s)
include h

theorem transfer : IntqInv { s with q := s.q.transfer call } := by
  have hq : (s.q.transfer call).waiter = s.q.waiter := by
    cases call <;> rfl
  have hbuf : (s.q.transfer call).head < 64 ∧ (s.q.transfer call).tail < 64 := by
    have := h.inBuf
    cases call <;> simp only [Intq.transfer, Intq.next] <;> omega
  exact ⟨hbuf, h.queues, h.holder_iff, h.locked, h.binary, h.notIdle, fun c t ht =>
    h.recorded c t (by rw [← hq]; exact ht)⟩

theorem signal {c : IntqCond} (hs : s.signal c = .ok s') : IntqInv s' ∧ s.KeepsWaiters s' := by
  unfold IntqState.signal at hs
  split at hs
  · cases hs
  split at hs
  · next t ht =>
    obtain ⟨sched, hu, rfl⟩ := IntqState.run_eq_ok hs
    obtain ⟨hp, call, hpc, hc⟩ := h.recorded c t ht
    have hidle : sched.idleThread = s.sched.idleThread :=
      (exec_idle (.unblock t) hu).resolve_right nofun
    have hsema : sched.sema = s.sched.sema := (threadUnblock_frame hu).1
    refine ⟨⟨h.inBuf, ?_, h.holder_iff, ?_, ?_, ?_, ?_⟩, ?_⟩
    · exact (h.queues.threadUnblock hp.blocked hp.inDown hp.notIdle).1 sched hu
    · show s.holder ≠ none → (sched.sema s.lock).value = 0
      rw [hsema]
      exact h.locked
    · show (sched.sema s.lock).value ≤ 1
      rw [hsema]
      exact h.binary
    · intro u hu'
      show sched.idleThread ≠ some u
      rw [hidle]
      exact h.notIdle u hu'
    · -- the thread is recorded for no other condition
      intro c' u hc'
      simp only [Intq.setWaiter, update_apply] at hc'
      split at hc'
      · cases hc'
      · next hne =>
        obtain ⟨hp', call', hpc', hc''⟩ := h.recorded c' u hc'
        refine ⟨hp'.threadUnblock (fun heq => ?_) hu, call', hpc', hc''⟩
        subst heq
        rw [hpc] at hpc'
        cases hpc'
        exact hne (hc''.symm.trans hc)
    · intro c' u hc'
      simp only [Intq.setWaiter, update_apply]
      split
      · next heq =>
        subst heq
        rw [ht] at hc'
        cases hc'
        refine .inr ⟨rfl, ?_⟩
        simp only [threadUnblock, if_pos hp.blocked] at hu
        cases hu
        exact update_self ..
      · exact .inl hc'
  · cases hs
    exact ⟨h, fun _ _ ht => .inl ht⟩

theorem finish (hs : s.finish call = .ok s') : IntqInv s' ∧ s.KeepsWaiters s' := by
  obtain ⟨h', hkeep⟩ := h.transfer.signal hs
  refine ⟨h', fun c t ht => hkeep c t ?_⟩
  cases call
  · exact ht
  · exact ht

theorem takeAndWait (hpos : 0 < (s.sched.sema s.lock).value)
    (hidle : s.sched.idleThread ≠ some s.current) (hs : s.acquireRound call = .ok s') :
    IntqInv s' ∧ s.KeepsWaiters s' := by
  unfold acquireRound at hs
  rw [if_pos hpos] at hs
  have hfree : s.holder = none := by
    by_contra hne
    have := h.locked hne
    omega
  have hnone : ∀ c, s.q.waiter c = none := by
    intro c
    cases hc : s.q.waiter c with
    | none => rfl
    | some t =>
      obtain ⟨-, call, hpc, -⟩ := h.recorded c t hc
      rw [(h.holder_iff t).mpr ⟨call, hpc⟩] at hfree
      cases hfree
  have hd : s.sched.semaDown s.lock = .ok ((s.sched.setSema s.lock { s.sched.sema s.lock with
      value := (s.sched.sema s.lock).value - 1 }).setInDown s.current none) :=
    if_neg (Nat.pos_iff_ne_zero.mp hpos)
  have hdq := (h.queues.semaDown hidle).1 _ hd
  simp only [hd, run, bind, Except.bind, wait] at hs
  split at hs
  · obtain ⟨sched, hb, rfl⟩ := run_eq_ok hs
    have hpark := Sched.Parked.ofThreadBlock hdq (update_self ..) hidle hb
    have hidle' : sched.idleThread = s.sched.idleThread :=
      (exec_idle .block hb).resolve_right nofun
    have hval : (sched.sema s.lock).value = 0 := by
      rw [(threadBlock_frame hb).1]
      show (update s.sched.sema s.lock _ s.lock).value = 0
      rw [update_self]
      show (s.sched.sema s.lock).value - 1 = 0
      have := h.binary
      omega
    have hpc : ∀ t, t ≠ s.current → ∀ call, s.pc t ≠ .waiting call := by
      intro t _ call hpc
      rw [(h.holder_iff t).mpr ⟨call, hpc⟩] at hfree
      cases hfree
    refine ⟨⟨h.inBuf, ?_, ?_, fun _ => hval, Nat.le_trans (Nat.le_of_eq hval) (Nat.zero_le 1), ?_, ?_⟩, ?_⟩
    · exact (hdq.threadBlock (update_self ..)).1 sched hb
    · intro t
      show some s.current = some t ↔
        ∃ call', update s.pc s.current (.waiting call) t = .waiting call'
      by_cases ht : t = s.current
      · rw [ht, update_self]
        exact ⟨fun _ => ⟨call, rfl⟩, fun _ => rfl⟩
      · rw [update_of_ne ht]
        exact ⟨fun heq => absurd (Option.some.inj heq).symm ht, fun ⟨call', hc⟩ =>
          absurd hc (hpc t ht call')⟩
    · intro t ht
      show sched.idleThread ≠ some t
      rw [hidle']
      by_cases htc : t = s.current
      · rw [htc]
        exact hidle
      · exact h.notIdle t fun hout => ht ((update_of_ne htc _ _).trans hout)
    · intro c t ht
      have ht : update s.q.waiter call.awaits (some s.current) c = some t := ht
      rw [update_apply] at ht
      split at ht
      · next hc =>
        cases ht
        exact ⟨hpark, call, update_self .., hc.symm⟩
      · rw [hnone c] at ht
        cases ht
    · intro c t ht
      rw [hnone c] at ht
      cases ht
  · cases hs

theorem sleep (hzero : ¬ 0 < (s.sched.sema s.lock).value)
    (hidle : s.sched.idleThread ≠ some s.current) (hpc : ∀ call, s.pc s.current ≠ .waiting call)
    (hs : s.acquireRound call = .ok s') : IntqInv s' ∧ s.KeepsWaiters s' := by
  unfold acquireRound at hs
  rw [if_neg hzero] at hs
  obtain ⟨sched, hd, rfl⟩ := run_eq_ok hs
  have hidle' : sched.idleThread = s.sched.idleThread :=
    (exec_idle (.down s.lock) hd).resolve_right nofun
  have hval : (sched.sema s.lock).value = (s.sched.sema s.lock).value := by
    obtain ⟨-, ⟨hpos, -⟩ | ⟨-, -, hsema⟩⟩ := semaDown_effect hd
    · exact absurd hpos hzero
    · rw [hsema, update_self]
  have hpc' : ∀ t call', update s.pc s.current (.acquiring call) t = .waiting call' ↔
      s.pc t = .waiting call' := by
    intro t call'
    rw [update_apply]
    split
    · next ht =>
      subst ht
      exact ⟨nofun, fun hc => absurd hc (hpc call')⟩
    · exact Iff.rfl
  refine ⟨⟨h.inBuf, (h.queues.semaDown hidle).1 sched hd, fun t => ?_, fun hne => ?_, ?_, fun t ht => ?_,
    fun c t ht => ?_⟩, fun _ _ ht => .inl ht⟩
  · exact (h.holder_iff t).trans (exists_congr fun call' => (hpc' t call').symm)
  · exact hval.trans (h.locked hne)
  · exact Nat.le_trans (Nat.le_of_eq hval) h.binary
  · show sched.idleThread ≠ some t
    rw [hidle']
    by_cases htc : t = s.current
    · rw [htc]
      exact hidle
    · exact h.notIdle t fun hout => ht ((update_of_ne htc _ _).trans hout)
  · obtain ⟨hp, call', hw, hc⟩ := h.recorded c t ht
    exact ⟨hp.semaDown h.queues hd, call', (hpc' t call').mpr hw, hc⟩

section

variable (hidle : s.sched.idleThread ≠ some s.current)
  (hpc : ∀ call, s.pc s.current ≠ .waiting call)
include hidle hpc

theorem acquireRound (hs : s.acquireRound call = .ok s') : IntqInv s' ∧ s.KeepsWaiters s' := by
  by_cases hpos : 0 < (s.sched.sema s.lock).value
  · exact h.takeAndWait hpos hidle hs
  · exact h.sleep hpos hidle hpc hs

theorem loop (hs : s.loop call = .ok s') : IntqInv s' ∧ s.KeepsWaiters s' := by
  unfold IntqState.loop at hs
  split at hs
  · split at hs
    · cases hs
    · exact h.acquireRound hidle hpc hs
  · exact h.finish hs

end

theorem release (hs : s.release = .ok s') :
    IntqInv s' ∧ s'.q = s.q ∧ s'.current = s.current ∧ s'.sched.idleThread = s.sched.idleThread ∧
      s'.pc = update s.pc s.current .out ∧ s'.lock = s.lock ∧
      (s'.sched.sema s.lock).value = 1 := by
  unfold IntqState.release at hs
  split at hs
  · next hheld =>
    obtain ⟨sched, hu, rfl⟩ := IntqState.run_eq_ok hs
    have hidle : sched.idleThread = s.sched.idleThread :=
      (exec_idle (.up s.lock) hu).resolve_right nofun
    have hval : (sched.sema s.lock).value = 1 := by
      have hzero := h.locked (by simp [hheld])
      rw [(semaUp_effect hu).2.2, update_self]
      show ((s.sched.sema s.lock).value + 1) % 2 ^ 32 = 1
      omega
    have hcur : sched.current = s.current := semaUp_current hu
    have hpc : ∀ t, s.holder = some t ↔ t = s.current := by
      intro t
      rw [hheld]
      exact ⟨fun heq => (Option.some.inj heq).symm, fun heq => heq ▸ rfl⟩
    refine ⟨⟨h.inBuf, ?_, fun t => ?_, fun hne => absurd rfl hne, Nat.le_of_eq hval, fun t ht => ?_,
      fun c t ht => ?_⟩, rfl, hcur, hidle, rfl, rfl, hval⟩
    · exact (h.queues.semaUp).1 sched hu
    · show none = some t ↔ ∃ call, update s.pc s.current .out t = .waiting call
      refine ⟨nofun, fun ⟨call, hc⟩ => ?_⟩
      rw [update_apply] at hc
      split at hc
      · cases hc
      · next hne => exact absurd ((hpc t).mp ((h.holder_iff t).mpr ⟨call, hc⟩)) hne
    · show sched.idleThread ≠ some t
      rw [hidle]
      refine h.notIdle t fun hout => ht ?_
      show update s.pc s.current .out t = .out
      rw [update_apply]
      split
      · rfl
      · exact hout
    · -- a recorded thread would hold the lock, and be blocked
      obtain ⟨hp, call, hw, -⟩ := h.recorded c t ht
      exact absurd ((hpc t).mp ((h.holder_iff t).mpr ⟨call, hw⟩)) (hp.off h.queues).1
  · cases hs

/-- **The step lemma.** -/
theorem step {op : IntqOp} (hs : s.step op = some s') : IntqInv s' ∧ s.KeepsWaiters s' := by
  obtain ⟨hen, hex⟩ := IntqState.step_eq_some.mp hs
  cases op with
  | call call =>
    simp only [IntqState.enabled, Bool.and_eq_true, beq_iff_eq, bne_iff_ne] at hen
    refine h.loop hen.2 (fun call' hc => ?_) hex
    rw [hen.1.1] at hc
    cases hc
  | resume =>
    have hout : s.pc s.current ≠ .out := by simpa [IntqState.enabled] using hen
    have hidle := h.notIdle _ hout
    simp only [IntqState.exec] at hex
    split at hex
    · next call hpc =>
      refine h.acquireRound hidle (fun call' hc => ?_) hex
      rw [hpc] at hc
      cases hc
    · next call hpc =>
      cases hr : s.release with
      | error p =>
        rw [hr] at hex
        cases hex
      | ok r =>
        rw [hr] at hex
        obtain ⟨hinv, hq, hcur, hidle', hpc', -, -⟩ := h.release hr
        obtain ⟨h', hkeep⟩ := hinv.loop (by rw [hcur, hidle']; exact hidle)
          (fun call' hc => by simp [hcur, hpc'] at hc) hex
        exact ⟨h', fun c t ht => hkeep c t (by rw [hq]; exact ht)⟩
    · next hpc => exact absurd hpc hout
  | interrupt call => exact h.finish hex
  | sched op =>
    simp only [IntqState.enabled, Bool.and_eq_true, beq_iff_eq] at hen
    obtain ⟨⟨⟨⟨hout, hen⟩, hright⟩, hforeign⟩, hother⟩ := hen
    obtain ⟨sched, hx, rfl⟩ := IntqState.run_eq_ok hex
    have hval : (sched.sema s.lock).value = (s.sched.sema s.lock).value :=
      LockInv.foreign_value hforeign (step_eq_some.mpr ⟨hen, hx⟩) (by simp)
    refine ⟨⟨h.inBuf, (h.queues.exec op hen hright).1 sched hx, h.holder_iff, fun hne => ?_, ?_,
      fun t ht heq => ?_, fun c t ht => ?_⟩, fun _ _ ht => .inl ht⟩
    · exact hval.trans (h.locked hne)
    · exact Nat.le_trans (Nat.le_of_eq hval) h.binary
    · obtain hsame | ⟨-, hcur⟩ := exec_idle op hx
      · exact h.notIdle t ht (hsame.symm.trans heq)
      · have heq : sched.idleThread = some t := heq
        rw [hcur] at heq
        cases heq
        exact ht hout
    · obtain ⟨hp, call, hw, hc⟩ := h.recorded c t ht
      refine ⟨hp.exec h.queues (fun hop => ?_) hx, call, hw, hc⟩
      subst hop
      have hnot : s.pc t = .out := by simpa using hother
      rw [hnot] at hw
      cases hw

end

end IntqInv

/-! ## The assertion -/

/-- A thread that has to wait finds the lock of the queue free. -/
def IntqState.lockFree (s : IntqState) : IntqOp → Bool
  | .call call => !s.q.unmet call.awaits || decide (0 < (s.sched.sema s.lock).value)
  | _ => true

/-- No thread sleeps on the lock of the queue. -/
def IntqState.NoSleeper (s : IntqState) : Prop := ∀ t call, s.pc t ≠ .acquiring call

namespace IntqState

variable {s s' : IntqState} {call : IntqCall}

/-- After the transfer the condition that is signalled holds, as `signal` asserts. -/
theorem signal_met (h : IntqInv s) (hmet : s.q.unmet call.awaits = false) :
    (s.q.transfer call).unmet call.signals = false := by
  obtain ⟨hhead, htail⟩ := h.inBuf
  cases call with
  | getc =>
    simp only [IntqCall.awaits, IntqCall.signals, Intq.unmet, Intq.empty, Intq.full, Intq.transfer,
      Intq.next, beq_eq_false_iff_ne] at hmet ⊢
    omega
  | putc byte => exact hmet

section

variable {p : IntqPanic} (hp : p = .wait ∨ p = .signal)
include hp

theorem run_ne (r : Except Panic Sched) : s.run r ≠ .error p := by
  rcases hp with rfl | rfl <;> cases r <;> nofun

theorem finish_ne (h : IntqInv s) (hmet : s.q.unmet call.awaits = false) :
    s.finish call ≠ .error p := by
  unfold finish signal
  rw [if_neg (by rw [signal_met h hmet]; nofun)]
  split
  · exact run_ne hp _
  · nofun

theorem acquireRound_ne (h : p = .wait → s.q.unmet call.awaits = true) :
    s.acquireRound call ≠ .error p := by
  unfold acquireRound
  split
  · cases s.sched.semaDown s.lock with
    | error q => rcases hp with rfl | rfl <;> nofun
    | ok d =>
      simp only [run, bind, Except.bind, wait]
      split
      · exact run_ne hp _
      · next hmet => exact fun heq => hmet (h (Except.error.inj heq).symm)
  · exact run_ne hp _

theorem loop_ne (h : IntqInv s) : s.loop call ≠ .error p := by
  unfold loop
  split
  · next hunmet =>
    split
    · rcases hp with rfl | rfl <;> nofun
    · exact acquireRound_ne hp fun _ => hunmet
  · next hmet => exact finish_ne hp h (Bool.eq_false_iff.mpr hmet)

/-- `signal` never fails its assertion, and `wait` only in a thread that slept on the lock. -/
theorem exec_ne (h : IntqInv s) (hwait : p = .wait → s.NoSleeper) {op : IntqOp}
    (hen : s.enabled op = true) : s.exec op ≠ .error p := by
  cases op with
  | call call => exact loop_ne hp h
  | resume =>
    simp only [exec]
    split
    · next call hpc => exact acquireRound_ne hp fun heq => absurd hpc (hwait heq _ call)
    · cases hr : s.release with
      | error q =>
        rintro ⟨⟩
        unfold release at hr
        split at hr
        · exact run_ne hp _ hr
        · rcases hp with rfl | rfl <;> cases hr
      | ok r => exact loop_ne hp (h.release hr).1
    · nofun
  | interrupt call =>
    simp only [enabled, Bool.and_eq_true, Bool.not_eq_true'] at hen
    exact finish_ne hp h hen.2
  | sched op => exact run_ne hp _

end

theorem finish_pc (hs : s.finish call = .ok s') : s'.pc = s.pc := by
  unfold finish signal at hs
  split at hs
  · cases hs
  split at hs
  · obtain ⟨sched, -, rfl⟩ := run_eq_ok hs
    rfl
  · cases hs
    rfl

theorem NoSleeper.loop (h : s.NoSleeper) (hs : s.loop call = .ok s')
    (hfree : s.q.unmet call.awaits = true → 0 < (s.sched.sema s.lock).value) : s'.NoSleeper := by
  unfold IntqState.loop at hs
  split at hs
  · next hunmet =>
    split at hs
    · cases hs
    · unfold acquireRound at hs
      rw [if_pos (hfree hunmet)] at hs
      cases hd : s.sched.semaDown s.lock with
      | error p =>
        rw [hd] at hs
        cases hs
      | ok d =>
        simp only [hd, run, bind, Except.bind, wait, if_pos hunmet] at hs
        obtain ⟨sched, -, rfl⟩ := run_eq_ok hs
        exact fun t call' hc => h t call' (of_update hc nofun)
  · intro t call' hc
    rw [finish_pc hs] at hc
    exact h t call' hc

theorem NoSleeper.step {op : IntqOp} (h : s.NoSleeper) (hinv : IntqInv s) (hfree : s.lockFree op = true)
    (hs : s.step op = some s') : s'.NoSleeper := by
  obtain ⟨hen, hex⟩ := step_eq_some.mp hs
  cases op with
  | call call =>
    refine h.loop hex fun hunmet => ?_
    simpa [lockFree, hunmet] using hfree
  | resume =>
    simp only [exec] at hex
    split at hex
    · next call hpc => exact absurd hpc (h _ call)
    · next call hpc =>
      cases hr : s.release with
      | error p =>
        rw [hr] at hex
        cases hex
      | ok r =>
        rw [hr] at hex
        obtain ⟨-, -, -, -, hpc', hlock, hval⟩ := hinv.release hr
        have hr : r.NoSleeper := by
          intro t call' hc
          rw [hpc'] at hc
          exact h t call' (of_update hc nofun)
        refine hr.loop hex fun _ => ?_
        rw [hlock, hval]
        exact Nat.one_pos
    · cases hex
      exact h
  | interrupt call =>
    intro t call' hc
    rw [finish_pc hex] at hc
    exact h t call' hc
  | sched op =>
    obtain ⟨sched, -, rfl⟩ := run_eq_ok hex
    exact h

end IntqState

/-- **Waiters on an interrupt queue.** In every run in which threads that have to wait find the
lock of the queue free, `wait` never fails its assertion. In every run at all `signal` does not fail
its own, and a recorded waiter stays recorded until a step makes it ready. -/
theorem intq_waiters_safe {main lock : Nat} {v : Nat → Nat} {ops : List IntqOp} {s : IntqState} :
    (Runs (fun s op s' => IntqState.step s op = some s') (fun s op => s.lockFree op = true)
        (IntqState.init main lock v) ops s →
      ∀ op, s.lockFree op = true → s.enabled op = true → s.exec op ≠ .error .wait) ∧
    (Runs (fun s op s' => IntqState.step s op = some s') (fun _ _ => True)
        (IntqState.init main lock v) ops s →
      (∀ op, s.enabled op = true → s.exec op ≠ .error .signal) ∧
      ∀ op s', s.step op = some s' → ∀ c t, s.q.waiter c = some t →
        s'.q.waiter c = some t ∨ s'.q.waiter c = none ∧ s'.sched.status t = some .ready) := by
  constructor
  · intro hruns
    have h : IntqInv s ∧ s.NoSleeper := by
      refine Runs.invariant (I := fun s => IntqInv s ∧ s.NoSleeper) ?_ hruns
        ⟨.init main lock v, fun _ _ => nofun⟩
      intro s op s' hi hok hs
      exact ⟨(hi.1.step hs).1, hi.2.step hi.1 hok hs⟩
    exact fun op _ => IntqState.exec_ne (.inl rfl) h.1 fun _ => h.2
  · intro hruns
    have h : IntqInv s := hruns.invariant (I := IntqInv) (fun hi _ hs => (hi.step hs).1)
      (.init main lock v)
    exact ⟨fun op => IntqState.exec_ne (.inr rfl) h nofun, fun op s' hs => (h.step hs).2⟩

/-- A thread waits for a byte. -/
def oneReader : List IntqOp :=
  [.sched (.create 1), .sched (.unblock 1), .call .getc]

theorem intq_waiters_safe_oneReader :
    ∃ s s' : IntqState, s.q.waiter .notEmpty = some 0 ∧ s.step (.interrupt (.putc 97)) = some s' ∧
      (s'.q.waiter .notEmpty = some 0 ∨
        s'.q.waiter .notEmpty = none ∧ s'.sched.status 0 = some .ready) := by
  have hruns : Runs (fun s op s' => IntqState.step s op = some s')
      (fun _ _ => True) (IntqState.init 0 0 fun _ => 0) oneReader
      (oneReader.foldl (after IntqState.step) (IntqState.init 0 0 fun _ => 0)) :=
    runs_of_allows (fun _ _ => true) (fun _ _ _ => trivial) (by decide +kernel)
  have hput := after_eq_some (f := IntqState.step) (e := .interrupt (.putc 97))
    (s := oneReader.foldl (after IntqState.step) (IntqState.init 0 0 fun _ => 0))
    (by decide +kernel)
  exact ⟨_, _, by decide +kernel, hput, (intq_waiters_safe.2 hruns).2 _ _ hput .notEmpty 0
    (by decide +kernel)⟩

/-- Two threads wait for a byte, and two bytes come before the first of them runs. -/
def twoReaders : List IntqOp :=
  [.sched (.create 1), .sched (.unblock 1), .sched (.create 2), .sched (.unblock 2),
    .call .getc, .call .getc, .interrupt (.putc 97), .interrupt (.putc 98),
    .sched .yield, .resume, .sched .yield, .sched .yield]

/-- The second reader gets the lock while a byte is in the queue, and `wait` fails its assertion. -/
theorem two_readers_two_bytes :
    ∃ s, Runs (fun s op s' => IntqState.step s op = some s') (fun _ _ => True)
        (IntqState.init 0 0 fun _ => 0) twoReaders s ∧
      s.enabled .resume = true ∧ s.exec .resume = .error .wait := by
  refine ⟨twoReaders.foldl (after step) (init 0 0 fun _ => 0),
    runs_of_allows (fun _ _ => true) (fun _ _ _ => trivial) (by decide +kernel), ?_⟩
  exact ⟨by decide +kernel, rfl⟩

end Pintos
