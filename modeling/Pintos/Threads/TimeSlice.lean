import Pintos.Threads.Synch

/-!
# Time slices and the idle thread (`threads/thread.c`, `devices/timer.c`)

The timer interrupt counts a tick and calls `thread_tick`. When the time slice is over,
`intr_handler` calls `thread_yield` before it returns. `thread_schedule_tail` starts a new slice,
also for a thread that blocks or yields early.

The run queue is first in, first out. So a ready thread waits for those in front of it only, for at
most one slice each, whatever the threads do (`ready_thread_runs`). With the idle thread there is
always one to switch to (`calls_succeed`).
-/

namespace Pintos

open Lib List

/-- `TIME_SLICE`. -/
def timeSlice : Nat := 4

/-- The threads with `ticks` and `thread_ticks`. -/
structure Clock where
  sched : Sched
  ticks : Nat
  threadTicks : Nat

/-- A timer interrupt, or a step of the running thread. -/
inductive ClockOp
  | tick
  | call (op : SchedOp)

/-- The steps that go through `schedule`. -/
def Sched.switches (s : Sched) : SchedOp → Bool
  | .block | .yield | .preempt | .exit => true
  | .down k => (s.sema k).value == 0
  | .resume =>
    match s.inDown s.current with
    | some k => (s.sema k).value == 0
    | none => false
  | _ => false

namespace Clock

/-- `timer_interrupt` with `thread_tick`, and the end of `intr_handler`. -/
def timerInterrupt (c : Clock) : Except Panic Clock := do
  let _ ← c.sched.threadCurrent
  let c := { c with ticks := c.ticks + 1, threadTicks := c.threadTicks + 1 }
  if timeSlice ≤ c.threadTicks then
    let s ← c.sched.threadYield
    .ok { c with sched := s, threadTicks := 0 }
  else .ok c

def exec (c : Clock) : ClockOp → Except Panic Clock
  | .tick => c.timerInterrupt
  | .call op => do
    let s ← c.sched.exec op
    .ok { c with sched := s, threadTicks := if c.sched.switches op then 0 else c.threadTicks }

/-- A thread in the loop of `sema_down` is not interrupted. Only the timer preempts. -/
def enabled (c : Clock) : ClockOp → Bool
  | .tick => (c.sched.inDown c.sched.current).isNone
  | .call op => op != .preempt && c.sched.enabled op

def step (c : Clock) (e : ClockOp) : Option Clock :=
  if c.enabled e then (c.exec e).toOption else none

def init (main : Nat) (v : Nat → Nat) : Clock := ⟨Sched.init main v, 0, 0⟩

end Clock

abbrev ClockRuns (c : Clock) (es : List ClockOp) (c' : Clock) : Prop :=
  Runs (fun c e c' => c.step e = some c') (fun _ _ => True) c es c'

/-! ## The run queue -/

section Queue

variable {s s' s₁ : Sched} {t : Nat} {l : List Nat}

/-- What a step does to the run queue: threads join it at its end and, at a switch, the first one
leaves it and runs. -/
def Sched.Joins (s s' : Sched) : Bool → Prop
  | false => ∃ l, s'.readyList = s.readyList ++ l
  | true => ∃ l, s.readyList ++ l = s'.current :: s'.readyList

theorem Sched.joins_of_schedule (h : s₁.schedule = .ok s') (hne : s.readyList ≠ [])
    (hl : s₁.readyList = s.readyList ++ l) : s.Joins s' true := by
  obtain ⟨t, rest, rfl, hready | ⟨hready, -⟩⟩ := schedule_ok h
  · exact ⟨l, hl.symm.trans hready⟩
  · exact absurd (append_eq_nil_iff.mp (hl.symm.trans hready)).1 hne

theorem Sched.joins_of_yield (hne : s.readyList ≠ []) (h : s.threadYield = .ok s') :
    s.Joins s' true := by
  have h := threadCurrent_bind h
  split at h
  · exact joins_of_schedule h hne rfl
  · exact joins_of_schedule h hne (append_nil _).symm

theorem Sched.joins_of_down {k : Nat} (hne : s.readyList ≠ []) (h : s.semaDown k = .ok s') :
    s.Joins s' ((s.sema k).value == 0) := by
  unfold semaDown at h
  split at h
  · next hz =>
    rw [hz]
    exact joins_of_schedule (threadCurrent_bind (threadCurrent_bind h)) hne (append_nil _).symm
  · next hz =>
    cases h
    rw [beq_eq_false_iff_ne.mpr hz]
    exact ⟨[], (append_nil _).symm⟩

theorem Sched.exec_joins {op : SchedOp} (hne : s.readyList ≠ []) (h : s.exec op = .ok s') :
    s.Joins s' (s.switches op) := by
  have hsame : s.Joins s false := ⟨[], (append_nil _).symm⟩
  cases op with
  | create t => cases h; exact hsame
  | block | exit => exact joins_of_schedule (threadCurrent_bind h) hne (append_nil _).symm
  | unblock t => obtain rfl := threadUnblock_ok h; exact ⟨[t], rfl⟩
  | yield => exact joins_of_yield hne h
  | preempt => exact joins_of_yield hne h
  | becomeIdle => cases h; exact hsame
  | down k => exact joins_of_down hne h
  | tryDown k =>
    simp only [exec, semaTryDown] at h
    split at h
    all_goals cases h; exact hsame
  | up k =>
    obtain ⟨-, rfl⟩ | ⟨t, rest, s₁, -, hs₁, rfl⟩ := semaUp_ok h
    · exact hsame
    · obtain rfl := threadUnblock_ok hs₁; exact ⟨[t], rfl⟩
  | resume =>
    cases hk : s.inDown s.current with
    | some k =>
      simp only [exec, switches, hk] at h ⊢
      exact joins_of_down hne h
    | none =>
      simp only [exec, switches, hk] at h ⊢
      cases h
      exact hsame

/-- A thread that is ready is the next one to run, or keeps its place but for those that leave. -/
theorem Sched.Joins.rank {b : Bool} (h : s.Joins s' b) (ht : t ∈ s.readyList) :
    (b = true ∧ s'.current = t) ∨
      t ∈ s'.readyList ∧ s'.readyList.idxOf t + b.toNat = s.readyList.idxOf t := by
  cases b with
  | false =>
    obtain ⟨l, hl⟩ := h
    rw [hl]
    exact .inr ⟨mem_append_left l ht, by simp [idxOf_append_of_mem ht]⟩
  | true =>
    obtain ⟨l, hl⟩ := h
    by_cases hcur : s'.current = t
    · exact .inl ⟨rfl, hcur⟩
    · have hmem := mem_append_left l ht
      rw [hl, mem_cons] at hmem
      have hidx : (s.readyList ++ l).idxOf t = _ := idxOf_append_of_mem ht
      rw [hl, idxOf_cons_ne _ hcur] at hidx
      exact .inr ⟨hmem.resolve_left (Ne.symm hcur), hidx⟩

end Queue

/-! ## The clock -/

namespace Clock

variable {c c' : Clock} {t : Nat}

theorem timerInterrupt_ok (h : c.timerInterrupt = .ok c') : c'.ticks = c.ticks + 1 ∧
    ((timeSlice ≤ c.threadTicks + 1 ∧ c'.threadTicks = 0 ∧ c.sched.threadYield = .ok c'.sched) ∨
      (c'.threadTicks = c.threadTicks + 1 ∧ c'.threadTicks < timeSlice ∧ c'.sched = c.sched)) := by
  unfold timerInterrupt at h
  cases hcur : c.sched.threadCurrent with
  | error p => simp [hcur, bind, Except.bind] at h
  | ok t =>
    simp only [hcur, bind, Except.bind] at h
    split at h
    · next hslice =>
      cases hy : c.sched.threadYield with
      | error p => simp [hy] at h
      | ok s =>
        simp only [hy] at h
        cases h
        exact ⟨rfl, .inl ⟨hslice, rfl, rfl⟩⟩
    · next hslice =>
      cases h
      exact ⟨rfl, .inr ⟨rfl, Nat.lt_of_not_le hslice, rfl⟩⟩

theorem step_eq_some {e : ClockOp} (h : c.step e = some c') : c.exec e = .ok c' :=
  (ite_toOption_eq_some.mp h).2

theorem call_ok {op : SchedOp} (h : c.exec (.call op) = .ok c') :
    ∃ s, c.sched.exec op = .ok s ∧ c' = { c with
      sched := s, threadTicks := if c.sched.switches op then 0 else c.threadTicks } := by
  cases hs : c.sched.exec op with
  | error p => simp [exec, hs, bind, Except.bind] at h
  | ok s =>
    simp only [exec, hs, bind, Except.bind] at h
    cases h
    exact ⟨s, rfl, rfl⟩

theorem step_slice {e : ClockOp} (h : c.threadTicks < timeSlice) (hstep : c.step e = some c') :
    c'.threadTicks < timeSlice := by
  cases e with
  | tick =>
    obtain ⟨-, ⟨-, hzero, -⟩ | ⟨-, hlt, -⟩⟩ := timerInterrupt_ok (step_eq_some hstep)
    · rw [hzero]
      decide
    · exact hlt
  | call op =>
    obtain ⟨s, -, rfl⟩ := call_ok (step_eq_some hstep)
    show (if _ then _ else _) < _
    split
    · decide
    · exact h

/-- The ticks after which a ready thread has run. -/
def deadline (c : Clock) (t : Nat) : Nat :=
  c.ticks + timeSlice * (c.sched.readyList.idxOf t + 1) - c.threadTicks

/-- **The step lemma**: the thread is running, or it is still ready and its deadline is no later. -/
theorem step_deadline {e : ClockOp} (hslice : c.threadTicks < timeSlice)
    (ht : t ∈ c.sched.readyList) (hstep : c.step e = some c') :
    (c'.sched.current = t ∧ c'.ticks ≤ c.deadline t) ∨
      t ∈ c'.sched.readyList ∧ c'.deadline t ≤ c.deadline t := by
  have hne := ne_nil_of_mem ht
  unfold deadline
  cases e with
  | tick =>
    obtain ⟨hticks, ⟨hend, hzero, hy⟩ | ⟨hnext, -, hs⟩⟩ := timerInterrupt_ok (step_eq_some hstep)
    · obtain ⟨-, hcur⟩ | ⟨hmem, hidx⟩ := (Sched.joins_of_yield hne hy).rank ht
      · exact .inl ⟨hcur, by simp only [timeSlice] at *; omega⟩
      · refine .inr ⟨hmem, ?_⟩
        simp only [timeSlice, Bool.toNat_true] at *
        omega
    · rw [hs]
      exact .inr ⟨ht, by omega⟩
  | call op =>
    obtain ⟨s, hs, rfl⟩ := call_ok (step_eq_some hstep)
    obtain ⟨hb, hcur⟩ | ⟨hmem, hidx⟩ := (Sched.exec_joins hne hs).rank ht
    · exact .inl ⟨hcur, by simp only [timeSlice] at *; omega⟩
    · refine .inr ⟨hmem, ?_⟩
      dsimp only
      cases hb : c.sched.switches op
      all_goals
        simp only [hb, timeSlice, Bool.toNat_true, Bool.toNat_false, if_true, Bool.false_eq_true,
          if_false] at *
        omega

/-- **The run lemma.** -/
theorem runs_deadline {es : List ClockOp} (hruns : ClockRuns c es c')
    (hslice : c.threadTicks < timeSlice) (ht : t ∈ c.sched.readyList)
    (hlong : c.deadline t ≤ c'.ticks) :
    ∃ es₁ es₂ mid, es = es₁ ++ es₂ ∧ ClockRuns c es₁ mid ∧ ClockRuns mid es₂ c' ∧
      mid.sched.current = t ∧ mid.ticks ≤ c.deadline t := by
  induction hruns with
  | nil c =>
    simp only [deadline, timeSlice] at hlong hslice
    omega
  | @cons c c₁ c' e es _ hstep hrest ih =>
    obtain ⟨hcur, hle⟩ | ⟨hmem, hle⟩ := step_deadline hslice ht hstep
    · exact ⟨[e], es, c₁, rfl, .cons trivial hstep (.nil _), hrest, hcur, hle⟩
    · obtain ⟨es₁, es₂, mid, rfl, h₁, h₂, hcur, hmid⟩ :=
        ih (step_slice hslice hstep) hmem (Nat.le_trans hle hlong)
      exact ⟨e :: es₁, es₂, mid, rfl, .cons trivial hstep h₁, h₂, hcur, Nat.le_trans hmid hle⟩

end Clock

/-- **Round robin.** A thread that is ready gets the processor: by the time the slices of the
running thread and of those in front of it in the run queue would be over, it has run, whatever
the threads do in the meantime and whoever becomes ready. -/
theorem ready_thread_runs {main : Nat} {v : Nat → Nat} {es es' : List ClockOp} {c c' : Clock}
    (h : ClockRuns (Clock.init main v) es c) {t : Nat} (ht : t ∈ c.sched.readyList)
    (h' : ClockRuns c es' c') (hlong : c.deadline t ≤ c'.ticks) :
    ∃ es₁ es₂ mid, es' = es₁ ++ es₂ ∧ ClockRuns c es₁ mid ∧ ClockRuns mid es₂ c' ∧
      mid.sched.current = t ∧ mid.ticks ≤ c.deadline t := by
  have hslice : c.threadTicks < timeSlice :=
    h.invariant (I := fun c => c.threadTicks < timeSlice) (fun h _ hs => Clock.step_slice h hs)
      (Nat.succ_pos 3)
  exact Clock.runs_deadline h' hslice ht hlong

/-- `main` has created a thread, and 2 ticks of its slice are over. -/
def created : Clock :=
  [.call (.create 1), .call (.unblock 1), .tick, .tick].foldl (after Clock.step)
    (Clock.init 0 fun _ => 0)

theorem ready_thread_runs_created :
    ∃ es₁ es₂ mid, replicate 3 .tick = es₁ ++ es₂ ∧ ClockRuns created es₁ mid ∧
      ClockRuns mid es₂ ((replicate 3 .tick).foldl (after Clock.step) created) ∧
      mid.sched.current = 1 ∧ mid.ticks ≤ 4 :=
  ready_thread_runs (runs_of_allows (fun _ _ => true) (fun _ _ _ => trivial) (by decide +kernel))
    (by decide +kernel)
    (runs_of_allows (fun _ _ => true) (fun _ _ _ => trivial) (by decide +kernel))
    (by decide +kernel)

/-! ## The idle thread -/

section Idle

variable {s s₁ : Sched}

theorem Sched.schedule_noThread (h : s₁.schedule = .error .noThread)
    (hs : s₁.idleThread = s.idleThread) : s.idleThread = none := by
  unfold schedule nextThreadToRun at h
  cases hready : s₁.readyList with
  | nil =>
    cases hidle : s₁.idleThread with
    | none => rw [← hs, hidle]
    | some t =>
      simp only [hready, hidle] at h
      split at h <;> cases h
  | cons t rest =>
    simp only [hready] at h
    split at h <;> cases h

theorem Sched.threadCurrent_bind_error {f : Nat → Except Panic Sched}
    (h : (s.threadCurrent >>= f) = .error .noThread) : f s.current = .error .noThread := by
  unfold threadCurrent at h
  split at h
  · exact h
  · cases h

theorem Sched.semaDown_noThread {k : Nat} (h : s.semaDown k = .error .noThread) :
    s.idleThread = none := by
  unfold semaDown at h
  split at h
  · exact schedule_noThread (threadCurrent_bind_error (threadCurrent_bind_error h)) rfl
  · cases h

theorem Sched.threadYield_noThread (h : s.threadYield = .error .noThread) :
    s.idleThread = none := by
  have h := threadCurrent_bind_error h
  split at h
  all_goals exact schedule_noThread h rfl

theorem Sched.exec_noThread {op : SchedOp} (h : s.exec op = .error .noThread) :
    s.idleThread = none := by
  cases op with
  | block | exit => exact schedule_noThread (threadCurrent_bind_error h) rfl
  | unblock t =>
    simp only [exec, threadUnblock] at h
    split at h <;> cases h
  | yield => exact threadYield_noThread h
  | preempt => exact threadYield_noThread h
  | down k => exact semaDown_noThread h
  | up k =>
    simp only [exec, semaUp, threadUnblock] at h
    split at h
    · cases h
    · split at h <;> cases h
  | resume =>
    cases hk : s.inDown s.current with
    | some k =>
      simp only [exec, hk] at h
      exact semaDown_noThread h
    | none => simp [exec, hk] at h
  | _ => cases h

end Idle

/-- **There is always a thread to switch to.** Once the idle thread has started no assertion fails:
every call that is possible and rightful succeeds, in every state that calls lead to. -/
theorem calls_succeed {main : Nat} {v : Nat → Nat} {ops : List SchedOp} {s : Sched}
    (h : SchedRuns (Sched.init main v) ops s) (hidle : s.idleThread ≠ none) {op : SchedOp}
    (hen : s.enabled op = true) (hright : s.rightful op = true) : ∃ s', s.step op = some s' := by
  have hq : s.Queues (some s.current) := (Sched.Queues.init main v).runs h
  cases hex : s.exec op with
  | ok s' => exact ⟨s', Sched.step_eq_some.mpr ⟨hen, hex⟩⟩
  | error p =>
    rw [(hq.exec op hen hright).2 p hex] at hex
    exact absurd (Sched.exec_noThread hex) hidle

/-- The idle thread has started, and no other thread is ready. -/
def alone : Sched :=
  [.create 1, .unblock 1, .down 0, .becomeIdle, .up 0, .block, .resume].foldl (after Sched.step)
    (Sched.init 0 fun _ => 0)

theorem calls_succeed_alone : ∃ s', alone.step (.down 0) = some s' :=
  calls_succeed (runs_of_allows Sched.rightful (fun _ _ h => h) (by decide +kernel))
    (by decide +kernel) (by decide +kernel) rfl

end Pintos
