import Pintos.Threads.Synch

/-!
# Condition variables (`threads/synch.c`)

Any number of threads use `cond_wait`, `cond_signal` and `cond_broadcast` on one condition with
one lock. A waiter is named by its thread: a thread is in one `cond_wait` at a time, and `own t`
is the semaphore on its stack. The rest of the system goes on as in `Locks`, of which every step
here is a step or a change of the condition's own list.

`clock` counts the steps. `enqueuedAt` and `chosen` are history: when a thread last put itself on
the list, and when the call that took it off was issued.
-/

namespace Pintos

open Lib Function List Option Sched

/-- The lock of the condition, and the semaphore each waiter sleeps on. -/
structure CondLayout where
  lock : Nat
  own : Nat → Nat
  owner : Nat → Option Nat
  owner_own : ∀ t, owner (own t) = some t
  owner_lock : owner lock = none

open CondLayout

namespace CondLayout

variable (L : CondLayout)

def isLock (k : Nat) : Bool := k == L.lock

/-- The semaphore is on the stack of a waiter. -/
def isOwn (k : Nat) : Bool := (L.owner k).isSome

theorem own_injective {t t' : Nat} (h : L.own t = L.own t') : t = t' := by
  have := L.owner_own t
  rw [h, L.owner_own t'] at this
  exact (some.inj this).symm

theorem own_ne_lock (t : Nat) : L.own t ≠ L.lock := by
  intro h
  have := L.owner_own t
  rw [h, L.owner_lock] at this
  cases this

end CondLayout

/-- Where a thread is in the functions of the condition. -/
inductive CondPc
  | out
  /-- `cond_wait`, on the list, before and during `lock_release`. -/
  | enqueued
  /-- Before `sema_down (&waiter.semaphore)`. -/
  | released
  /-- In that `sema_down`. -/
  | sleeping
  /-- Behind it, before and during `lock_acquire`. -/
  | woken
  /-- At the test of the list in a `cond_signal`, or in a `cond_broadcast` if `all`. The call was
  issued at time `issued`, when the list was `seen`. -/
  | choosing (issued : Nat) (all : Bool) (seen : List Nat)
  /-- The waiter `t` is off the list, its `sema_up` comes next. -/
  | upping (t issued : Nat) (all : Bool) (seen : List Nat)
deriving DecidableEq

/-- In `cond_wait`, before its semaphore let the thread through. -/
def CondPc.waiting : CondPc → Bool
  | .enqueued => true
  | .released => true
  | .sleeping => true
  | _ => false

/-- When the `cond_signal` or `cond_broadcast` was issued that the thread is in. -/
def CondPc.issued : CondPc → Option Nat
  | .choosing i _ _ => some i
  | .upping _ i _ _ => some i
  | _ => none

structure Monitor where
  locks : Locks
  waiters : List Nat
  pc : Nat → CondPc
  clock : Nat
  enqueuedAt : Nat → Nat
  chosen : Nat → Option Nat

open Monitor

inductive CondOp
  /-- A step of a lock or of the scheduler, those inside `cond_wait` included. -/
  | lock (op : LockOp)
  /-- `cond_wait` up to its `list_push_back`. -/
  | wait
  | sleep
  | wake
  | signal
  | broadcast
  | choose
  | signalUp
deriving DecidableEq

namespace Monitor

variable (L : CondLayout) (m : Monitor)

def current : Nat := m.locks.sched.current

/-- The current thread is where it can call a function: it holds the lock and is in no other. -/
def inMonitor : Bool :=
  m.locks.holder L.lock == some m.current && m.locks.pc m.current == .out &&
    (m.locks.sched.inDown m.current).isNone

/-- The steps of locks a thread may take where it is. -/
def lockOk : LockOp → Bool
  | .sched op => m.locks.sched.foreign L.isOwn op
  | .acquire _ => m.pc m.current == .out || m.pc m.current == .woken
  | .tryAcquire _ => m.pc m.current == .out
  | .release _ => m.pc m.current == .out || m.pc m.current == .enqueued
  | _ => true

/-- Where a step of a lock leaves the current thread: `cond_wait` goes on behind `lock_release`,
and returns behind `lock_acquire`. -/
def pcAfter (op : LockOp) : CondPc :=
  match op, m.pc m.current with
  | .releaseUp, .enqueued => .released
  | .setHolder, .woken => .out
  | _, pc => pc

def setPc (pc : CondPc) : Monitor :=
  { m with clock := m.clock + 1, pc := update m.pc m.current pc }

def setSched (sched : Sched) : Monitor := { m with locks := { m.locks with sched := sched } }

/-- A step of the current thread, or an interrupt. -/
def step : CondOp → Option Monitor
  | .lock op =>
    if m.lockOk L op then
      (m.locks.step L.isLock op).map fun locks =>
        { m.setPc (m.pcAfter op) with locks := locks }
    else none
  | .wait =>
    if m.inMonitor L && m.pc m.current == .out then
      some { (m.setPc .enqueued).setSched (m.locks.sched.setSema (L.own m.current) ⟨0, []⟩) with
        waiters := m.waiters ++ [m.current]
        enqueuedAt := update m.enqueuedAt m.current m.clock
        chosen := update m.chosen m.current none }
    else none
  | .sleep =>
    if m.pc m.current = .released then
      (m.locks.sched.step (.down (L.own m.current))).map fun sched =>
        (m.setPc (if 0 < (m.locks.sched.sema (L.own m.current)).value then .woken
          else .sleeping)).setSched sched
    else none
  | .wake =>
    if m.pc m.current = .sleeping ∧
        m.locks.sched.inDown m.current = some (L.own m.current) then
      (m.locks.sched.step .resume).map fun sched =>
        (m.setPc (if 0 < (m.locks.sched.sema (L.own m.current)).value then .woken
          else .sleeping)).setSched sched
    else none
  | .signal =>
    if m.inMonitor L && m.pc m.current == .out then
      some (m.setPc (.choosing m.clock false m.waiters))
    else none
  | .broadcast =>
    if m.inMonitor L && m.pc m.current == .out then
      some (m.setPc (.choosing m.clock true m.waiters))
    else none
  | .choose =>
    match m.pc m.current, m.waiters with
    | .choosing _ _ _, [] => some (m.setPc .out)
    | .choosing i all seen, t :: rest =>
      some { m.setPc (.upping t i all seen) with
        waiters := rest
        chosen := update m.chosen t (some i) }
    | _, _ => none
  | .signalUp =>
    match m.pc m.current with
    | .upping t i all seen =>
      (m.locks.sched.step (.up (L.own t))).map fun sched =>
        (m.setPc (if all then .choosing i all seen else .out)).setSched sched
    | _ => none

def init (main : Nat) (v : Nat → Nat) : Monitor where
  locks := Locks.init L.isLock main v
  waiters := []
  pc := fun _ => .out
  clock := 0
  enqueuedAt := fun _ => 0
  chosen := fun _ => none

end Monitor

/-! ## What a step of a lock leaves alone -/

section Frame

variable {isLock isOwn : Nat → Bool} {s s' : Locks} {op : LockOp}

theorem Locks.afterDown_pc {l t : Nat} {sched : Sched} (ht : t ≠ s.sched.current) :
    (s.afterDown l sched).pc t = s.pc t := by
  unfold Locks.afterDown
  split
  · exact update_of_ne ht _ _
  · exact update_of_ne ht _ _

theorem Locks.afterDown_holder {l : Nat} {sched : Sched} :
    (s.afterDown l sched).holder = s.holder := by
  unfold Locks.afterDown
  split <;> rfl

theorem Locks.afterDown_sched {l : Nat} {sched : Sched} : (s.afterDown l sched).sched = sched := by
  unfold Locks.afterDown
  split <;> rfl

/-- Only the current thread moves, and the holder changes at `setHolder` and `release` only. -/
theorem Locks.step_frame (h : s.step isLock op = some s') :
    (∀ t, t ≠ s.sched.current → s'.pc t = s.pc t) ∧
      ((∃ l, op = .setHolder ∧ s.pc s.sched.current = .acquired l ∧
          s'.holder = update s.holder l (some s.sched.current)) ∨
        (∃ l, op = .release l ∧ isLock l = true ∧ s.holder l = some s.sched.current ∧
          s'.holder = update s.holder l none) ∨
        (s'.holder = s.holder ∧ (s.pc s.sched.current = .out → s'.pc s.sched.current = .out ∨
          (∃ l, op = .acquire l) ∨ ∃ l, op = .tryAcquire l))) := by
  cases Locks.trans_of_step h with
  | sched _ _ | busy _ => exact ⟨fun _ _ => rfl, .inr (.inr ⟨rfl, fun hpc => .inl hpc⟩)⟩
  | down _ _ _ _ hop =>
    exact ⟨fun t ht => Locks.afterDown_pc ht,
      .inr (.inr ⟨Locks.afterDown_holder, fun hpc => .inr (hop hpc)⟩)⟩
  | setHolder hpc => exact ⟨fun t ht => update_of_ne ht _ _, .inl ⟨_, rfl, hpc, rfl⟩⟩
  | release hl hholder =>
    exact ⟨fun t ht => update_of_ne ht _ _, .inr (.inl ⟨_, rfl, hl, hholder, rfl⟩)⟩
  | releaseUp hpc _ =>
    refine ⟨fun t ht => update_of_ne ht _ _, .inr (.inr ⟨rfl, fun hout => ?_⟩)⟩
    rw [hpc] at hout
    cases hout

/-- A step that has nothing to do with the semaphores of waiters keeps their values. -/
theorem Locks.step_own {k : Nat} (hinv : LockInv isLock s) (hk : isOwn k = true)
    (hl : isLock k = false)
    (hown : ∀ o, op = .sched o → s.sched.foreign isOwn o = true) (h : s.step isLock op = some s') :
    (s'.sched.sema k).value = (s.sched.sema k).value := by
  -- an operation of a lock ups or downs the lock
  have hlock : ∀ {o sched}, s.sched.step o = some sched → (∀ j, o = .up j → isLock j = true) →
      (∀ j, s.sched.takes o j = true → isLock j = true) →
      (sched.sema k).value = (s.sched.sema k).value := by
    intro o sched hs hup htake
    obtain ⟨hop, -, -⟩ | ⟨-, ht, -⟩ | ⟨-, -, hv⟩ := step_value hs k
    · rw [hup k hop] at hl
      cases hl
    · rw [htake k ht] at hl
      cases hl
    · exact hv
  cases Locks.trans_of_step h with
  | sched _ hs => exact LockInv.foreign_value (hown _ rfl) hs hk
  | down hl' hs hup htakes _ =>
    rw [Locks.afterDown_sched]
    refine hlock hs (fun j hj => absurd hj (hup j)) fun j hj => ?_
    rw [((htakes j).mp hj).1]
    exact hl'
  | busy hval => exact hval k
  | setHolder _ => rfl
  | release _ _ => rfl
  | releaseUp hpc hs =>
    refine hlock hs (fun j hj => ?_) nofun
    cases hj
    exact (hinv.releasing _ _ hpc).1

end Frame

/-! ## The invariant -/

structure CondInv (L : CondLayout) (m : Monitor) : Prop where
  lockInv : LockInv L.isLock m.locks
  queued_iff : ∀ t, t ∈ m.waiters ↔ (m.pc t).waiting = true ∧ m.chosen t = none
  unsignalled : ∀ t, (m.pc t).waiting = true → m.chosen t = none →
    (m.locks.sched.sema (L.own t)).value = 0
  later : ∀ t i, m.chosen t = some i → m.enqueuedAt t < i
  woken : ∀ t, m.pc t = .woken → m.chosen t ≠ none
  past : ∀ t ∈ m.waiters, m.enqueuedAt t < m.clock
  ordered : m.waiters.Pairwise fun a b => m.enqueuedAt a < m.enqueuedAt b
  critical : ∀ c i, (m.pc c).issued = some i → m.locks.holder L.lock = some c ∧
    m.locks.pc c = .out ∧ ∀ t ∈ m.waiters, m.enqueuedAt t < i
  choosing : ∀ c i all seen, m.pc c = .choosing i all seen →
    (∀ t ∈ seen, t ∈ m.waiters ∨ m.chosen t = some i) ∧ (all = false → seen = m.waiters)
  upping : ∀ c t i all seen, m.pc c = .upping t i all seen → m.chosen t = some i ∧
    (∀ x ∈ seen, x ∈ m.waiters ∨ m.chosen x = some i) ∧ (all = false → seen = t :: m.waiters) ∧
    ∀ x ∈ m.waiters, m.enqueuedAt t < m.enqueuedAt x

namespace CondInv

variable {L : CondLayout} {m m' : Monitor}

theorem init (main : Nat) (v : Nat → Nat) : CondInv L (Monitor.init L main v) :=
  ⟨LockInv.init main v, by simp [Monitor.init, CondPc.waiting], by simp [Monitor.init, CondPc.waiting],
    nofun, nofun, nofun, List.Pairwise.nil, nofun, nofun, nofun⟩

theorem pcAfter_spec (m : Monitor) (op : LockOp) :
    (m.pcAfter op).waiting = (m.pc m.current).waiting ∧
      (m.pcAfter op).issued = (m.pc m.current).issued ∧
      (m.pcAfter op = .woken → m.pc m.current = .woken) ∧
      (∀ i all seen, m.pcAfter op = .choosing i all seen → m.pc m.current = .choosing i all seen) ∧
      ∀ t i all seen, m.pcAfter op = .upping t i all seen → m.pc m.current = .upping t i all seen := by
  unfold pcAfter
  split
  · next hpc => simp [hpc, CondPc.waiting, CondPc.issued]
  · next hpc => simp [hpc, CondPc.waiting, CondPc.issued]
  · exact ⟨rfl, rfl, id, fun _ _ _ => id, fun _ _ _ _ => id⟩

variable {all : Bool} {i t : Nat} {locks : Locks} {seen : List Nat}

section

variable (h : CondInv L m)
include h

theorem critical_eq {c : Nat} (hc : (m.pc c).issued = some i) (ht : m.locks.holder L.lock = some t) :
    c = t := by
  have := (h.critical c i hc).1
  rw [ht] at this
  exact (some.inj this).symm

theorem no_critical (ht : m.locks.holder L.lock = some t) (hout : (m.pc t).issued = none) (c : Nat) :
    (m.pc c).issued = none := by
  cases hi : (m.pc c).issued with
  | none => rfl
  | some i =>
    rw [h.critical_eq hi ht, hout] at hi
    cases hi

theorem move {new : CondPc} (hlock : LockInv L.isLock locks)
    (hval : ∀ t, (update m.pc m.current new t).waiting = true → m.chosen t = none →
      (locks.sched.sema (L.own t)).value ≤ (m.locks.sched.sema (L.own t)).value)
    (hwait : new.waiting = true → (m.pc m.current).waiting = true)
    (hleave : new.waiting = false → (m.pc m.current).waiting = true → m.chosen m.current ≠ none)
    (hwoken : new = .woken → m.chosen m.current ≠ none)
    (hcrit : ∀ c i, (update m.pc m.current new c).issued = some i →
      locks.holder L.lock = some c ∧ locks.pc c = .out ∧ ∀ t ∈ m.waiters, m.enqueuedAt t < i)
    (hch : ∀ i all seen, new = .choosing i all seen →
      (∀ t ∈ seen, t ∈ m.waiters ∨ m.chosen t = some i) ∧ (all = false → seen = m.waiters))
    (hup : ∀ t i all seen, new = .upping t i all seen → m.pc m.current = new) :
    CondInv L { m.setPc new with locks := locks } := by
  have hpc : ∀ t, (t = m.current ∧ update m.pc m.current new t = new) ∨
      update m.pc m.current new t = m.pc t := by
    intro t
    by_cases ht : t = m.current
    · subst ht
      exact .inl ⟨rfl, update_self _ _ _⟩
    · exact .inr (update_of_ne ht _ _)
  refine ⟨hlock, fun t => (h.queued_iff t).trans ?_, fun t ht hnone => ?_, h.later, fun t ht => ?_,
    fun t ht => Nat.lt_succ_of_lt (h.past t ht), h.ordered, hcrit, fun c i all seen hc => ?_,
    fun c t i all seen hc => ?_⟩
  · show _ ↔ (update m.pc m.current new t).waiting = true ∧ m.chosen t = none
    rcases hpc t with ⟨rfl, heq⟩ | heq
    · rw [heq]
      constructor
      · rintro ⟨hw, hnone⟩
        refine ⟨?_, hnone⟩
        by_contra hnw
        exact hleave (by simpa using hnw) hw hnone
      · exact fun ⟨hw, hnone⟩ => ⟨hwait hw, hnone⟩
    · rw [heq]
  · have hw : (m.pc t).waiting = true := by
      rcases hpc t with ⟨rfl, heq⟩ | heq
      · exact hwait (by rw [← heq]; exact ht)
      · rw [← heq]
        exact ht
    have hz := h.unsignalled t hw hnone
    have := hval t ht hnone
    show (locks.sched.sema (L.own t)).value = 0
    omega
  · rcases hpc t with ⟨rfl, heq⟩ | heq
    · exact hwoken (heq.symm.trans ht)
    · exact h.woken t (heq.symm.trans ht)
  · rcases hpc c with ⟨rfl, heq⟩ | heq
    · exact hch i all seen (heq.symm.trans hc)
    · exact h.choosing c i all seen (heq.symm.trans hc)
  · rcases hpc c with ⟨rfl, heq⟩ | heq
    · have hnew : new = .upping t i all seen := heq.symm.trans hc
      exact h.upping _ t i all seen ((hup t i all seen hnew).trans hnew)
    · exact h.upping c t i all seen (heq.symm.trans hc)

section

variable {op : LockOp} (hok : m.lockOk L op = true) (hs : m.locks.step L.isLock op = some locks)
include hok hs

theorem critical_lock {c : Nat} (hc : (m.pc c).issued = some i) :
    locks.holder L.lock = some c ∧ locks.pc c = .out := by
  obtain ⟨hheld, hout, -⟩ := h.critical c i hc
  have hin := h.lockInv.holder_inside _ _ hheld
  obtain ⟨hothers, hcase⟩ := Locks.step_frame hs
  obtain ⟨l, -, hacq, -⟩ | ⟨l, rfl, hl, hrel, -⟩ | ⟨hsame, hstay⟩ := hcase
  · -- a thread that just got the lock would be a second one inside
    obtain ⟨hl, hin'⟩ := h.lockInv.acquired _ l hacq
    have hl' : l = L.lock := by simpa [isLock] using hl
    rw [hl'] at hin'
    have heq : c = m.locks.sched.current :=
      h.lockInv.unique (by simp [isLock]) hin hin'
    rw [heq, hacq] at hout
    cases hout
  · have hl' : l = L.lock := by simpa [isLock] using hl
    rw [hl', hheld] at hrel
    have hcur : m.current = c := (some.inj hrel).symm
    simp only [lockOk, hcur, Bool.or_eq_true, beq_iff_eq] at hok
    rcases hok with hok | hok <;> rw [hok] at hc <;> cases hc
  · refine ⟨by rw [hsame]; exact hheld, ?_⟩
    by_cases hcur : c = m.locks.sched.current
    · rw [hcur] at hout ⊢
      have hcur' : m.current = c := hcur.symm
      rcases hstay hout with hgood | ⟨l, rfl⟩ | ⟨l, rfl⟩
      · exact hgood
      · simp only [lockOk, hcur', Bool.or_eq_true, beq_iff_eq] at hok
        rcases hok with hok | hok <;> rw [hok] at hc <;> cases hc
      · simp only [lockOk, hcur', beq_iff_eq] at hok
        rw [hok] at hc
        cases hc
    · rw [hothers c hcur]
      exact hout

theorem lock : CondInv L { m.setPc (m.pcAfter op) with locks := locks } := by
  obtain ⟨hw, hi, hwoken, hch, hup⟩ := pcAfter_spec m op
  refine h.move (h.lockInv.step hs) (fun t _ _ => ?_) (fun hnew => hw.symm.trans hnew)
    (fun hnew hold => ?_) (fun hnew => h.woken _ (hwoken hnew)) (fun c i hc => ?_)
    (fun i all seen hnew => h.choosing _ i all seen (hch i all seen hnew))
    (fun t i all seen hnew => (hup t i all seen hnew).trans hnew.symm)
  · have hown : ∀ o, op = .sched o → m.locks.sched.foreign L.isOwn o = true := by
      rintro o rfl
      exact hok
    have hisOwn : L.isOwn (L.own t) = true := by rw [isOwn, L.owner_own]; rfl
    have hisLock : L.isLock (L.own t) = false := beq_eq_false_iff_ne.mpr (L.own_ne_lock t)
    exact Nat.le_of_eq (Locks.step_own h.lockInv hisOwn hisLock hown hs)
  · rw [← hw, hnew] at hold
    cases hold
  · have hc' : (m.pc c).issued = some i := by
      rw [update_apply] at hc
      split at hc
      · next heq => rw [heq, ← hi, hc]
      · exact hc
    obtain ⟨hheld, hout⟩ := h.critical_lock hok hs hc'
    exact ⟨hheld, hout, (h.critical c i hc').2.2⟩

end

end

theorem inMonitor_iff {L : CondLayout} {m : Monitor} (h : m.inMonitor L = true) :
    m.locks.holder L.lock = some m.current ∧ m.locks.pc m.current = .out := by
  simp only [inMonitor, Bool.and_eq_true, beq_iff_eq] at h
  exact h.1

theorem wait (h : CondInv L m) (hin : m.inMonitor L = true) (hout : m.pc m.current = .out) :
    CondInv L { (m.setPc .enqueued).setSched
        (m.locks.sched.setSema (L.own m.current) ⟨0, []⟩) with
      waiters := m.waiters ++ [m.current]
      enqueuedAt := update m.enqueuedAt m.current m.clock
      chosen := update m.chosen m.current none } := by
  have hheld := (inMonitor_iff hin).1
  have hfree : ∀ c, (m.pc c).issued = none := h.no_critical hheld (by rw [hout]; rfl)
  have hnot : m.current ∉ m.waiters := by
    rw [h.queued_iff, hout]
    simp [CondPc.waiting]
  have hissued : ∀ c, (update m.pc m.current CondPc.enqueued c).issued = none := by
    intro c
    rw [update_apply]
    split
    · rfl
    · exact hfree c
  have henq : ∀ t ∈ m.waiters,
      update m.enqueuedAt m.current m.clock t = m.enqueuedAt t := fun t ht =>
    update_of_ne (fun heq => hnot (by rwa [heq] at ht)) _ _
  refine ⟨?_, fun t => ?_, fun t ht hnone => ?_, fun t i ht => ?_, fun t ht => ?_, fun t ht => ?_, ?_,
    fun c i hc => ?_, fun c i all seen hc => ?_, fun c t i all seen hc => ?_⟩
  · refine h.lockInv.ofSched fun l hl => ?_
    have hl' : l = L.lock := by simpa [isLock] using hl
    show (update m.locks.sched.sema _ _ l).value = _
    rw [update_of_ne (by rw [hl']; exact (L.own_ne_lock _).symm)]
  · show t ∈ m.waiters ++ [m.current] ↔ (update m.pc m.current .enqueued t).waiting = true ∧
      update m.chosen m.current none t = none
    rw [mem_append, mem_singleton, update_apply, update_apply]
    by_cases ht : t = m.current
    · simp [ht, CondPc.waiting]
    · simp only [ht, if_false, or_false]
      exact h.queued_iff t
  · show (update m.locks.sched.sema (L.own m.current) ⟨0, []⟩ (L.own t)).value = 0
    by_cases heq : t = m.current
    · rw [heq, update_self]
    · rw [update_of_ne fun ho => heq (L.own_injective ho)]
      have hpc : (update m.pc m.current CondPc.enqueued t).waiting = true := ht
      have hch : update m.chosen m.current none t = none := hnone
      rw [update_of_ne heq] at hpc hch
      exact h.unsignalled t hpc hch
  · have ht : update m.chosen m.current none t = some i := ht
    show update m.enqueuedAt m.current m.clock t < i
    rw [update_apply] at ht ⊢
    split at ht
    · cases ht
    · next hne =>
      rw [if_neg hne]
      exact h.later t i ht
  · have ht : update m.pc m.current CondPc.enqueued t = .woken := ht
    show update m.chosen m.current none t ≠ none
    rw [update_apply] at ht ⊢
    split at ht
    · cases ht
    · next hne =>
      rw [if_neg hne]
      exact h.woken t ht
  · show update m.enqueuedAt m.current m.clock t < m.clock + 1
    rcases mem_append.mp ht with ht | ht
    · rw [henq t ht]
      exact Nat.lt_succ_of_lt (h.past t ht)
    · rw [mem_singleton.mp ht, update_self]
      exact Nat.lt_succ_self _
  · show (m.waiters ++ [m.current]).Pairwise _
    rw [pairwise_append]
    refine ⟨h.ordered.imp_of_mem fun {a b} ha hb hab => ?_, pairwise_singleton _ _,
      fun a ha b hb => ?_⟩
    · show update m.enqueuedAt m.current m.clock a <
        update m.enqueuedAt m.current m.clock b
      rw [henq a ha, henq b hb]
      exact hab
    · show update m.enqueuedAt m.current m.clock a <
        update m.enqueuedAt m.current m.clock b
      rw [mem_singleton.mp hb, henq a ha, update_self]
      exact h.past a ha
  · have := hissued c
    rw [show (update m.pc m.current CondPc.enqueued c).issued = some i from hc] at this
    cases this
  · have hc : update m.pc m.current CondPc.enqueued c = .choosing i all seen := hc
    have := hissued c
    rw [hc] at this
    cases this
  · have hc : update m.pc m.current CondPc.enqueued c = .upping t i all seen := hc
    have := hissued c
    rw [hc] at this
    cases this

theorem round {op : SchedOp} {sched : Sched} (h : CondInv L m)
    (hpc : (m.pc m.current).waiting = true) (hs : m.locks.sched.step op = some sched)
    (hup : ∀ j, op ≠ .up j) (htake : ∀ j, m.locks.sched.takes op j = true → j = L.own m.current) :
    CondInv L ((m.setPc (if 0 < (m.locks.sched.sema (L.own m.current)).value then .woken
      else .sleeping)).setSched sched) := by
  have hle : ∀ j, (sched.sema j).value ≤ (m.locks.sched.sema j).value := by
    intro j
    obtain ⟨hop, -, -⟩ | ⟨-, -, hv⟩ | ⟨-, -, hv⟩ := step_value hs j
    · exact absurd hop (hup j)
    · omega
    · omega
  have hlock : LockInv L.isLock { m.locks with sched := sched } := by
    refine h.lockInv.ofSched fun l hl => ?_
    have hl' : l = L.lock := by simpa [isLock] using hl
    obtain ⟨hop, -, -⟩ | ⟨-, ht, -⟩ | ⟨-, -, hv⟩ := step_value hs l
    · exact absurd hop (hup l)
    · exact absurd ((htake l ht).symm.trans hl') (L.own_ne_lock _)
    · exact hv
  have hcrit : ∀ {new : CondPc}, new.issued = none → ∀ c i,
      (update m.pc m.current new c).issued = some i →
      m.locks.holder L.lock = some c ∧ m.locks.pc c = .out ∧ ∀ t ∈ m.waiters, m.enqueuedAt t < i := by
    intro new hnew c i hc
    rw [update_apply] at hc
    split at hc
    · rw [hnew] at hc
      cases hc
    · exact h.critical c i hc
  split
  · next hpos =>
    have hchosen : m.chosen m.current ≠ none := fun hnone => by
      have := h.unsignalled _ hpc hnone
      omega
    exact h.move hlock (fun t _ _ => hle _) nofun (fun _ _ => hchosen) (fun _ => hchosen)
      (hcrit rfl) nofun nofun
  · exact h.move hlock (fun t _ _ => hle _) (fun _ => hpc) nofun nofun (hcrit rfl) nofun nofun

theorem issue (all : Bool) (h : CondInv L m) (hin : m.inMonitor L = true)
    (hout : m.pc m.current = .out) :
    CondInv L (m.setPc (.choosing m.clock all m.waiters)) := by
  obtain ⟨hheld, hpc⟩ := inMonitor_iff hin
  have hfree : ∀ c, (m.pc c).issued = none := h.no_critical hheld (by rw [hout]; rfl)
  refine h.move h.lockInv (fun t _ _ => Nat.le_refl _) nofun (fun _ hold => ?_) nofun
    (fun c i hc => ?_) (fun i all' seen hnew => ?_) nofun
  · rw [hout] at hold
    cases hold
  · rw [update_apply] at hc
    split at hc
    · next heq =>
      cases hc
      rw [heq]
      exact ⟨hheld, hpc, h.past⟩
    · rw [hfree c] at hc
      cases hc
  · cases hnew
    exact ⟨fun t ht => .inl ht, fun _ => rfl⟩

theorem done (h : CondInv L m)
    (hpc : m.pc m.current = .choosing i all seen) : CondInv L (m.setPc .out) := by
  refine h.move h.lockInv (fun t _ _ => Nat.le_refl _) nofun (fun _ hold => ?_) nofun
    (fun c j hc => ?_) nofun nofun
  · rw [hpc] at hold
    cases hold
  · rw [update_apply] at hc
    split at hc
    · cases hc
    · exact h.critical c j hc

theorem pop {rest : List Nat} (h : CondInv L m)
    (hpc : m.pc m.current = .choosing i all seen) (hw : m.waiters = t :: rest) :
    CondInv L { m.setPc (.upping t i all seen) with
      waiters := rest
      chosen := update m.chosen t (some i) } := by
  have hi : (m.pc m.current).issued = some i := by rw [hpc]; rfl
  obtain ⟨hheld, hout, hpast⟩ := h.critical _ i hi
  obtain ⟨hseen, hone⟩ := h.choosing _ i all seen hpc
  have hmem : t ∈ m.waiters := by rw [hw]; exact mem_cons_self
  have htpc := ((h.queued_iff t).mp hmem).1
  have hne : t ≠ m.current := by
    rintro rfl
    rw [hpc] at htpc
    cases htpc
  have hord := h.ordered
  rw [hw, pairwise_cons] at hord
  have hnot : t ∉ rest := fun hm => Nat.lt_irrefl _ (hord.1 t hm)
  have hother : ∀ x, update m.chosen t (some i) x =
      if x = t then some i else m.chosen x := fun x => update_apply _ _ _ _
  refine ⟨h.lockInv, fun x => ?_, fun x hx hnone => ?_, fun x j hx => ?_, fun x hx => ?_,
    fun x hx => ?_, hord.2, fun c j hc => ?_, fun c j all' seen' hc => ?_,
    fun c x j all' seen' hc => ?_⟩
  · show x ∈ rest ↔ (update m.pc m.current (CondPc.upping t i all seen) x).waiting = true ∧
      update m.chosen t (some i) x = none
    have hq := h.queued_iff x
    rw [hw, mem_cons] at hq
    rw [hother]
    by_cases hx : x = t
    · simp [hx, hnot]
    · simp only [hx, false_or, if_false] at hq ⊢
      by_cases hxc : x = m.current
      · subst hxc
        rw [update_self]
        rw [hpc] at hq
        exact hq
      · rw [update_of_ne hxc]
        exact hq
  · have hx : (update m.pc m.current (CondPc.upping t i all seen) x).waiting = true := hx
    have hnone : update m.chosen t (some i) x = none := hnone
    rw [hother] at hnone
    split at hnone
    · cases hnone
    · rw [update_apply] at hx
      split at hx
      · cases hx
      · exact h.unsignalled x hx hnone
  · have hx : update m.chosen t (some i) x = some j := hx
    rw [hother] at hx
    split at hx
    · next heq =>
      cases hx
      rw [heq]
      exact hpast t hmem
    · exact h.later x j hx
  · have hx : update m.pc m.current (CondPc.upping t i all seen) x = .woken := hx
    show update m.chosen t (some i) x ≠ none
    rw [update_apply] at hx
    split at hx
    · cases hx
    · rw [hother]
      split
      · nofun
      · exact h.woken x hx
  · exact Nat.lt_succ_of_lt (h.past x (by rw [hw]; exact mem_cons_of_mem _ hx))
  · have hc : (update m.pc m.current (CondPc.upping t i all seen) c).issued = some j := hc
    have hrest : ∀ x ∈ rest, m.enqueuedAt x < i := fun x hx =>
      hpast x (by rw [hw]; exact mem_cons_of_mem _ hx)
    rw [update_apply] at hc
    split at hc
    · next heq =>
      cases hc
      rw [heq]
      exact ⟨hheld, hout, hrest⟩
    · next hcne => exact absurd (h.critical_eq hc hheld) hcne
  · have hc : update m.pc m.current (CondPc.upping t i all seen) c =
      .choosing j all' seen' := hc
    rw [update_apply] at hc
    split at hc
    · cases hc
    · next hcne =>
      have hcj : (m.pc c).issued = some j := by rw [hc]; rfl
      exact absurd (h.critical_eq hcj hheld) hcne
  · have hc : update m.pc m.current (CondPc.upping t i all seen) c =
      .upping x j all' seen' := hc
    rw [update_apply] at hc
    split at hc
    · cases hc
      refine ⟨update_self _ _ _, fun y hy => ?_, fun hall => ?_, hord.1⟩
      · show y ∈ rest ∨ update m.chosen t (some i) y = some i
        rw [hother]
        by_cases hyt : y = t
        · exact .inr (if_pos hyt)
        · rw [if_neg hyt]
          refine (hseen y hy).imp (fun hmy => ?_) id
          rw [hw] at hmy
          exact (mem_cons.mp hmy).resolve_left hyt
      · rw [hone hall, hw]
    · next hcne =>
      have hcj : (m.pc c).issued = some j := by rw [hc]; rfl
      exact absurd (h.critical_eq hcj hheld) hcne

theorem signalUp {sched : Sched} (h : CondInv L m)
    (hpc : m.pc m.current = .upping t i all seen)
    (hs : m.locks.sched.step (.up (L.own t)) = some sched) :
    CondInv L ((m.setPc (if all then .choosing i all seen else .out)).setSched sched) := by
  have hi : (m.pc m.current).issued = some i := by rw [hpc]; rfl
  obtain ⟨hheld, hout, hpast⟩ := h.critical _ i hi
  obtain ⟨hchosen, hseen, -⟩ := h.upping _ t i all seen hpc
  have hsame : ∀ j, j ≠ L.own t → (sched.sema j).value = (m.locks.sched.sema j).value := by
    intro j hj
    obtain ⟨hop, -, -⟩ | ⟨-, ht, -⟩ | ⟨-, -, hv⟩ := step_value hs j
    · cases hop
      exact absurd rfl hj
    · cases ht
    · exact hv
  have hlock : LockInv L.isLock { m.locks with sched := sched } := by
    refine h.lockInv.ofSched fun l hl => hsame l ?_
    have hl' : l = L.lock := by simpa [isLock] using hl
    rw [hl']
    exact (L.own_ne_lock t).symm
  have hval : ∀ x, m.chosen x = none →
      (sched.sema (L.own x)).value ≤ (m.locks.sched.sema (L.own x)).value := by
    intro x hx
    refine Nat.le_of_eq (hsame _ fun heq => ?_)
    rw [L.own_injective heq, hchosen] at hx
    cases hx
  have hold : ∀ new : CondPc, new.waiting = false → (m.pc m.current).waiting = true →
      m.chosen m.current ≠ none := by
    intro _ _ hwait
    rw [hpc] at hwait
    cases hwait
  have hcrit : ∀ new : CondPc, (∀ j, new.issued = some j → j = i) → ∀ c j,
      (update m.pc m.current new c).issued = some j →
      m.locks.holder L.lock = some c ∧ m.locks.pc c = .out ∧ ∀ x ∈ m.waiters, m.enqueuedAt x < j := by
    intro new hnew c j hc
    rw [update_apply] at hc
    split at hc
    · next heq =>
      rw [hnew j hc, heq]
      exact ⟨hheld, hout, hpast⟩
    · exact h.critical c j hc
  cases all with
  | true =>
    refine h.move hlock (fun x _ hx => hval x hx) nofun (hold _) nofun
      (hcrit _ fun j hj => (some.inj hj).symm) (fun j all' seen' hnew => ?_) nofun
    cases hnew
    exact ⟨hseen, nofun⟩
  | false =>
    exact h.move hlock (fun x _ hx => hval x hx) nofun (hold _) nofun (hcrit _ nofun) nofun nofun

theorem step {op : CondOp} (h : CondInv L m) (hstep : m.step L op = some m') : CondInv L m' := by
  cases op with
  | lock op =>
    simp only [Monitor.step, ite_none_right_eq_some, map_eq_some_iff] at hstep
    obtain ⟨hok, locks, hs, rfl⟩ := hstep
    exact h.lock hok hs
  | wait =>
    simp only [Monitor.step, Bool.and_eq_true, beq_iff_eq, ite_none_right_eq_some] at hstep
    obtain ⟨hc, hstep⟩ := hstep
    cases hstep
    exact h.wait hc.1 hc.2
  | sleep =>
    simp only [Monitor.step, ite_none_right_eq_some, map_eq_some_iff] at hstep
    obtain ⟨hc, sched, hs, rfl⟩ := hstep
    refine h.round (by rw [hc]; rfl) hs (by simp) fun j hj => ?_
    simp only [takes, Bool.and_eq_true, beq_iff_eq] at hj
    exact hj.1.symm
  | wake =>
    simp only [Monitor.step, ite_none_right_eq_some, map_eq_some_iff] at hstep
    obtain ⟨hc, sched, hs, rfl⟩ := hstep
    refine h.round (by rw [hc.1]; rfl) hs (by simp) fun j hj => ?_
    have hdown : m.locks.sched.inDown m.locks.sched.current = some (L.own m.current) := hc.2
    simp only [takes, Bool.and_eq_true, beq_iff_eq, hdown, some.injEq] at hj
    exact hj.1.symm
  | signal =>
    simp only [Monitor.step, Bool.and_eq_true, beq_iff_eq, ite_none_right_eq_some] at hstep
    obtain ⟨hc, hstep⟩ := hstep
    cases hstep
    exact h.issue false hc.1 hc.2
  | broadcast =>
    simp only [Monitor.step, Bool.and_eq_true, beq_iff_eq, ite_none_right_eq_some] at hstep
    obtain ⟨hc, hstep⟩ := hstep
    cases hstep
    exact h.issue true hc.1 hc.2
  | choose =>
    simp only [Monitor.step] at hstep
    split at hstep
    · next i all seen hpc hw =>
      cases hstep
      exact h.done hpc
    · next i all seen t rest hpc hw =>
      cases hstep
      exact h.pop hpc hw
    · cases hstep
  | signalUp =>
    simp only [Monitor.step] at hstep
    split at hstep
    · next t i all seen hpc =>
      obtain ⟨sched, hs, rfl⟩ := map_eq_some_iff.mp hstep
      exact h.signalUp hpc hs
    · cases hstep

end CondInv

/-- The runs of threads that use the condition. -/
abbrev CondRuns (L : CondLayout) (m : Monitor) (ops : List CondOp) (m' : Monitor) : Prop :=
  Runs (fun m op m' => Monitor.step L m op = some m') (fun _ _ => True) m ops m'

/-- A step that takes a thread out of `cond_wait` gives it the lock. -/
theorem Monitor.step_returns {L : CondLayout} {m m' : Monitor} {op : CondOp} {t : Nat}
    (hinv : CondInv L m) (hstep : m.step L op = some m')
    (hin : (m.pc t).waiting = true ∨ m.pc t = .woken) (hout : m'.pc t = .out) :
    m.pc t = .woken ∧ m'.locks.holder L.lock = some t := by
  have hne : m.pc t ≠ .out := by
    rintro heq
    rw [heq] at hin
    rcases hin with hin | hin <;> cases hin
  -- only the current thread moves
  have hcur : ∀ new : CondPc, update m.pc m.current new t = .out →
      t = m.current ∧ new = .out := by
    intro new hnew
    rw [update_apply] at hnew
    split at hnew
    · next heq => exact ⟨heq, hnew⟩
    · exact absurd hnew hne
  cases op with
  | lock op =>
    simp only [step, ite_none_right_eq_some, map_eq_some_iff] at hstep
    obtain ⟨hok, locks, hs, rfl⟩ := hstep
    obtain ⟨rfl, hnew⟩ := hcur _ hout
    unfold pcAfter at hnew
    split at hnew
    · cases hnew
    · next hpc =>
      refine ⟨hpc, ?_⟩
      show locks.holder L.lock = some m.current
      simp only [Locks.step] at hs
      split at hs
      · next l hacq _ =>
        cases hs
        have hl := (hinv.lockInv.acquired _ l hacq).1
        have hl' : l = L.lock := by simpa [isLock] using hl
        rw [hl']
        exact update_self _ _ _
      · cases hs
    · exact absurd hnew hne
  | wait | signal | broadcast =>
    simp only [step, Bool.and_eq_true, beq_iff_eq, ite_none_right_eq_some] at hstep
    obtain ⟨-, hstep⟩ := hstep
    cases hstep
    cases (hcur _ hout).2
  | sleep | wake =>
    simp only [step, ite_none_right_eq_some, map_eq_some_iff] at hstep
    obtain ⟨-, sched, -, rfl⟩ := hstep
    have := (hcur _ hout).2
    split at this <;> cases this
  | choose =>
    simp only [step] at hstep
    split at hstep
    · next hpc _ =>
      cases hstep
      obtain ⟨rfl, -⟩ := hcur _ hout
      rw [hpc] at hin
      rcases hin with hin | hin <;> cases hin
    · next hpc _ =>
      cases hstep
      cases (hcur _ hout).2
    · cases hstep
  | signalUp =>
    simp only [step] at hstep
    split at hstep
    · next hpc =>
      obtain ⟨sched, -, rfl⟩ := map_eq_some_iff.mp hstep
      obtain ⟨rfl, -⟩ := hcur _ hout
      rw [hpc] at hin
      rcases hin with hin | hin <;> cases hin
    · cases hstep

/-- **Condition variables lose no signal.** In every run: a thread leaves `cond_wait` only after a
call that was issued later than it enqueued itself has chosen it, and holding the lock; a
`cond_signal` finds the list as it was when the call was issued, and if that was not empty it has
chosen one waiter, the first of those that were still waiting; a `cond_broadcast` that finds the
list empty has chosen every waiter that was on it when the call was issued. -/
theorem cond_no_lost_signal {L : CondLayout} {main : Nat} {v : Nat → Nat} {ops : List CondOp}
    {m : Monitor} (h : CondRuns L (Monitor.init L main v) ops m) :
    (∀ op m' t, m.step L op = some m' → (m.pc t).waiting = true ∨ m.pc t = .woken →
      m'.pc t = .out → (∃ i, m.chosen t = some i ∧ m.enqueuedAt t < i) ∧
        m'.locks.holder L.lock = some t) ∧
      (∀ c i seen, m.pc c = .choosing i false seen → seen = m.waiters) ∧
      (∀ c t i seen, m.pc c = .upping t i false seen → seen = t :: m.waiters ∧
        m.chosen t = some i ∧ ∀ x ∈ m.waiters, m.chosen x = none ∧ m.enqueuedAt t < m.enqueuedAt x) ∧
      ∀ c i seen, m.pc c = .choosing i true seen → m.waiters = [] →
        ∀ t ∈ seen, m.chosen t = some i := by
  have hinv : CondInv L m :=
    h.invariant (I := CondInv L) (fun hi _ hstep => hi.step hstep) (CondInv.init main v)
  refine ⟨fun op m' t hstep hin hout => ?_, fun c i seen hc => ?_, fun c t i seen hc => ?_,
    fun c i seen hc hempty t ht => ?_⟩
  · obtain ⟨hwoken, hheld⟩ := step_returns hinv hstep hin hout
    obtain ⟨i, hi⟩ := ne_none_iff_exists'.mp (hinv.woken t hwoken)
    exact ⟨⟨i, hi, hinv.later t i hi⟩, hheld⟩
  · exact (hinv.choosing c i false seen hc).2 rfl
  · obtain ⟨hchosen, -, hseen, hfirst⟩ := hinv.upping c t i false seen hc
    exact ⟨hseen rfl, hchosen, fun x hx => ⟨((hinv.queued_iff x).mp hx).2, hfirst x hx⟩⟩
  · have := (hinv.choosing c i true seen hc).1 t ht
    rw [hempty] at this
    exact this.resolve_left not_mem_nil

/-- Lock 0; the waiter of thread `t` sleeps on semaphore `t + 1`. -/
def plainLayout : CondLayout where
  lock := 0
  own := fun t => t + 1
  owner := fun k => match k with
    | 0 => none
    | t + 1 => some t
  owner_own := fun _ => rfl
  owner_lock := rfl

/-- Thread 0 waits, thread 1 signals, and thread 0 comes back with the lock. -/
def waitAndSignal : List CondOp :=
  [.lock (.sched (.create 1)), .lock (.sched (.unblock 1)),
    .lock (.acquire 0), .lock .setHolder, .wait, .lock (.release 0), .lock .releaseUp, .sleep,
    .lock (.acquire 0), .lock .setHolder, .signal, .choose, .signalUp,
    .lock (.release 0), .lock .releaseUp, .lock (.sched .yield),
    .wake, .lock (.acquire 0)]

/-- The state after `waitAndSignal`. -/
def beforeReturn : Monitor :=
  waitAndSignal.foldl (after (Monitor.step plainLayout)) (Monitor.init plainLayout 0 fun _ => 0)

/-- The state when `cond_wait` has returned. -/
def afterReturn : Monitor := after (Monitor.step plainLayout) beforeReturn (.lock .setHolder)

theorem beforeReturn_step : beforeReturn.step plainLayout (.lock .setHolder) = some afterReturn :=
  after_eq_some (by decide +kernel)

theorem cond_no_lost_signal_waitAndSignal :
    CondRuns plainLayout (Monitor.init plainLayout 0 fun _ => 0) waitAndSignal beforeReturn ∧
      beforeReturn.pc 0 = .woken ∧ afterReturn.pc 0 = .out ∧
      afterReturn.locks.holder 0 = some 0 := by
  have hruns : CondRuns plainLayout (init plainLayout 0 fun _ => 0) waitAndSignal
      beforeReturn := runs_of_allows (fun _ _ => true) (fun _ _ _ => trivial) (by decide +kernel)
  have hwoken : beforeReturn.pc 0 = .woken := by decide +kernel
  have hout : afterReturn.pc 0 = .out := by decide +kernel
  have hlock : plainLayout.lock = 0 := rfl
  have hheld := ((cond_no_lost_signal hruns).1 _ _ 0 beforeReturn_step (.inr hwoken) hout).2
  rw [hlock] at hheld
  exact ⟨hruns, hwoken, hout, hheld⟩

end Pintos
