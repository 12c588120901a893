import Pintos.Lib.Permits
import Pintos.Threads.Scheduler

/-!
# Semaphores and locks (`threads/synch.c`)

`Counted` adds to the scheduler how many ups and downs of each semaphore have completed.
`Locks` adds `holder` and, for each thread, where in `lock_acquire` or `lock_release` it is:
between the two, `inside` has the threads that took the unit of the lock's semaphore and have
not given it back.

Everything rests on one inversion, `Sched.step_effect`: a step gives a unit, takes one, makes
the current thread wait for one, or leaves all semaphores alone.
-/

namespace Pintos

open Lib Function List Option

theorem of_update {β : Type} {f : Nat → β} {i j : Nat} {a b : β}
    (h : update f i a j = b) (hne : a ≠ b) : f j = b := by
  rw [update_apply] at h
  split at h
  · exact absurd h hne
  · exact h

/-! ## What a step does to the semaphores -/

/-- The step completes a down of the semaphore `k`. -/
def Sched.takes (s : Sched) (op : SchedOp) (k : Nat) : Bool :=
  match op with
  | .down j => j == k && decide (0 < (s.sema k).value)
  | .tryDown j => j == k && decide (0 < (s.sema k).value)
  | .resume => s.inDown s.current == some k && decide (0 < (s.sema k).value)
  | _ => false

open Sched

section Frame

variable {s s' : Sched} {t : Nat}

theorem Sched.schedule_frame (h : s.schedule = .ok s') :
    s'.sema = s.sema ∧ s'.inDown = s.inDown ∧ s'.allList = s.allList := by
  obtain ⟨t, rest, rfl, -⟩ := schedule_ok h
  exact ⟨rfl, rfl, rfl⟩

theorem Sched.threadCurrent_bind {f : Nat → Except Panic Sched}
    (h : (s.threadCurrent >>= f) = .ok s') : f s.current = .ok s' := by
  unfold threadCurrent at h
  split at h
  · exact h
  · cases h

theorem Sched.threadBlock_frame (h : s.threadBlock = .ok s') :
    s'.sema = s.sema ∧ s'.inDown = s.inDown ∧ s'.allList = s.allList :=
  schedule_frame (s := s.setStatus s.current .blocked) (threadCurrent_bind h)

theorem Sched.threadYield_frame (h : s.threadYield = .ok s') :
    s'.sema = s.sema ∧ s'.inDown = s.inDown ∧ s'.allList = s.allList := by
  have h := schedule_frame (threadCurrent_bind h)
  split at h
  · exact h
  · exact h

theorem Sched.threadExit_frame (h : s.threadExit = .ok s') :
    s'.sema = s.sema ∧ s'.inDown = s.inDown ∧ s'.allList = s.allList.erase s.current :=
  schedule_frame (threadCurrent_bind h)

theorem Sched.threadUnblock_frame (h : s.threadUnblock t = .ok s') :
    s'.sema = s.sema ∧ s'.inDown = s.inDown ∧ s'.allList = s.allList := by
  obtain rfl := threadUnblock_ok h
  exact ⟨rfl, rfl, rfl⟩

/-- A round of `sema_down`: a unit is taken, or the current thread waits. -/
theorem Sched.semaDown_effect {k : Nat} (h : s.semaDown k = .ok s') :
    s'.allList = s.allList ∧
      ((0 < (s.sema k).value ∧ s'.inDown = update s.inDown s.current none ∧
        s'.sema = update s.sema k { s.sema k with value := (s.sema k).value - 1 }) ∨
      ((s.sema k).value = 0 ∧ s'.inDown = update s.inDown s.current (some k) ∧
        s'.sema = update s.sema k
          { s.sema k with waiters := (s.sema k).waiters ++ [s.current] })) := by
  unfold semaDown at h
  split at h
  · next hz =>
    obtain ⟨hsema, hdown, hall⟩ := threadBlock_frame (threadCurrent_bind h)
    exact ⟨hall, .inr ⟨hz, hdown, hsema⟩⟩
  · next hnz =>
    cases h
    exact ⟨rfl, .inl ⟨by omega, rfl, rfl⟩⟩

theorem Sched.semaUp_effect {k : Nat} (h : s.semaUp k = .ok s') :
    s'.allList = s.allList ∧ s'.inDown = s.inDown ∧
      s'.sema = update s.sema k
        ⟨((s.sema k).value + 1) % 2 ^ 32, (s.sema k).waiters.tail⟩ := by
  obtain ⟨hk, rfl⟩ | ⟨t, rest, s₁, hk, hu, rfl⟩ := semaUp_ok h
  · refine ⟨rfl, rfl, ?_⟩
    simp only [semaIncrement, setSema, hk, tail_nil]
  · obtain rfl := threadUnblock_ok hu
    refine ⟨rfl, rfl, ?_⟩
    show update (update s.sema k { s.sema k with waiters := rest }) k _ = _
    rw [update_idem, hk]
    simp [setSema, setStatus]

end Frame

/-- The step is neither an up nor a completed down. -/
def Sched.idleOn (s : Sched) (op : SchedOp) : Prop :=
  (∀ j, op ≠ .up j) ∧ ∀ j, s.takes op j = false

variable {k : Nat} {op : SchedOp} {s s' : Sched}

/-- **What a step can do to the semaphores.** -/
theorem Sched.step_effect (h : s.step op = some s') :
    (∃ k, op = .up k ∧ s'.allList = s.allList ∧ s'.inDown = s.inDown ∧
      s'.sema = update s.sema k
        ⟨((s.sema k).value + 1) % 2 ^ 32, (s.sema k).waiters.tail⟩) ∨
    (∃ k, (∀ j, op ≠ .up j) ∧ (∀ j, s.takes op j = true ↔ j = k) ∧ 0 < (s.sema k).value ∧
      s'.allList = s.allList ∧ s'.inDown = update s.inDown s.current none ∧
      (s.inDown s.current = none ∨ s.inDown s.current = some k) ∧
      s'.sema = update s.sema k { s.sema k with value := (s.sema k).value - 1 }) ∨
    (∃ k, s.idleOn op ∧ (s.sema k).value = 0 ∧ s'.allList = s.allList ∧
      s'.inDown = update s.inDown s.current (some k) ∧
      (s.inDown s.current = none ∨ s.inDown s.current = some k) ∧
      s'.sema = update s.sema k
        { s.sema k with waiters := (s.sema k).waiters ++ [s.current] }) ∨
    (s.idleOn op ∧ s'.sema = s.sema ∧ s'.inDown = s.inDown ∧
      (s'.allList = s.allList ∨ (∃ t, s.status t = none ∧ s'.allList = s.allList ++ [t]) ∨
        (s.inDown s.current = none ∧ s'.allList = s.allList.erase s.current))) := by
  obtain ⟨hen, hex⟩ := step_eq_some.mp h
  cases op with
  | create t =>
    simp only [enabled, Bool.and_eq_true, isNone_iff_eq_none] at hen
    cases hex
    exact .inr (.inr (.inr ⟨⟨by simp, fun _ => rfl⟩, rfl, rfl, .inr (.inl ⟨t, hen.2, rfl⟩)⟩))
  | block =>
    obtain ⟨h₁, h₂, h₃⟩ := threadBlock_frame hex
    exact .inr (.inr (.inr ⟨⟨by simp, fun _ => rfl⟩, h₁, h₂, .inl h₃⟩))
  | unblock t =>
    obtain ⟨h₁, h₂, h₃⟩ := threadUnblock_frame hex
    exact .inr (.inr (.inr ⟨⟨by simp, fun _ => rfl⟩, h₁, h₂, .inl h₃⟩))
  | yield | preempt =>
    obtain ⟨h₁, h₂, h₃⟩ := threadYield_frame hex
    exact .inr (.inr (.inr ⟨⟨by simp, fun _ => rfl⟩, h₁, h₂, .inl h₃⟩))
  | exit =>
    simp only [enabled, Bool.and_eq_true, isNone_iff_eq_none] at hen
    obtain ⟨h₁, h₂, h₃⟩ := threadExit_frame hex
    exact .inr (.inr (.inr ⟨⟨by simp, fun _ => rfl⟩, h₁, h₂, .inr (.inr ⟨hen.1, h₃⟩)⟩))
  | becomeIdle =>
    cases hex
    exact .inr (.inr (.inr ⟨⟨by simp, fun _ => rfl⟩, rfl, rfl, .inl rfl⟩))
  | down k =>
    simp only [enabled, Bool.and_eq_true, isNone_iff_eq_none] at hen
    obtain ⟨hall, ⟨hpos, hdown, hsema⟩ | ⟨hz, hdown, hsema⟩⟩ := semaDown_effect hex
    · refine .inr (.inl ⟨k, by simp, fun j => ?_, hpos, hall, hdown, .inl hen.1, hsema⟩)
      simp only [takes, Bool.and_eq_true, beq_iff_eq, decide_eq_true_eq]
      exact ⟨fun hj => hj.1.symm, fun hj => ⟨hj.symm, hj ▸ hpos⟩⟩
    · refine .inr (.inr (.inl ⟨k, ⟨by simp, fun j => ?_⟩, hz, hall, hdown, .inl hen.1, hsema⟩))
      grind [takes]
  | tryDown k =>
    have hnone : s.inDown s.current = none := isNone_iff_eq_none.mp hen
    have hsame : update s.inDown s.current none = s.inDown := by
      rw [← hnone, update_eq_self]
    simp only [exec, semaTryDown] at hex
    split at hex
    · next hpos =>
      cases hex
      refine .inr (.inl ⟨k, by simp, fun j => ?_, hpos, rfl, hsame.symm, .inl hnone, rfl⟩)
      simp only [takes, Bool.and_eq_true, beq_iff_eq, decide_eq_true_eq]
      exact ⟨fun hj => hj.1.symm, fun hj => ⟨hj.symm, hj ▸ hpos⟩⟩
    · next hz =>
      cases hex
      refine .inr (.inr (.inr ⟨⟨by simp, fun j => ?_⟩, rfl, rfl, .inl rfl⟩))
      grind [takes]
  | up k =>
    obtain ⟨h₁, h₂, h₃⟩ := semaUp_effect hex
    exact .inl ⟨k, rfl, h₁, h₂, h₃⟩
  | resume =>
    obtain ⟨k, hk⟩ := isSome_iff_exists.mp hen
    simp only [exec, hk] at hex
    obtain ⟨hall, ⟨hpos, hdown, hsema⟩ | ⟨hz, hdown, hsema⟩⟩ := semaDown_effect hex
    · refine .inr (.inl ⟨k, by simp, fun j => ?_, hpos, hall, hdown, .inr hk, hsema⟩)
      grind [takes]
    · refine .inr (.inr (.inl ⟨k, ⟨by simp, fun j => ?_⟩, hz, hall, hdown, .inr hk, hsema⟩))
      grind [takes]

theorem Sched.step_value (h : s.step op = some s') (k : Nat) :
    (op = .up k ∧ s.takes op k = false ∧ (s'.sema k).value = ((s.sema k).value + 1) % 2 ^ 32) ∨
    (op ≠ .up k ∧ s.takes op k = true ∧ (s'.sema k).value + 1 = (s.sema k).value) ∨
    (op ≠ .up k ∧ s.takes op k = false ∧ (s'.sema k).value = (s.sema k).value) := by
  obtain ⟨j, rfl, -, -, hsema⟩ | ⟨j, hup, htake, hpos, -, -, -, hsema⟩ |
    ⟨j, hidle, -, -, -, -, hsema⟩ | ⟨hidle, hsema, -, -⟩ := step_effect h
  · by_cases hk : j = k
    · subst hk
      exact .inl ⟨rfl, rfl, by rw [hsema, update_self]⟩
    · refine .inr (.inr ⟨by grind, rfl, ?_⟩)
      rw [hsema, update_of_ne (Ne.symm hk)]
  · by_cases hk : k = j
    · subst hk
      refine .inr (.inl ⟨hup k, (htake k).mpr rfl, ?_⟩)
      rw [hsema, update_self]
      show (s.sema k).value - 1 + 1 = _
      omega
    · refine .inr (.inr ⟨hup k, ?_, ?_⟩)
      · exact Bool.eq_false_iff.mpr fun ht => hk ((htake k).mp ht)
      · rw [hsema, update_of_ne hk]
  · refine .inr (.inr ⟨hidle.1 k, hidle.2 k, ?_⟩)
    by_cases hk : k = j
    · subst hk
      rw [hsema, update_self]
    · rw [hsema, update_of_ne hk]
  · exact .inr (.inr ⟨hidle.1 k, hidle.2 k, by rw [hsema]⟩)

/-! ## Counting ups and downs -/

/-- The scheduler with the ups and downs of each semaphore that have completed. -/
structure Counted where
  sched : Sched
  ups : Nat → Nat
  downs : Nat → Nat

open Counted

def Counted.step (c : Counted) (op : SchedOp) : Option Counted :=
  match c.sched.step op with
  | none => none
  | some s =>
    some
      { sched := s
        ups := fun k => c.ups k + if op = .up k then 1 else 0
        downs := fun k => c.downs k + if c.sched.takes op k then 1 else 0 }

/-- Nothing has been counted. -/
def Counted.init (main : Nat) (v : Nat → Nat) : Counted :=
  ⟨Sched.init main v, fun _ => 0, fun _ => 0⟩

theorem Counted.step_sched {c c' : Counted} (h : c.step op = some c') :
    c.sched.step op = some c'.sched := by
  unfold step at h
  split at h
  · cases h
  · next hs =>
    cases h
    exact hs

/-- What has been given is there, has been taken, or was lost when the value wrapped around. -/
def Counted.Accounts (v : Nat → Nat) (c : Counted) : Prop :=
  ∀ k, ∃ wraps, v k + c.ups k = (c.sched.sema k).value + c.downs k + 2 ^ 32 * wraps

theorem Counted.Accounts.step {v : Nat → Nat} {c c' : Counted} {op : SchedOp}
    (h : c.Accounts v) (hstep : c.step op = some c') : c'.Accounts v := by
  intro k
  obtain ⟨wraps, hw⟩ := h k
  have hval := step_value (Counted.step_sched hstep) k
  unfold Counted.step at hstep
  split at hstep
  · cases hstep
  · next s hs =>
    cases hstep
    simp only at hval ⊢
    obtain ⟨hop, ht, hv⟩ | ⟨hop, ht, hv⟩ | ⟨hop, ht, hv⟩ := hval
    · rw [hop, if_pos rfl, ← hop, ht, hv]
      refine ⟨wraps + ((c.sched.sema k).value + 1) / 2 ^ 32, ?_⟩
      have := Nat.mod_add_div ((c.sched.sema k).value + 1) (2 ^ 32)
      simp only [Bool.false_eq_true, if_false]
      omega
    · rw [if_neg hop, ht]
      exact ⟨wraps, by simp only [if_true]; omega⟩
    · rw [if_neg hop, ht, hv]
      exact ⟨wraps, by simpa using hw⟩

/-! ## No wake-up is lost -/

/-- The threads that were woken from `k` and have not looked at its value again. -/
def Sched.woken (s : Sched) (k : Nat) : Nat :=
  s.allList.countP fun t => decide (s.inDown t = some k ∧ t ∉ (s.sema k).waiters)

/-- While threads wait for a semaphore, its units are spoken for by threads that were woken. -/
def Sched.Balanced (s : Sched) : Prop :=
  ∀ k, (s.sema k).waiters ≠ [] → (s.sema k).value ≤ s.woken k

theorem Sched.woken_congr (hall : s'.allList = s.allList)
    (hsame : ∀ t ∈ s.allList, (s'.inDown t = some k ∧ t ∉ (s'.sema k).waiters) ↔
      (s.inDown t = some k ∧ t ∉ (s.sema k).waiters)) : s'.woken k = s.woken k := by
  unfold woken
  rw [hall]
  apply countP_congr
  intro t ht
  simp only [decide_eq_true_eq]
  exact hsame t ht

theorem Sched.woken_up {t : Nat} {rest : List Nat}
    (hq : s.Queues (some s.current)) (hk : (s.sema k).waiters = t :: rest)
    (hall : s'.allList = s.allList) (hdown : s'.inDown = s.inDown)
    (hk' : (s'.sema k).waiters = rest) : s'.woken k = s.woken k + 1 := by
  have hmem : t ∈ (s.sema k).waiters := by rw [hk]; exact mem_cons_self
  obtain ⟨hst, hin⟩ := (hq.waiting_iff k t).mp hmem
  have hnd := hq.waiters_nodup k
  rw [hk, nodup_cons] at hnd
  have ht : t ∈ s.allList := (hq.all_iff t).mpr ⟨by simp [hst], by simp [hst]⟩
  have hcount := countP_change (q := fun t => decide (s'.inDown t = some k ∧ t ∉ (s'.sema k).waiters))
    (p := fun t => decide (s.inDown t = some k ∧ t ∉ (s.sema k).waiters)) hq.all_nodup ht (by
      intro y _ hy
      rw [hdown, hk', hk]
      simp [hy])
  rw [hdown, hk', hk] at hcount
  unfold woken
  rw [hall, hdown, hk', hk]
  simpa [hin, hnd.1] using hcount

theorem Sched.woken_take (hq : s.Queues (some s.current))
    (hall : s'.allList = s.allList) (hdown : s'.inDown = update s.inDown s.current none)
    (hk : (s'.sema k).waiters = (s.sema k).waiters) : s.woken k ≤ s'.woken k + 1 := by
  have hrun : s.status s.current = some .running := (hq.running_iff _).mpr rfl
  have hcur : s.current ∈ s.allList := (hq.all_iff _).mpr ⟨by simp [hrun], by simp [hrun]⟩
  have hcount := countP_change (q := fun t => decide (s'.inDown t = some k ∧ t ∉ (s'.sema k).waiters))
    (p := fun t => decide (s.inDown t = some k ∧ t ∉ (s.sema k).waiters)) hq.all_nodup hcur (by
      intro y _ hy
      rw [hdown, hk, update_of_ne hy])
  unfold woken
  rw [hall]
  split at hcount <;> split at hcount <;> omega

/-- A down on one semaphore leaves those alone that have been woken at another. -/
theorem Sched.woken_other {j : Nat} {v : Option Nat} {x : Semaphore} (hk : k ≠ j)
    (hall : s'.allList = s.allList) (hdown : s'.inDown = update s.inDown s.current v)
    (hv : v = none ∨ v = some j) (hin : s.inDown s.current = none ∨ s.inDown s.current = some j)
    (hsema : s'.sema = update s.sema j x) :
    s'.sema k = s.sema k ∧ s'.woken k = s.woken k := by
  have hw : s'.sema k = s.sema k := by rw [hsema, update_of_ne hk]
  refine ⟨hw, woken_congr hall fun t _ => ?_⟩
  rw [hw, hdown, update_apply]
  grind

theorem Sched.Balanced.step {s s' : Sched} {op : SchedOp} (hq : s.Queues (some s.current))
    (h : s.Balanced) (hstep : s.step op = some s') : s'.Balanced := by
  intro k hne
  have hcur : ∀ k, s.current ∉ (s.sema k).waiters := by
    intro k hm
    have hrun := (hq.running_iff s.current).mpr rfl
    rw [((hq.waiting_iff k _).mp hm).1] at hrun
    cases hrun
  obtain ⟨j, rfl, hall, hdown, hsema⟩ | ⟨j, -, -, hpos, hall, hdown, hin, hsema⟩ |
    ⟨j, -, hz, hall, hdown, hin, hsema⟩ | ⟨-, hsema, hdown, hall⟩ := step_effect hstep
  · by_cases hk : k = j
    · subst hk
      rw [hsema, update_self] at hne ⊢
      cases hw : (s.sema k).waiters with
      | nil =>
        rw [hw] at hne
        exact absurd rfl hne
      | cons t rest =>
        have hwoken := woken_up hq hw hall hdown (by rw [hsema, update_self, hw]; rfl)
        have hle := h k (by rw [hw]; exact cons_ne_nil _ _)
        have hmod := Nat.mod_le ((s.sema k).value + 1) (2 ^ 32)
        rw [hwoken]
        show ((s.sema k).value + 1) % 2 ^ 32 ≤ s.woken k + 1
        omega
    · rw [hsema, update_of_ne hk] at hne ⊢
      rw [woken_congr hall fun t _ => by rw [hdown, hsema, update_of_ne hk]]
      exact h k hne
  · by_cases hk : k = j
    · subst hk
      have hw : (s'.sema k).waiters = (s.sema k).waiters := by rw [hsema, update_self]
      have hwoken := woken_take hq hall hdown hw
      have hle := h k (by rwa [hw] at hne)
      rw [hsema, update_self]
      show (s.sema k).value - 1 ≤ s'.woken k
      omega
    · obtain ⟨hw, hwoken⟩ := woken_other hk hall hdown (.inl rfl) hin hsema
      rw [hw] at hne ⊢
      rw [hwoken]
      exact h k hne
  · by_cases hk : k = j
    · subst hk
      rw [hsema, update_self]
      show (s.sema k).value ≤ _
      omega
    · obtain ⟨hw, hwoken⟩ := woken_other hk hall hdown (.inr rfl) hin hsema
      rw [hw] at hne ⊢
      rw [hwoken]
      exact h k hne
  · -- a thread that comes or goes is in no loop of `sema_down`
    have hwoken : s'.woken k = s.woken k := by
      obtain hall | ⟨t, ht, hall⟩ | ⟨hnone, hall⟩ := hall
      · exact woken_congr hall fun t _ => by rw [hsema, hdown]
      · have hin : s.inDown t ≠ some k := fun hk => (hq.inDown_alive t k hk).1 ht
        unfold woken
        rw [hall, hsema, hdown, countP_append]
        simp [hin]
      · unfold woken
        rw [hall, hsema, hdown, countP_erase]
        simp [hnone]
    rw [hsema] at hne ⊢
    rw [hwoken]
    exact h k hne

/-! ## Locks -/

/-- Where a thread is in `lock_acquire`, `lock_try_acquire` or `lock_release`. -/
inductive LockPc
  | out
  | acquiring (l : Nat)
  | acquired (l : Nat)
  | releasing (l : Nat)
deriving DecidableEq

/-- The scheduler with the `holder` of each lock. A lock is named by its semaphore. `inside l` has
the threads that took the unit of `l` and have not given it back. -/
structure Locks where
  sched : Sched
  holder : Nat → Option Nat
  pc : Nat → LockPc
  inside : Nat → List Nat

inductive LockOp
  /-- Anything that is not an operation of a lock. -/
  | sched (op : SchedOp)
  | acquire (l : Nat)
  | tryAcquire (l : Nat)
  /-- The current thread was woken in the `sema_down` of `lock_acquire`. -/
  | resume
  /-- `lock->holder = thread_current ()`. -/
  | setHolder
  | release (l : Nat)
  /-- The `sema_up` at the end of `lock_release`. -/
  | releaseUp
deriving DecidableEq

/-- The operation has nothing to do with the semaphore of a lock. -/
def Sched.foreign (isLock : Nat → Bool) (s : Sched) : SchedOp → Bool
  | .down k => !isLock k
  | .tryDown k => !isLock k
  | .up k => !isLock k
  | .resume =>
    match s.inDown s.current with
    | some k => !isLock k
    | none => true
  | _ => true

namespace Locks

/-- The current thread went through a round of `sema_down` of the lock. -/
def afterDown (s : Locks) (l : Nat) (sched : Sched) : Locks :=
  let cur := s.sched.current
  if 0 < (s.sched.sema l).value then
    { s with
      sched := sched
      pc := update s.pc cur (.acquired l)
      inside := update s.inside l (cur :: s.inside l) }
  else { s with sched := sched, pc := update s.pc cur (.acquiring l) }

/-- A step of the current thread, or an interrupt; `none` is a failed assertion. `isLock` tells
the semaphores of locks from the others. -/
def step (isLock : Nat → Bool) (s : Locks) (op : LockOp) : Option Locks :=
  let cur := s.sched.current
  match op with
  | .sched op =>
    if s.sched.foreign isLock op then
      (s.sched.step op).map fun sched => { s with sched := sched }
    else none
  | .acquire l =>
    if isLock l ∧ s.pc cur = .out ∧ s.holder l ≠ some cur then
      (s.sched.step (.down l)).map (s.afterDown l)
    else none
  | .tryAcquire l =>
    if isLock l ∧ s.pc cur = .out ∧ s.holder l ≠ some cur then
      (s.sched.step (.tryDown l)).map fun sched =>
        if 0 < (s.sched.sema l).value then s.afterDown l sched else { s with sched := sched }
    else none
  | .resume =>
    match s.sched.inDown cur with
    | some l =>
      if isLock l ∧ s.pc cur = .acquiring l then
        (s.sched.step .resume).map (s.afterDown l)
      else none
    | none => none
  | .setHolder =>
    match s.pc cur, s.sched.inDown cur with
    | .acquired l, none =>
      some { s with
        holder := update s.holder l (some cur)
        pc := update s.pc cur .out }
    | _, _ => none
  | .release l =>
    if isLock l ∧ s.pc cur = .out ∧ s.holder l = some cur ∧ s.sched.inDown cur = none then
      some { s with
        holder := update s.holder l none
        pc := update s.pc cur (.releasing l) }
    else none
  | .releaseUp =>
    match s.pc cur with
    | .releasing l =>
      (s.sched.step (.up l)).map fun sched =>
        { s with
          sched := sched
          pc := update s.pc cur .out
          inside := update s.inside l ((s.inside l).erase cur) }
    | _ => none

/-- What a step does. A round of `sema_down` is the one of `lock_acquire` or `lock_try_acquire`, or
comes after a wake up. -/
inductive Trans (isLock : Nat → Bool) (s : Locks) : LockOp → Locks → Prop
  | sched {op sched} (hf : s.sched.foreign isLock op = true) (hs : s.sched.step op = some sched) :
      Trans isLock s (.sched op) { s with sched := sched }
  | down {op o l sched} (hl : isLock l = true) (hs : s.sched.step o = some sched)
      (hup : ∀ j, o ≠ .up j)
      (htakes : ∀ j, s.sched.takes o j = true ↔ j = l ∧ 0 < (s.sched.sema l).value)
      (hop : s.pc s.sched.current = .out → (∃ l, op = .acquire l) ∨ ∃ l, op = .tryAcquire l) :
      Trans isLock s op (s.afterDown l sched)
  | busy {l sched} (hval : ∀ j, (sched.sema j).value = (s.sched.sema j).value) :
      Trans isLock s (.tryAcquire l) { s with sched := sched }
  | setHolder {l} (hpc : s.pc s.sched.current = .acquired l) :
      Trans isLock s .setHolder { s with
        holder := update s.holder l (some s.sched.current)
        pc := update s.pc s.sched.current .out }
  | release {l} (hl : isLock l = true) (hholder : s.holder l = some s.sched.current) :
      Trans isLock s (.release l) { s with
        holder := update s.holder l none
        pc := update s.pc s.sched.current (.releasing l) }
  | releaseUp {l sched} (hpc : s.pc s.sched.current = .releasing l)
      (hs : s.sched.step (.up l) = some sched) :
      Trans isLock s .releaseUp { s with
        sched := sched
        pc := update s.pc s.sched.current .out
        inside := update s.inside l ((s.inside l).erase s.sched.current) }

theorem trans_of_step {isLock : Nat → Bool} {s s' : Locks} {op : LockOp}
    (h : s.step isLock op = some s') : Trans isLock s op s' := by
  cases op with
  | sched op =>
    simp only [step, ite_none_right_eq_some, map_eq_some_iff] at h
    obtain ⟨hf, sched, hs, rfl⟩ := h
    exact .sched hf hs
  | acquire l =>
    simp only [step, ite_none_right_eq_some, map_eq_some_iff] at h
    obtain ⟨hc, sched, hs, rfl⟩ := h
    exact .down hc.1 hs nofun (by grind [takes]) fun _ => .inl ⟨l, rfl⟩
  | tryAcquire l =>
    simp only [step, ite_none_right_eq_some, map_eq_some_iff] at h
    obtain ⟨hc, sched, hs, rfl⟩ := h
    split
    · exact .down hc.1 hs nofun (by grind [takes]) fun _ => .inr ⟨l, rfl⟩
    · next hz =>
      refine .busy fun j => ?_
      obtain ⟨hop, -, -⟩ | ⟨-, ht, -⟩ | ⟨-, -, hv⟩ := step_value hs j
      · cases hop
      · simp only [takes, Bool.and_eq_true, beq_iff_eq, decide_eq_true_eq] at ht
        exact absurd (ht.1 ▸ ht.2) hz
      · exact hv
  | resume =>
    simp only [step] at h
    split at h
    · next l hdown =>
      simp only [ite_none_right_eq_some, map_eq_some_iff] at h
      obtain ⟨hc, sched, hs, rfl⟩ := h
      refine .down hc.1 hs nofun (by grind [takes]) fun hpc => ?_
      rw [hc.2] at hpc
      cases hpc
    · cases h
  | setHolder =>
    simp only [step] at h
    split at h
    · next l hpc _ =>
      cases h
      exact .setHolder hpc
    · cases h
  | release l =>
    simp only [step, ite_none_right_eq_some] at h
    obtain ⟨hc, h⟩ := h
    cases h
    exact .release hc.1 hc.2.2.1
  | releaseUp =>
    simp only [step] at h
    split at h
    · next l hpc =>
      obtain ⟨sched, hs, rfl⟩ := map_eq_some_iff.mp h
      exact .releaseUp hpc hs
    · cases h

/-- `lock_init` of every lock. -/
def init (isLock : Nat → Bool) (main : Nat) (v : Nat → Nat) : Locks where
  sched := Sched.init main fun k => if isLock k then 1 else v k
  holder := fun _ => none
  pc := fun _ => .out
  inside := fun _ => []

end Locks

/-- What ties the unit of a lock to the threads inside and to `holder`. -/
structure LockInv (isLock : Nat → Bool) (s : Locks) : Prop where
  unit : ∀ l, isLock l = true → (s.sched.sema l).value + (s.inside l).length = 1
  holder_inside : ∀ l t, s.holder l = some t → t ∈ s.inside l
  acquired : ∀ t l, s.pc t = .acquired l → isLock l = true ∧ t ∈ s.inside l
  releasing : ∀ t l, s.pc t = .releasing l →
    isLock l = true ∧ t ∈ s.inside l ∧ s.holder l = none

namespace LockInv

variable {isLock : Nat → Bool} {s s' : Locks} {l : Nat}

theorem init (main : Nat) (v : Nat → Nat) : LockInv isLock (Locks.init isLock main v) :=
  ⟨fun l hl => by simp [Locks.init, Sched.init, hl], nofun, nofun, nofun⟩

theorem unique {t t' : Nat} (h : LockInv isLock s) (hl : isLock l = true) (ht : t ∈ s.inside l)
    (ht' : t' ∈ s.inside l) : t = t' := by
  have hunit := h.unit l hl
  have hpos := length_pos_of_mem ht
  obtain ⟨x, hx⟩ := length_eq_one_iff.mp (show (s.inside l).length = 1 by omega)
  rw [hx, mem_singleton] at ht ht'
  rw [ht, ht']

theorem ofSched {sched : Sched} (h : LockInv isLock s)
    (hval : ∀ l, isLock l = true → (sched.sema l).value = (s.sched.sema l).value) :
    LockInv isLock { s with sched := sched } :=
  ⟨fun l hl => by rw [hval l hl]; exact h.unit l hl, h.holder_inside, h.acquired, h.releasing⟩

theorem foreign_value {op : SchedOp} {sched sched' : Sched} (hf : sched.foreign isLock op = true)
    (hstep : sched.step op = some sched') (hl : isLock l = true) :
    (sched'.sema l).value = (sched.sema l).value := by
  obtain ⟨rfl, -, -⟩ | ⟨-, ht, -⟩ | ⟨-, -, hv⟩ := step_value hstep l
  · simp [foreign, hl] at hf
  · -- a completed down of `l` is no foreign step
    cases op <;> simp only [takes, Bool.and_eq_true, beq_iff_eq, Bool.false_eq_true] at ht
    · simp [foreign, ht.1, hl] at hf
    · simp [foreign, ht.1, hl] at hf
    · simp [foreign, ht.1, hl] at hf
  · exact hv

section

variable (h : LockInv isLock s)
include h

theorem afterDown {op : SchedOp} {sched : Sched} (hl : isLock l = true)
    (hstep : s.sched.step op = some sched) (hup : ∀ j, op ≠ .up j)
    (hother : ∀ j, s.sched.takes op j = true → j = l)
    (htakes : 0 < (s.sched.sema l).value → s.sched.takes op l = true) :
    LockInv isLock (s.afterDown l sched) := by
  have hval : ∀ j, j ≠ l → (sched.sema j).value = (s.sched.sema j).value := by
    intro j hj
    obtain ⟨hop, -, -⟩ | ⟨-, ht, -⟩ | ⟨-, -, hv⟩ := step_value hstep j
    · exact absurd hop (hup j)
    · exact absurd (hother j ht) hj
    · exact hv
  unfold Locks.afterDown
  split
  · next hpos =>
    have hlval : (sched.sema l).value + 1 = (s.sched.sema l).value := by
      obtain ⟨hop, -, -⟩ | ⟨-, -, hv⟩ | ⟨-, ht, -⟩ := step_value hstep l
      · exact absurd hop (hup l)
      · exact hv
      · rw [htakes hpos] at ht
        cases ht
    refine ⟨fun j hj => ?_, fun j t ht => ?_, fun t j ht => ?_, fun t j ht => ?_⟩
    · have hunit := h.unit j hj
      simp only [update_apply]
      split
      · next heq =>
        subst heq
        rw [length_cons]
        omega
      · next hne =>
        rw [hval j hne]
        exact hunit
    · have := h.holder_inside j t ht
      simp only [update_apply]
      split
      · next heq => exact mem_cons_of_mem _ (heq ▸ this)
      · exact this
    · simp only [update_apply] at ht ⊢
      split at ht
      · cases ht
        exact ⟨hl, by simp [*]⟩
      · have := h.acquired t j ht
        refine ⟨this.1, ?_⟩
        split
        · next heq => exact mem_cons_of_mem _ (heq ▸ this.2)
        · exact this.2
    · simp only [update_apply] at ht ⊢
      split at ht
      · cases ht
      · obtain ⟨hj, hin, hnone⟩ := h.releasing t j ht
        refine ⟨hj, ?_, hnone⟩
        split
        · next heq => exact mem_cons_of_mem _ (heq ▸ hin)
        · exact hin
  · next hz =>
    have hlval : (sched.sema l).value = (s.sched.sema l).value := by
      obtain ⟨hop, -, -⟩ | ⟨-, -, hv⟩ | ⟨-, -, hv⟩ := step_value hstep l
      · exact absurd hop (hup l)
      · omega
      · exact hv
    have hsame : ∀ j, (sched.sema j).value = (s.sched.sema j).value := by
      intro j
      by_cases hj : j = l
      · rw [hj, hlval]
      · exact hval j hj
    refine ⟨fun j hj => by rw [hsame]; exact h.unit j hj, h.holder_inside, fun t j ht => ?_,
      fun t j ht => ?_⟩
    · exact h.acquired t j (of_update ht nofun)
    · exact h.releasing t j (of_update ht nofun)

theorem setHolder (hpc : s.pc s.sched.current = .acquired l) :
    LockInv isLock { s with
      holder := update s.holder l (some s.sched.current)
      pc := update s.pc s.sched.current .out } := by
  obtain ⟨hl, hin⟩ := h.acquired _ l hpc
  refine ⟨h.unit, fun j t ht => ?_, fun t j ht => ?_, fun t j ht => ?_⟩
  · simp only [update_apply] at ht
    split at ht
    · next heq =>
      cases ht
      exact heq ▸ hin
    · exact h.holder_inside j t ht
  · exact h.acquired t j (of_update ht nofun)
  · simp only [update_apply] at ht ⊢
    split at ht
    · cases ht
    · next hne =>
      obtain ⟨hj, hin', hnone⟩ := h.releasing t j ht
      refine ⟨hj, hin', ?_⟩
      split
      · -- two threads inside the lock
        next heq => exact absurd (h.unique hl (heq ▸ hin') hin) hne
      · exact hnone

theorem release (hl : isLock l = true) (hheld : s.holder l = some s.sched.current) :
    LockInv isLock { s with
      holder := update s.holder l none
      pc := update s.pc s.sched.current (.releasing l) } := by
  refine ⟨h.unit, fun j t ht => ?_, fun t j ht => ?_, fun t j ht => ?_⟩
  · exact h.holder_inside j t (of_update ht nofun)
  · exact h.acquired t j (of_update ht nofun)
  · simp only [update_apply] at ht ⊢
    split at ht
    · next heq =>
      cases ht
      exact ⟨hl, heq ▸ h.holder_inside l _ hheld, by simp⟩
    · obtain ⟨hj, hin, hnone⟩ := h.releasing t j ht
      refine ⟨hj, hin, ?_⟩
      split
      · rfl
      · exact hnone

theorem releaseUp {sched : Sched} (hpc : s.pc s.sched.current = .releasing l)
    (hstep : s.sched.step (.up l) = some sched) :
    LockInv isLock { s with
      sched := sched
      pc := update s.pc s.sched.current .out
      inside := update s.inside l ((s.inside l).erase s.sched.current) } := by
  obtain ⟨hl, hin, hnone⟩ := h.releasing _ l hpc
  have hother : ∀ {t j}, t ∈ s.inside j → t ≠ s.sched.current →
      t ∈ update s.inside l ((s.inside l).erase s.sched.current) j := by
    intro t j ht hne
    rw [update_apply]
    split
    · next heq => exact (mem_erase_of_ne hne).mpr (heq ▸ ht)
    · exact ht
  refine ⟨fun j hj => ?_, fun j t ht => ?_, fun t j ht => ?_, fun t j ht => ?_⟩
  · simp only [update_apply]
    obtain ⟨hop, -, hv⟩ | ⟨-, ht, -⟩ | ⟨hop, -, hv⟩ := step_value hstep j
    · cases hop
      have hunit := h.unit l hl
      have hpos := length_pos_of_mem hin
      rw [if_pos rfl, hv, length_erase_of_mem hin]
      omega
    · cases ht
    · rw [if_neg fun heq => hop (by rw [heq]), hv]
      exact h.unit j hj
  · have hne : t ≠ s.sched.current ∨ j ≠ l := by
      by_contra hboth
      simp only [ne_eq, not_or, not_not] at hboth
      have ht : s.holder j = some t := ht
      rw [hboth.2, hnone] at ht
      cases ht
    have hin' := h.holder_inside j t ht
    rcases hne with hne | hne
    · exact hother hin' hne
    · show t ∈ update s.inside l _ j
      rw [update_of_ne hne]
      exact hin'
  · simp only [update_apply] at ht
    split at ht
    · cases ht
    · next hne => exact ⟨(h.acquired t j ht).1, hother (h.acquired t j ht).2 hne⟩
  · simp only [update_apply] at ht
    split at ht
    · cases ht
    · next hne =>
      obtain ⟨hj, hin', hnone'⟩ := h.releasing t j ht
      exact ⟨hj, hother hin' hne, hnone'⟩

theorem step {op : LockOp} (hstep : s.step isLock op = some s') : LockInv isLock s' := by
  cases Locks.trans_of_step hstep with
  | sched hf hs => exact h.ofSched fun l hl => foreign_value hf hs hl
  | down hl hs hup htakes _ =>
    exact h.afterDown hl hs hup (fun j hj => ((htakes j).mp hj).1) fun hpos =>
      (htakes _).mpr ⟨rfl, hpos⟩
  | busy hval => exact h.ofSched fun j _ => hval j
  | setHolder hpc => exact h.setHolder hpc
  | release hl hholder => exact h.release hl hholder
  | releaseUp hpc hs => exact h.releaseUp hpc hs

end

end LockInv

/-! ## Runs -/

/-- Runs of threads that use semaphores. -/
abbrev CountedRuns (c : Counted) (ops : List SchedOp) (c' : Counted) : Prop :=
  Runs (fun c op c' => Counted.step c op = some c') (fun c op => c.sched.rightful op = true) c ops c'

/-- Runs of threads that use locks. -/
abbrev LockRuns (isLock : Nat → Bool) (s : Locks) (ops : List LockOp) (s' : Locks) : Prop :=
  Runs (fun s op s' => Locks.step isLock s op = some s') (fun _ _ => True) s ops s'

theorem LockInv.runs {isLock : Nat → Bool} {s s' : Locks} {ops : List LockOp}
    (h : LockInv isLock s) (hruns : LockRuns isLock s ops s') : LockInv isLock s' :=
  hruns.invariant (I := LockInv isLock) (fun hi _ hstep => hi.step hstep) h

theorem Counted.runs {v : Nat → Nat} {c c' : Counted} {ops : List SchedOp}
    (hq : c.sched.Queues (some c.sched.current)) (ha : c.Accounts v) (hb : c.sched.Balanced)
    (hruns : CountedRuns c ops c') : c'.Accounts v ∧ c'.sched.Balanced := by
  have hall := hruns.invariant
    (I := fun c => c.sched.Queues (some c.sched.current) ∧ c.Accounts v ∧ c.sched.Balanced)
    (by
      rintro c op c' ⟨hq, ha, hb⟩ hright hstep
      have hs := step_sched hstep
      obtain ⟨hen, hok⟩ := step_eq_some.mp hs
      exact ⟨(hq.exec op hen hright).1 _ hok, ha.step hstep, hb.step hq hs⟩)
    ⟨hq, ha, hb⟩
  exact hall.2

/-- **Semaphores and locks in every schedule.** The value of a semaphore is its initial value with
the completed ups and without the completed downs, up to the wrap-around of an `unsigned`; while
threads wait for it, its value is at most the number of threads that were woken from it and have
not looked again. At most one thread is between acquiring and releasing a lock, and the lock's
holder is that thread or not set. -/
theorem synch_correct :
    (∀ main v ops c, CountedRuns (Counted.init main v) ops c → ∀ k,
      (∃ wraps, v k + c.ups k = (c.sched.sema k).value + c.downs k + 2 ^ 32 * wraps) ∧
      (v k + c.ups k - c.downs k < 2 ^ 32 →
        (c.sched.sema k).value = v k + c.ups k - c.downs k ∧ c.downs k ≤ v k + c.ups k) ∧
      ((c.sched.sema k).waiters ≠ [] → (c.sched.sema k).value ≤ c.sched.woken k)) ∧
    ∀ isLock main v ops s, LockRuns isLock (Locks.init isLock main v) ops s →
      ∀ l, isLock l = true → (s.inside l).length ≤ 1 ∧
        ∀ t ∈ s.inside l, s.holder l = some t ∨ s.holder l = none := by
  constructor
  · intro main v ops c hruns k
    have hq : (Counted.init main v).sched.Queues (some main) := Sched.Queues.init main v
    have ha₀ : (Counted.init main v).Accounts v := fun k => ⟨0, rfl⟩
    have hb₀ : (Counted.init main v).sched.Balanced := fun k hne => absurd rfl hne
    obtain ⟨ha, hb⟩ := Counted.runs hq ha₀ hb₀ hruns
    obtain ⟨wraps, hw⟩ := ha k
    refine ⟨⟨wraps, hw⟩, fun hlt => ?_, hb k⟩
    have hle : c.downs k ≤ v k + c.ups k := by omega
    have hzero : wraps = 0 := by omega
    rw [hzero] at hw
    exact ⟨by omega, hle⟩
  · intro isLock main v ops s hruns l hl
    have h₀ : LockInv isLock (Locks.init isLock main v) := LockInv.init main v
    have h := h₀.runs hruns
    have hunit := h.unit l hl
    refine ⟨by omega, fun t ht => ?_⟩
    cases hh : s.holder l with
    | none => exact .inr rfl
    | some t' => exact .inl (congrArg some (h.unique hl (h.holder_inside l t' hh) ht))

/-- Thread 1 waits for the lock of `main`, which is then handed to it. -/
def contended : List LockOp :=
  [.sched (.create 1), .sched (.unblock 1), .acquire 0, .setHolder, .sched .yield, .acquire 0,
    .release 0, .releaseUp, .sched .yield, .resume]

/-- A thread waits for semaphore 0 and another one ups it; and the same with a lock. -/
theorem synch_correct_handover :
    (∃ c, CountedRuns (Counted.init 0 fun _ => 0) handover c ∧ c.ups 0 = 1 ∧ c.downs 0 = 0 ∧
      (c.sched.sema 0).value = 1 ∧ ∃ wraps, 0 + c.ups 0 =
        (c.sched.sema 0).value + c.downs 0 + 2 ^ 32 * wraps) ∧
    ∃ s, LockRuns (· == 0) (Locks.init (· == 0) 0 fun _ => 0) contended s ∧ s.inside 0 = [1] ∧
      ∀ t ∈ s.inside 0, s.holder 0 = some t ∨ s.holder 0 = none := by
  have hruns : CountedRuns (init 0 fun _ => 0) handover
      (handover.foldl (after step) (init 0 fun _ => 0)) :=
    runs_of_allows (fun (c : Counted) op => rightful c.sched op) (fun _ _ h => h)
      (by decide +kernel)
  have hlocks : LockRuns (· == 0) (Locks.init (· == 0) 0 fun _ => 0) contended
      (contended.foldl (after (Locks.step (· == 0))) (Locks.init (· == 0) 0 fun _ => 0)) :=
    runs_of_allows (fun _ _ => true) (fun _ _ _ => trivial) (by decide +kernel)
  exact ⟨⟨_, hruns, by decide +kernel, by decide +kernel, by decide +kernel,
    (synch_correct.1 0 _ _ _ hruns 0).1⟩, _, hlocks, by decide +kernel,
    (synch_correct.2 _ 0 _ _ _ hlocks 0 rfl).2⟩

/-- A semaphore of value `2 ^ 32 - 1` is empty after one up. -/
theorem semaUp_wraps :
    ∃ c, CountedRuns (Counted.init 0 fun _ => 2 ^ 32 - 1) [.up 0] c ∧
      c.ups 0 = 1 ∧ c.downs 0 = 0 ∧ (c.sched.sema 0).value = 0 := by
  refine ⟨[SchedOp.up 0].foldl (after step) (init 0 fun _ => 2 ^ 32 - 1),
    runs_of_allows (fun (c : Counted) op => rightful c.sched op) (fun _ _ h => h) (by decide +kernel),
    ?_⟩
  exact ⟨by decide +kernel, by decide +kernel, by decide +kernel⟩

end Pintos
