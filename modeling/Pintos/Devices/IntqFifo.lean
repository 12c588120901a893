import Pintos.Devices.Intq

/-!
# The bytes of an interrupt queue (`devices/intq.c`)

A queue holds the bytes from `tail` to `head` around its buffer, and one slot stays free. Next to
a run of `Devices/Intq` goes a log: the bytes given to the calls of `intq_putc` that completed,
and the bytes the completed calls of `intq_getc` returned.
-/

namespace Pintos

open Lib List

/-- The queue holds the bytes, the next one to go out first. -/
structure Intq.Holds (q : Intq) (bytes : List UInt8) : Prop where
  tail_lt : q.tail < 64
  head_eq : q.head = (q.tail + bytes.length) % 64
  room : bytes.length ≤ 63
  stored : ∀ i, i < bytes.length → bytes[i]? = some (q.buf ((q.tail + i) % 64))

namespace Intq.Holds

variable {q : Intq} {bytes : List UInt8}

section

variable (h : q.Holds bytes)
include h

theorem head_lt : q.head < 64 := by
  rw [h.head_eq]
  exact Nat.mod_lt _ (by decide)

theorem empty_iff : q.empty = true ↔ bytes.length = 0 := by
  have := h.tail_lt
  have := h.head_eq
  have := h.room
  rw [Intq.empty, beq_iff_eq]
  omega

theorem full_iff : q.full = true ↔ bytes.length = 63 := by
  have := h.tail_lt
  have := h.head_eq
  have := h.room
  rw [Intq.full, Intq.next, beq_iff_eq]
  omega

theorem getc (hne : q.empty = false) :
    ∃ rest, bytes = q.buf q.tail :: rest ∧ (q.transfer .getc).Holds rest := by
  cases bytes with
  | nil =>
    have hempty := h.empty_iff.mpr rfl
    rw [hne] at hempty
    cases hempty
  | cons b rest =>
    have htail := h.tail_lt
    have hroom := h.room
    rw [length_cons] at hroom
    have hb := h.stored 0 (Nat.succ_pos _)
    rw [List.getElem?_cons_zero, Nat.add_zero, Nat.mod_eq_of_lt htail] at hb
    obtain rfl := Option.some.inj hb
    refine ⟨rest, rfl, ⟨Nat.mod_lt _ (by decide), ?_, by omega, fun i hi => ?_⟩⟩
    · show q.head = ((q.tail + 1) % 64 + rest.length) % 64
      rw [h.head_eq, length_cons]
      omega
    · have hi' := h.stored (i + 1) (Nat.succ_lt_succ hi)
      rw [List.getElem?_cons_succ] at hi'
      have hat : ((q.tail + 1) % 64 + i) % 64 = (q.tail + (i + 1)) % 64 := by omega
      show rest[i]? = some (q.buf (((q.tail + 1) % 64 + i) % 64))
      rw [hat]
      exact hi'

theorem putc (hne : q.full = false) (b : UInt8) : (q.transfer (.putc b)).Holds (bytes ++ [b]) := by
  have htail := h.tail_lt
  have hhead := h.head_eq
  have hroom : bytes.length < 63 := by
    refine Nat.lt_of_le_of_ne h.room fun heq => ?_
    rw [h.full_iff.mpr heq] at hne
    cases hne
  refine ⟨htail, ?_, ?_, fun i hi => ?_⟩
  · show (q.head + 1) % 64 = (q.tail + (bytes ++ [b]).length) % 64
    rw [length_append, length_singleton]
    omega
  · rw [length_append, length_singleton]
    omega
  · rw [length_append, length_singleton] at hi
    show _ = some (Function.update q.buf q.head b ((q.tail + i) % 64))
    by_cases hlast : i = bytes.length
    · rw [hlast, ← hhead, Function.update_self, List.getElem?_concat_length]
    · have hi' : i < bytes.length := by omega
      rw [Function.update_of_ne (by omega), List.getElem?_append_left hi']
      exact h.stored i hi'

end

end Intq.Holds

/-! ## Completed calls -/

/-- The call that the step completes: its loop has ended. -/
def IntqState.completes (s : IntqState) : IntqOp → Option IntqCall
  | .call call => if s.q.unmet call.awaits then none else some call
  | .resume =>
    match s.pc s.current with
    | .waiting call => if s.q.unmet call.awaits then none else some call
    | _ => none
  | .interrupt call => some call
  | .sched _ => none

/-- The queue, but for its waiters, is left alone, or a call moves its byte. -/
def Intq.Moves (q q' : Intq) (c : Option IntqCall) : Prop :=
  ∃ w, match c with
    | none => q' = { q with waiter := w }
    | some call => q.unmet call.awaits = false ∧ q' = { q.transfer call with waiter := w }

namespace IntqState

variable {s s' : IntqState} {call : IntqCall}

theorem finish_q (hs : s.finish call = .ok s') :
    ∃ w, s'.q = { s.q.transfer call with waiter := w } := by
  unfold finish signal at hs
  split at hs
  · cases hs
  split at hs
  · obtain ⟨sched, -, rfl⟩ := run_eq_ok hs
    exact ⟨_, rfl⟩
  · cases hs
    exact ⟨_, rfl⟩

theorem acquireRound_q (hs : s.acquireRound call = .ok s') :
    ∃ w, s'.q = { s.q with waiter := w } := by
  unfold acquireRound at hs
  split at hs
  · cases hd : s.sched.semaDown s.lock with
    | error p =>
      rw [hd] at hs
      cases hs
    | ok d =>
      simp only [hd, run, bind, Except.bind, wait] at hs
      split at hs
      · obtain ⟨sched, -, rfl⟩ := run_eq_ok hs
        exact ⟨_, rfl⟩
      · cases hs
  · obtain ⟨sched, -, rfl⟩ := run_eq_ok hs
    exact ⟨_, rfl⟩

theorem loop_moves (hs : s.loop call = .ok s') :
    s.q.Moves s'.q (if s.q.unmet call.awaits then none else some call) := by
  unfold loop at hs
  split at hs
  · next hunmet =>
    rw [if_pos hunmet]
    split at hs
    · cases hs
    · exact acquireRound_q hs
  · next hmet =>
    rw [if_neg hmet]
    obtain ⟨w, hw⟩ := finish_q hs
    exact ⟨w, eq_false_of_ne_true hmet, hw⟩

theorem release_q (hs : s.release = .ok s') : s'.q = s.q := by
  unfold release at hs
  split at hs
  · obtain ⟨sched, -, rfl⟩ := run_eq_ok hs
    rfl
  · cases hs

/-- **What a step does to the bytes.** -/
theorem step_moves {op : IntqOp} (hs : s.step op = some s') : s.q.Moves s'.q (s.completes op) := by
  obtain ⟨hen, hex⟩ := step_eq_some.mp hs
  cases op with
  | call call => exact loop_moves hex
  | resume =>
    simp only [exec] at hex
    cases hpc : s.pc s.current with
    | acquiring call =>
      rw [hpc] at hex
      simp only [completes, hpc]
      exact acquireRound_q hex
    | waiting call =>
      rw [hpc] at hex
      cases hr : s.release with
      | error p =>
        rw [hr] at hex
        cases hex
      | ok r =>
        rw [hr] at hex
        have hmoves := loop_moves hex
        rw [release_q hr] at hmoves
        simp only [completes, hpc]
        exact hmoves
    | out =>
      simp only [enabled, hpc] at hen
      cases hen
  | interrupt call =>
    obtain ⟨w, hw⟩ := finish_q hex
    simp only [enabled, Bool.and_eq_true, Bool.not_eq_true'] at hen
    exact ⟨w, hen.2, hw⟩
  | sched op =>
    obtain ⟨sched, -, rfl⟩ := run_eq_ok hex
    exact ⟨_, rfl⟩

end IntqState

/-! ## The log of a run -/

/-- The bytes given to `intq_putc` and those returned by `intq_getc`. -/
structure IntqLog where
  given : List UInt8
  returned : List UInt8

namespace IntqLog

/-- The entry for a call that completes. `intq_getc` returns the byte at `tail`. -/
def add (log : IntqLog) (q : Intq) : Option IntqCall → IntqLog
  | none => log
  | some .getc => { log with returned := log.returned ++ [q.buf q.tail] }
  | some (.putc byte) => { log with given := log.given ++ [byte] }

/-- A step, with the log. -/
def step (x : IntqState × IntqLog) (op : IntqOp) : Option (IntqState × IntqLog) :=
  (x.1.step op).map fun s' => (s', x.2.add x.1.q (x.1.completes op))

/-- The bytes that have not been returned. -/
def outstanding (log : IntqLog) : Nat := log.given.length - log.returned.length

/-- What has been given has been returned, or is in the queue. -/
def Inv (x : IntqState × IntqLog) : Prop :=
  ∃ bytes, x.2.given = x.2.returned ++ bytes ∧ x.1.q.Holds bytes

theorem Inv.step {x x' : IntqState × IntqLog} {op : IntqOp} (h : Inv x)
    (hs : IntqLog.step x op = some x') : Inv x' := by
  obtain ⟨bytes, hgiven, hq⟩ := h
  obtain ⟨s', hstep, rfl⟩ := Option.map_eq_some_iff.mp hs
  obtain ⟨w, hw⟩ := IntqState.step_moves hstep
  unfold Inv
  cases hc : x.1.completes op with
  | none =>
    simp only [hc] at hw
    rw [hw]
    exact ⟨bytes, hgiven, ⟨hq.tail_lt, hq.head_eq, hq.room, hq.stored⟩⟩
  | some call =>
    simp only [hc] at hw
    obtain ⟨hmet, hw⟩ := hw
    rw [hw]
    cases call with
    | getc =>
      obtain ⟨rest, rfl, hrest⟩ := hq.getc hmet
      refine ⟨rest, ?_, ⟨hrest.tail_lt, hrest.head_eq, hrest.room, hrest.stored⟩⟩
      show x.2.given = (x.2.returned ++ [_]) ++ rest
      rw [hgiven, append_assoc, singleton_append]
    | putc b =>
      have hput := hq.putc hmet b
      refine ⟨bytes ++ [b], ?_, ⟨hput.tail_lt, hput.head_eq, hput.room, hput.stored⟩⟩
      show x.2.given ++ [b] = x.2.returned ++ (bytes ++ [b])
      rw [hgiven, append_assoc]

end IntqLog

/-- The state behind `intq_init`, which leaves the buffer as it is. -/
def IntqState.initOn (main lock : Nat) (v : Nat → Nat) (buf : Nat → UInt8) : IntqState :=
  { IntqState.init main lock v with q := ⟨buf, 0, 0, fun _ => none⟩ }

/-- **The interrupt queue is a FIFO.** -/
theorem intq_fifo {main lock : Nat} {v : Nat → Nat} {buf : Nat → UInt8} {ops : List IntqOp}
    {s : IntqState} {log : IntqLog}
    (hruns : Runs (fun x op x' => IntqLog.step x op = some x') (fun _ _ => True)
      (.initOn main lock v buf, ⟨[], []⟩) ops (s, log)) :
    s.q.head < 64 ∧ s.q.tail < 64 ∧ log.returned <+: log.given ∧ log.outstanding ≤ 63 ∧
      (s.q.empty = true ↔ log.outstanding = 0) ∧ (s.q.full = true ↔ log.outstanding = 63) := by
  obtain ⟨bytes, hgiven, hq⟩ : IntqLog.Inv (s, log) :=
    Runs.invariant (I := IntqLog.Inv) (fun hi _ hs => hi.step hs) hruns
      ⟨[], rfl, ⟨Nat.zero_lt_succ 63, rfl, Nat.zero_le 63, nofun⟩⟩
  have hgiven : log.given = log.returned ++ bytes := hgiven
  have hout : log.outstanding = bytes.length := by
    rw [IntqLog.outstanding, hgiven, length_append, Nat.add_sub_cancel_left]
  rw [hout]
  exact ⟨hq.head_lt, hq.tail_lt, ⟨bytes, hgiven.symm⟩, hq.room, hq.empty_iff, hq.full_iff⟩

/-- A reader waits, two bytes come, and the reader goes on. -/
def readerAndBytes : List IntqOp :=
  oneReader ++ [.interrupt (.putc 97), .interrupt (.putc 98), .sched .yield, .resume]

theorem intq_fifo_readerAndBytes :
    ∃ log : IntqLog, log.returned = [97] ∧ log.returned <+: log.given ∧ log.outstanding = 1 := by
  have hruns : Runs (fun x op x' => IntqLog.step x op = some x') (fun _ _ => True)
      (.initOn 0 0 (fun _ => 0) (fun _ => 0), ⟨[], []⟩) readerAndBytes
      (readerAndBytes.foldl (after IntqLog.step) (.initOn 0 0 (fun _ => 0) (fun _ => 0), ⟨[], []⟩)) :=
    runs_of_allows (fun _ _ => true) (fun _ _ _ => trivial) (by decide +kernel)
  exact ⟨_, by decide +kernel, (intq_fifo hruns).2.2.1, by decide +kernel⟩

end Pintos
