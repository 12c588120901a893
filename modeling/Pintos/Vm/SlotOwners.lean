import Pintos.Lib.Ownership
import Pintos.Vm.Interleaving

/-!
# Who has a swap slot

The sectors of a slot belong to the supplemental entry that refers to it, to the thread whose
`swap_write` has just taken it, or to the thread whose `supdir_destroy` is about to give it up by
`swap_remove`. An entry whose slot has been given up does not hold it any more, though it keeps the
number until the table is freed. A sector is in use when its bit in `swap_table` is set.

`swap_remove` clears the first bit only, and a slot that is written again leaves all its bits behind,
so that free runs of eight bits may start anywhere. But no bit of a slot that has a holder is ever
cleared.
-/

namespace Pintos

open Lib Function List Pc Vm

/-- A supplemental entry, or a thread in `swap_write` or before `swap_remove`. -/
inductive SlotHolder
  | entry (t va : Nat)
  | thread (t : Nat)
  deriving DecidableEq, Repr

namespace Pc

/-- The slot that a thread has taken or is about to give up. -/
def slot : Pc → Option Nat
  | .evict _ (.write sector _) | .evict _ (.record sector) | .swapRemove sector _ _ => some sector
  | _ => none

/-- The entry of page `va` holds its slot: `supdir_destroy` has neither given the slot up nor freed
the table. -/
def holdsSlot (va : Nat) : Pc → Bool
  | .supdirDestroy _ removed | .swapRemove _ _ removed => va ∉ removed
  | .processExit => false
  | _ => true

/-- The addresses that `supdir_destroy` has not visited. -/
def unvisited : Pc → List Nat
  | .supdirDestroy todo _ | .swapRemove _ todo _ => todo
  | _ => []

end Pc

namespace Sys

variable {F : Type}

/-- The slot that the entry of page `va` of `t` holds. -/
def swapSlot (s : Sys F) (t va : Nat) : Option Nat :=
  match s.vm.spte t va with
  | some e => if e.location = .swap ∧ (s.pc t).holdsSlot va = true then some e.sector else none
  | none => none

/-- The slot of a holder. -/
def slotOf (s : Sys F) : SlotHolder → Option Nat
  | .entry t va => s.swapSlot t va
  | .thread t => (s.pc t).slot

/-- The sectors of a holder. -/
def ownsSector (s : Sys F) (k : SlotHolder) (j : Nat) : Prop :=
  ∃ sector, s.slotOf k = some sector ∧ InSlot sector j

/-- The sectors of the device whose bit is set. -/
def sectorUsed (table : Bitmap) (j : Nat) : Prop := j < table.bitCnt ∧ bitmapTest table j = true

/-- The invariant. -/
structure SlotInv (s : Sys F) : Prop where
  owned : Owned s.ownsSector (sectorUsed s.vm.swapTable)
  size : s.vm.swapTable.bitCnt = s.vm.swapDev.size
  visit : ∀ t, (s.pc t).unvisited.Nodup ∧ ∀ va ∈ (s.pc t).unvisited, (s.pc t).holdsSlot va = true
  sector : ∀ t c sector k, s.pc t = .evict c (.write sector k) → k < 8

section Steps

variable {s s' : Sys F} {t : Nat} {pc : Pc}

theorem swapSlot_iff {va i : Nat} :
    s.swapSlot t va = some i ↔ ∃ e, s.vm.spte t va = some e ∧ e.location = .swap ∧ e.sector = i ∧
      (s.pc t).holdsSlot va = true := by
  unfold swapSlot
  split
  · next e he =>
    constructor
    · intro h
      split at h
      · next hin => exact ⟨e, he, hin.1, Option.some.inj h, hin.2⟩
      · cases h
    · rintro ⟨e', he', hloc, rfl, hin⟩
      cases he.symm.trans he'
      exact if_pos ⟨hloc, hin⟩
  · next hnone => simp [hnone]

theorem ownsSector_entry {va j : Nat} {e : Spte} (he : s.vm.spte t va = some e)
    (hloc : e.location = .swap) (hin : (s.pc t).holdsSlot va = true) (hj : InSlot e.sector j) :
    s.ownsSector (.entry t va) j :=
  ⟨e.sector, swapSlot_iff.mpr ⟨e, he, hloc, rfl, hin⟩, hj⟩

/-- Who has a sector after a step of thread `t`: an entry, `t` itself, or another thread that had it
before. -/
theorem ownsSector_cases (hpc : s'.pc = update s.pc t pc) {k : SlotHolder} {j : Nat}
    (hown : s'.ownsSector k j) :
    (∃ t' va e, k = .entry t' va ∧ s'.vm.spte t' va = some e ∧ e.location = .swap ∧
      InSlot e.sector j ∧ (t' = t → pc.holdsSlot va = true) ∧
      (t' ≠ t → (s.pc t').holdsSlot va = true)) ∨
    (k = .thread t ∧ ∃ i, pc.slot = some i ∧ InSlot i j) ∨
    (k ≠ .thread t ∧ (∃ t', k = .thread t') ∧ s.ownsSector k j) := by
  obtain ⟨i, hi, hj⟩ := hown
  cases k with
  | entry t' va =>
    obtain ⟨e, he, hloc, rfl, hin⟩ := swapSlot_iff.mp hi
    refine .inl ⟨t', va, e, rfl, he, hloc, hj, fun ht => ?_, fun ht => ?_⟩
    · rwa [hpc, ht, update_self] at hin
    · rwa [hpc, update_of_ne ht] at hin
  | thread t' =>
    change (s'.pc t').slot = some i at hi
    rw [hpc] at hi
    by_cases ht : t' = t
    · subst ht
      rw [update_self] at hi
      exact .inr (.inl ⟨rfl, i, hi, hj⟩)
    · rw [update_of_ne ht] at hi
      exact .inr (.inr ⟨by simp [ht], ⟨t', rfl⟩, i, hi, hj⟩)

/-- The invariant after a step of thread `t`, from what the step does to the holders. -/
theorem SlotInv.of_owned (h : SlotInv s) (hpc : s'.pc = update s.pc t pc)
    (howned : Owned s'.ownsSector (sectorUsed s'.vm.swapTable))
    (hsize : s'.vm.swapTable.bitCnt = s'.vm.swapDev.size)
    (hvisit : pc.unvisited.Nodup ∧ ∀ va ∈ pc.unvisited, pc.holdsSlot va = true)
    (hsector : ∀ c sector k, pc = .evict c (.write sector k) → k < 8) : SlotInv s' := by
  refine ⟨howned, hsize, fun t' => ?_, fun t' c sector k hp => ?_⟩
  · rw [hpc]
    by_cases ht : t' = t
    · subst ht
      rwa [update_self]
    · rw [update_of_ne ht]
      exact h.visit t'
  · rw [hpc] at hp
    by_cases ht : t' = t
    · subst ht
      rw [update_self] at hp
      exact hsector c sector k hp
    · rw [update_of_ne ht] at hp
      exact h.sector t' c sector k hp

/-- Going from `pc` to `pc'` takes no slot and brings no entry back. -/
structure SlotQuiet (pc pc' : Pc) : Prop where
  slot : ∀ i, pc'.slot = some i → pc.slot = some i
  holdsSlot : ∀ va, pc'.holdsSlot va = true → pc.holdsSlot va = true

theorem ownsSector_quiet (hpc : s'.pc = update s.pc t pc) (hq : SlotQuiet (s.pc t) pc)
    (hspte : ∀ t va e, s'.vm.spte t va = some e → e.location = .swap → s.vm.spte t va = some e)
    {k : SlotHolder} {j : Nat} (hown : s'.ownsSector k j) : s.ownsSector k j := by
  rcases ownsSector_cases hpc hown with ⟨t', va, e, rfl, he, hloc, hj, hself, hother⟩ |
    ⟨rfl, i, hi, hj⟩ | ⟨-, -, hold⟩
  · refine ownsSector_entry (hspte t' va e he hloc) hloc ?_ hj
    by_cases ht : t' = t
    · subst ht
      exact hq.holdsSlot va (hself rfl)
    · exact hother ht
  · exact ⟨i, hq.slot i hi, hj⟩
  · exact hold

section

variable (h : SlotInv s)
include h

theorem SlotInv.flip {c : EvictLocals} {i : Nat} {table : Bitmap} (hat : s.pc t = .evict c .flip)
    (hflip : bitmapScanAndFlip s.vm.swapTable 0 8 false = (some i, table))
    (hpc : s'.pc = update s.pc t (.evict c (.write i 0)))
    (hvm : s'.vm = { s.vm with swapTable := table }) : SlotInv s' := by
  obtain ⟨hin, hcnt, hclear, htest⟩ := bitmapScanAndFlip_some hflip
  have htable : s'.vm.swapTable = table := by rw [hvm]
  have hspte : ∀ t va, s'.vm.spte t va = s.vm.spte t va := fun t va => by rw [hvm]; rfl
  refine h.of_owned hpc ?_ ?_ ⟨nodup_nil, by simp [unvisited]⟩ ?_
  · rw [htable]
    refine h.owned.acquire (.thread t) (InSlot i) (fun {k j} hown => ?_) (fun {k j} hj hown => ?_)
      (fun {j} hj => ?_)
    · rcases ownsSector_cases hpc hown with ⟨t', va, e, rfl, he, hloc, hj, -, hother⟩ |
        ⟨rfl, i', hi', hj⟩ | ⟨-, -, hold⟩
      · rw [hspte] at he
        refine .inl (ownsSector_entry he hloc ?_ hj)
        by_cases ht : t' = t
        · rw [ht, hat]
          rfl
        · exact hother ht
      · cases hi'
        exact .inr ⟨rfl, hj⟩
      · exact .inl hold
    · have := hclear (j - i) (by omega)
      rw [Nat.add_sub_cancel' hj.1, (h.owned.used hown).2] at this
      cases this
    · rcases hj with ⟨hlt, hset⟩ | hj
      · exact ⟨by rw [hcnt]; exact hlt, by rw [htest, hset]; simp⟩
      · exact ⟨by rw [hcnt]; omega, by rw [htest]; simp [hj.1, hj.2]⟩
  · rw [htable, hcnt, h.size, hvm]
  · intro c' sector k hp
    cases hp
    decide

theorem SlotInv.record {c : EvictLocals} {src : Option Nat} {i : Nat} {p' : EvictPc}
    (hat : s.pc t = .evict c (.record i))
    (hstep : s.vm.evictStep src c.victim c.oldAddr (.record i) = some (p', s'.vm))
    (hpc : s'.pc = update s.pc t (.evict c p')) : SlotInv s' := by
  have hspte := evictStep_spte hstep
  obtain ⟨pr, -, rfl, hvm⟩ := evictStep_record hstep
  have htable : s'.vm.swapTable = s.vm.swapTable := by rw [hvm]; rfl
  refine h.of_owned hpc ?_ ?_ ⟨nodup_nil, by simp [unvisited]⟩ (by simp)
  · rw [htable]
    refine h.owned.transfer (.thread t) (.entry c.victim c.oldAddr) (fun {k j} hown => ?_) id
    rcases ownsSector_cases hpc hown with ⟨t', va, e, rfl, he, hloc, hj, -, hother⟩ |
      ⟨rfl, i', hi', -⟩ | ⟨hk, -, hold⟩
    · rcases hspte t' va with hsame | ⟨sector, hsec, rfl, rfl, hset⟩
      · rw [hsame] at he
        refine .inr ⟨by simp, ownsSector_entry he hloc ?_ hj⟩
        by_cases ht : t' = t
        · rw [ht, hat]
          rfl
        · exact hother ht
      · cases hsec
        rw [hset] at he
        obtain ⟨e₀, -, rfl⟩ := Option.map_eq_some_iff.mp he
        exact .inl ⟨rfl, i, by show (s.pc t).slot = some i; rw [hat]; rfl, hj⟩
    · cases hi'
    · exact .inr ⟨hk, hold⟩
  · rw [htable, h.size, hvm]
    rfl

theorem SlotInv.pick {va : Nat} {todo removed : List Nat} {e : Spte}
    (hat : s.pc t = .supdirDestroy (va :: todo) removed) (he : s.vm.spte t va = some e)
    (hloc : e.location = .swap)
    (hpc : s'.pc = update s.pc t (.swapRemove e.sector todo (va :: removed))) (hvm : s'.vm = s.vm) :
    SlotInv s' := by
  obtain ⟨hnodup, hholds⟩ := h.visit t
  rw [hat] at hnodup hholds
  obtain ⟨hnot, hnodup⟩ := nodup_cons.mp hnodup
  refine h.of_owned hpc ?_ (by rw [hvm, h.size]) ⟨hnodup, fun x hx => ?_⟩ (by simp)
  · rw [hvm]
    refine h.owned.transfer (.entry t va) (.thread t) (fun {k j} hown => ?_) id
    rcases ownsSector_cases hpc hown with ⟨t', x, e', rfl, he', hloc', hj, hself, hother⟩ |
      ⟨rfl, i, hi, hj⟩ | ⟨hk, ⟨t', rfl⟩, hold⟩
    · rw [hvm] at he'
      by_cases ht : t' = t
      · subst ht
        have hx := hself rfl
        simp only [holdsSlot, mem_cons, not_or, decide_eq_true_eq] at hx
        refine .inr ⟨fun heq => hx.1 (by cases heq; rfl), ownsSector_entry he' hloc' ?_ hj⟩
        rw [hat]
        simp [holdsSlot, hx.2]
      · refine .inr ⟨fun heq => ht (by cases heq; rfl), ownsSector_entry he' hloc' (hother ht) hj⟩
    · cases hi
      refine .inl ⟨rfl, ownsSector_entry he hloc ?_ hj⟩
      rw [hat]
      exact hholds va mem_cons_self
    · exact .inr ⟨by simp, hold⟩
  · have hx' := hholds x (mem_cons_of_mem _ hx)
    simp only [holdsSlot, decide_eq_true_eq] at hx'
    simp only [holdsSlot, mem_cons, not_or, decide_eq_true_eq]
    exact ⟨fun heq => hnot (heq ▸ hx), hx'⟩

theorem SlotInv.remove {sector : Nat} {todo removed : List Nat} {table : Bitmap}
    (hat : s.pc t = .swapRemove sector todo removed)
    (hrem : swapRemove s.vm.swapTable sector = some table)
    (hpc : s'.pc = update s.pc t (.supdirDestroy todo removed))
    (hvm : s'.vm = { s.vm with swapTable := table }) : SlotInv s' := by
  obtain ⟨-, rfl⟩ := swapRemove_some hrem
  have htable : s'.vm.swapTable = bitmapReset s.vm.swapTable sector := by rw [hvm]
  have hspte : ∀ t va, s'.vm.spte t va = s.vm.spte t va := fun t va => by rw [hvm]; rfl
  have hvisit := h.visit t
  rw [hat] at hvisit
  refine h.of_owned hpc ?_ ?_ hvisit (by simp)
  · rw [htable]
    refine h.owned.release (.thread t) (· = sector) (fun {j} hj => ?_) (fun {k j} hown => ?_)
      (fun {j} hused hne => ⟨hused.1, ?_⟩)
    · refine ⟨sector, ?_, by omega⟩
      show (s.pc t).slot = some sector
      rw [hat]
      rfl
    · rcases ownsSector_cases hpc hown with ⟨t', va, e, rfl, he, hloc, hj, hself, hother⟩ |
        ⟨rfl, i, hi, -⟩ | ⟨hk, -, hold⟩
      · rw [hspte] at he
        refine ⟨by simp, ownsSector_entry he hloc ?_ hj⟩
        by_cases ht : t' = t
        · rw [ht, hat]
          exact hself ht
        · exact hother ht
      · cases hi
      · exact ⟨hk, hold⟩
    · rw [bitmapTest_reset, hused.2]
      simp [Ne.symm hne]
  · rw [htable, bitmapReset_bitCnt, h.size, hvm]

theorem SlotInv.quiet (hpc : s'.pc = update s.pc t pc) (hq : SlotQuiet (s.pc t) pc)
    (hspte : ∀ t va e, s'.vm.spte t va = some e → e.location = .swap → s.vm.spte t va = some e)
    (hused : ∀ {j}, sectorUsed s.vm.swapTable j → sectorUsed s'.vm.swapTable j)
    (hsize : s'.vm.swapTable.bitCnt = s'.vm.swapDev.size)
    (hvisit : pc.unvisited.Nodup ∧ ∀ va ∈ pc.unvisited, pc.holdsSlot va = true)
    (hsector : ∀ c sector k, pc = .evict c (.write sector k) → k < 8) : SlotInv s' :=
  h.of_owned hpc (h.owned.mono (ownsSector_quiet hpc hq hspte) hused) hsize hvisit hsector

theorem SlotInv.goto (hpc : s'.pc = update s.pc t pc) (hat : ∀ va, (s.pc t).holdsSlot va = true)
    (hslot : pc.slot = none) (hvisit : pc.unvisited = [])
    (hspte : ∀ t va e, s'.vm.spte t va = some e → e.location = .swap → s.vm.spte t va = some e)
    (hused : ∀ {j}, sectorUsed s.vm.swapTable j → sectorUsed s'.vm.swapTable j)
    (hsize : s'.vm.swapTable.bitCnt = s'.vm.swapDev.size) : SlotInv s' := by
  refine h.quiet hpc ⟨by simp [hslot], fun va _ => hat va⟩ hspte hused hsize
    (by simp [hvisit]) (fun c sector k hp => ?_)
  rw [hp] at hslot
  cases hslot

theorem SlotInv.destruct {pr : Process} (hpc : s'.pc = update s.pc t (destroyList pr))
    (hat : ∀ va, (s.pc t).holdsSlot va = true)
    (hspte : ∀ t va e, s'.vm.spte t va = some e → e.location = .swap → s.vm.spte t va = some e)
    (hused : ∀ {j}, sectorUsed s.vm.swapTable j → sectorUsed s'.vm.swapTable j)
    (hsize : s'.vm.swapTable.bitCnt = s'.vm.swapDev.size) : SlotInv s' :=
  h.quiet hpc ⟨by simp [destroyList, slot], fun va _ => hat va⟩ hspte hused hsize
    ⟨pr.supdir.nodup, by simp [destroyList, holdsSlot]⟩ (by simp [destroyList])

theorem SlotInv.evict {c : EvictLocals} {src : Option Nat} {p p' : EvictPc}
    (hat : s.pc t = .evict c p) (hslot : p = .flip → s.vm.hasSlot = true)
    (hstep : s.vm.evictStep src c.victim c.oldAddr p = some (p', s'.vm))
    (hpc : s'.pc = update s.pc t (.evict c p')) : SlotInv s' := by
  have hholds : ∀ va, (s.pc t).holdsSlot va = true := fun _ => by rw [hat]; rfl
  cases p with
  | test =>
    obtain ⟨hvm, hp'⟩ := evictStep_test hstep
    rcases hp' with rfl | rfl <;>
      exact h.goto hpc hholds rfl rfl (by rw [hvm]; exact fun _ _ _ he _ => he)
        (by rw [hvm]; exact id) (by rw [hvm, h.size])
  | flip =>
    rcases evictStep_flip hstep with ⟨i, table, hflip, rfl, hvm⟩ | ⟨hnone, -, -⟩
    · exact h.flip hat hflip hpc hvm
    · have := hslot rfl
      rw [hasSlot, hnone] at this
      cases this
  | write sector k =>
    obtain ⟨a, dev, -, hdev, rfl, hvm⟩ := evictStep_write hstep
    obtain ⟨-, hsize, -⟩ := blockWrite_some hdev
    have hspte : ∀ t va e, s'.vm.spte t va = some e → e.location = .swap →
        s.vm.spte t va = some e := by
      rw [hvm]
      exact fun _ _ _ he _ => he
    refine h.quiet hpc ⟨fun i hi => ?_, fun va _ => hholds va⟩ hspte (by rw [hvm]; exact id)
      (by rw [hvm]; exact h.size.trans hsize.symm) ?_ (fun c' sector' k' hp => ?_)
    · rw [hat]
      split at hi <;> exact hi
    · split <;> exact ⟨nodup_nil, by simp [unvisited]⟩
    · split at hp
      · cases hp
        assumption
      · cases hp
  | record sector => exact h.record hat hstep hpc
  | clear =>
    obtain ⟨pr, hpr, rfl, hvm⟩ := evictStep_clear hstep
    refine h.goto hpc hholds rfl rfl (fun t' va e he _ => ?_) (by rw [hvm]; exact id)
      (by rw [hvm]; exact h.size)
    rwa [hvm, spte_setPagedir_self hpr] at he
  | done => cases hstep

theorem SlotInv.processExit {pd : Pagedir} {todo : List Nat}
    (hpc : s'.pc = update s.pc t (.pagedirDestroy pd todo))
    (hvm : s'.vm = { s.vm with procs := update s.vm.procs t none }) : SlotInv s' := by
  have hspte : ∀ t' va, s'.vm.spte t' va = if t' = t then none else s.vm.spte t' va := by
    intro t' va
    rw [hvm]
    unfold spte
    by_cases ht : t' = t
    · subst ht
      simp
    · simp [ht]
  refine h.of_owned hpc (h.owned.mono (fun {k j} hown => ?_) (by rw [hvm]; exact id))
    (by rw [hvm]; exact h.size) ⟨nodup_nil, by simp [unvisited]⟩ (by simp)
  rcases ownsSector_cases hpc hown with ⟨t', va, e, rfl, he, hloc, hj, -, hother⟩ |
    ⟨rfl, i, hi, -⟩ | ⟨-, -, hold⟩
  · rw [hspte] at he
    split at he
    · cases he
    · next ht => exact ownsSector_entry he hloc (hother ht) hj
  · cases hi
  · exact hold

end

theorem spte_new {vm : Vm F} {pr : Process} (hreg : pr.supdir.Registered) (t' va : Nat) (e : Spte)
    (he : (vm.setProc t pr).spte t' va = some e) (hloc : e.location = .swap) :
    vm.spte t' va = some e := by
  rw [spte_setProc] at he
  split at he
  · exact absurd hloc (hreg va e he).not_swap
  · exact he

end Steps

/-! ## Every run -/

variable [FrameTableOps F] {s s' : Sys F}

/-- `swap_write` finds a slot. -/
def findsSlot (s : Sys F) : Act → Bool
  | .run _ t =>
    match s.pc t with
    | .evict _ .flip => s.vm.hasSlot
    | _ => true
  | _ => true

theorem SlotInv.step {e : Act} (h : SlotInv s) (hok : s.findsSlot e = true) (hstep : Step s e s') :
    SlotInv s' := by
  cases trans_of_step hstep with
  | getPage hpc _ | noPage hpc | insert hpc _ | select hpc _ _ _ _ | rekey hpc _ _ | zero hpc
  | noEntry hpc _ | found hpc _ _ | notFound hpc _ _ | tryDown hpc | up hpc | freePage hpc _
  | freeFrame hpc _ _ | exited hpc | pageIn hpc =>
    exact h.goto rfl (by rw [hpc]; exact fun _ => rfl) rfl rfl (fun _ _ _ he _ => he) id h.size
  | @evict a t c pc pc' vm hpc _ hev =>
    refine h.evict hpc (fun hflip => ?_) hev rfl
    rw [hflip] at hpc
    simpa [findsSlot, hpc] using hok
  | rekeyNull hpc _ _ _ | noStack hpc _ | quit hpc _ =>
    exact h.destruct rfl (by rw [hpc]; exact fun _ => rfl) (fun _ _ _ he _ => he) id h.size
  | fill hpc _ hfill =>
    refine h.goto rfl (by rw [hpc]; exact fun _ => rfl) rfl rfl (fun _ _ _ he _ => he) ?_ ?_
    · rcases fillFrame_table hfill with rfl | rfl
      · exact id
      · exact fun hj => ⟨hj.1, by rw [bitmapTest_mark, hj.2, Bool.or_true]⟩
    · rcases fillFrame_table hfill with rfl | rfl <;> exact h.size
  | @install a t request page frame new writable pr ok pd hpc hpr hset =>
    refine h.goto rfl (by rw [hpc]; exact fun _ => rfl) ?_ ?_ (fun t' va e he _ => ?_) id h.size
    · cases request <;> rfl
    · cases request <;> rfl
    · rwa [spte_setPagedir_self hpr] at he
  | @supdirSkip a t va todo removed hpc =>
    have hvisit := h.visit t
    rw [hpc] at hvisit
    refine h.quiet rfl (by rw [hpc]; exact ⟨by simp [slot], fun _ hin => hin⟩)
      (fun _ _ _ he _ => he) id h.size ⟨(nodup_cons.mp hvisit.1).2, fun x hx => ?_⟩ (by simp)
    exact hvisit.2 x (mem_cons_of_mem _ hx)
  | supdirPick hpc hspte hloc => exact h.pick hpc hspte hloc rfl rfl
  | swapRemove hpc hrem => exact h.remove hpc hrem rfl rfl
  | supdirFree hpc =>
    exact h.quiet rfl ⟨by simp [slot], by simp [holdsSlot]⟩ (fun _ _ _ he _ => he) id h.size
      ⟨nodup_nil, by simp [unvisited]⟩ (by simp)
  | processExit hpc hpr => exact h.processExit rfl rfl
  | load hpc =>
    exact h.goto rfl (by rw [hpc]; exact fun _ => rfl) rfl rfl
      (spte_new (imageSupdir_registered _ _)) id h.size
  | loadFail hpc =>
    exact h.destruct rfl (by rw [hpc]; exact fun _ => rfl)
      (spte_new (loadPhdrs_registered registered_create)) id h.size
  | @store t va b vm hpc hp hst =>
    obtain ⟨hst, -⟩ := storeByte_ok hst
    have hstay : s.pc = update s.pc t .user := by rw [← hpc, update_eq_self]
    refine h.goto hstay (by rw [hpc]; exact fun _ => rfl) rfl rfl
      (fun t' va e he _ => ?_) ?_ ?_
    · rwa [hst.spte] at he
    · rw [hst.swapTable]
      exact id
    · rw [hst.swapTable, hst.swapDev, h.size]
  | nothing => exact h

theorem Boot.slotInv (h : Boot s) : SlotInv s := by
  have hown : ∀ k j, ¬ s.ownsSector k j := by
    rintro k j ⟨i, hi, -⟩
    cases k with
    | entry t va =>
      obtain ⟨e, he, -⟩ := swapSlot_iff.mp hi
      unfold spte at he
      rw [h.vm.procs] at he
      cases he
    | thread t =>
      change (s.pc t).slot = some i at hi
      rw [h.pc] at hi
      cases hi
  exact
    { owned := ⟨fun hk => absurd hk (hown _ _), fun hk => absurd hk (hown _ _)⟩
      size := h.swapInit
      visit := fun t => by rw [h.pc]; exact ⟨nodup_nil, by simp [unvisited]⟩
      sector := fun t c sector k hp => by rw [h.pc] at hp; cases hp }

/-- **Swap slots never overlap.** However the threads interleave, as long as `swap_write` finds slots:
the slots of any two swapped-out pages are disjoint and lie on the swap device, and a sector that
`swap_write` is about to write lies in no slot that an entry holds. -/
theorem slots_disjoint {s₀ : Sys F} {es : List Act} (hboot : Boot s₀)
    (hrun : Runs Step (fun s e => s.findsSlot e = true) s₀ es s) :
    (∀ t va t' va' i i', s.swapSlot t va = some i → s.swapSlot t' va' = some i' →
      t ≠ t' ∨ va ≠ va' → SlotsDisjoint i i') ∧
    (∀ t va i, s.swapSlot t va = some i → i + 8 ≤ s.vm.swapDev.size) ∧
    (∀ t c sector k, s.pc t = .evict c (.write sector k) →
      ∀ t' va i, s.swapSlot t' va = some i → ¬ InSlot i (sector + k)) := by
  have h : SlotInv s :=
    Runs.invariant (fun hi hok hstep => SlotInv.step hi hok hstep) hrun hboot.slotInv
  have hentry : ∀ {t va i j}, s.swapSlot t va = some i → InSlot i j →
      s.ownsSector (.entry t va) j := fun hi hj => ⟨_, hi, hj⟩
  refine ⟨fun t va t' va' i i' hi hi' hne => ?_, fun t va i hi => ?_,
    fun t c sector k hpc t' va i hi hin => ?_⟩
  · by_contra hover
    -- The later of the two first sectors lies in both slots.
    have hboth : InSlot i (max i i') ∧ InSlot i' (max i i') := by omega
    have heq := h.owned.excl (hentry hi hboth.1) (hentry hi' hboth.2)
    cases heq
    exact hne.elim (fun hne => hne rfl) fun hne => hne rfl
  · have hlast := (h.owned.used (hentry hi (j := i + 7) (by omega))).1
    rw [h.size] at hlast
    omega
  · have hk := h.sector t c sector k hpc
    have hthread : s.ownsSector (.thread t) (sector + k) := by
      refine ⟨sector, ?_, by omega⟩
      show (s.pc t).slot = some sector
      rw [hpc]
      rfl
    cases h.owned.excl hthread (hentry hi hin)

/-- A process with one frame and two pages of data stores to its stack, to the first data page and
then touches the second one. -/
def twoPagesOut : List Act :=
  .load 0xc0100000 ⟨0, 8192⟩ [⟨.load, 0, 0x8048000, 8192, 8192, true⟩] :: runs 0xc0100000 4 ++
    [.store 0xc0100000 0xbffffff0 1, .fault 0xc0100000 0x8048000 0xbffffff0] ++
    runs 0xc0100000 20 ++
    [.store 0xc0100000 0x8048000 1, .fault 0xc0100000 0x8049000 0xbffffff0] ++
    runs 0xc0100000 20

/-- The stack and the first data page have disjoint slots. -/
theorem slots_disjoint_twoPagesOut :
    (twoPagesOut.foldl (after step) (bootWith 1 16 ⟨16, fun _ _ => 0⟩)).swapSlot
        0xc0100000 0xbffff000 = some 0 ∧
      (twoPagesOut.foldl (after step) (bootWith 1 16 ⟨16, fun _ _ => 0⟩)).swapSlot
        0xc0100000 0x8048000 = some 8 ∧ SlotsDisjoint 0 8 :=
  have hrun : Runs Step (fun s e => s.findsSlot e = true) (bootWith 1 16 ⟨16, fun _ _ => 0⟩)
      twoPagesOut (twoPagesOut.foldl (after step) (bootWith 1 16 ⟨16, fun _ _ => 0⟩)) :=
    runs_of_allows findsSlot (fun _ _ h => h) (by decide +kernel)
  have hstack : (twoPagesOut.foldl (after step) (bootWith 1 16 ⟨16, fun _ _ => 0⟩)).swapSlot
      0xc0100000 0xbffff000 = some 0 := by decide +kernel
  have hdata : (twoPagesOut.foldl (after step) (bootWith 1 16 ⟨16, fun _ _ => 0⟩)).swapSlot
      0xc0100000 0x8048000 = some 8 := by decide +kernel
  ⟨hstack, hdata, (slots_disjoint (boot_bootWith 1 16 ⟨16, fun _ _ => 0⟩) hrun).1 _ _ _ _ _ _ hstack
    hdata (.inr (by decide))⟩

end Sys

end Pintos
