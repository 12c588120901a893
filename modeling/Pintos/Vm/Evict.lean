import Pintos.Lib.Runs
import Pintos.Vm.Paging

/-!
# The steps of `evict_page`

`evict_page` sleeps while `swap_write` waits for the disk, and other threads run in the meantime.
`Vm.evictStep` is `evict_page` cut at the places where that can happen, from the dirty test to
`pagedir_clear_page`: the test, the scan of the swap table, the eight `block_write` calls,
`supdir_set_swap` and `pagedir_clear_page`.
-/

namespace Pintos

open Lib

/-- Where `evict_page` is. -/
inductive EvictPc
  /-- Before the dirty test. -/
  | test
  /-- In `swap_write`, before `bitmap_scan_and_flip`. -/
  | flip
  /-- In `swap_write`, before the `block_write` of sector `k` of the slot. -/
  | write (sector k : Nat)
  /-- Before `supdir_set_swap`. -/
  | record (sector : Nat)
  /-- Before `pagedir_clear_page`. -/
  | clear
  | done
  deriving DecidableEq, Repr

namespace Vm

variable {F : Type}

/-- The next step of `evict_page` for page `oldAddr` of `victim`; `src` is the address that
`swap_write` reads. Without a process `victim->pagedir` is null and the kernel panics; the steps of
`swap_write` do not look at the victim. -/
def evictStep (src : Option Nat) (victim oldAddr : Nat) (vm : Vm F) :
    EvictPc → Option (EvictPc × Vm F)
  | .test =>
    match vm.procs victim with
    | none => none
    | some pr =>
      if pagedirIsDirty pr.pagedir oldAddr then some (.flip, vm)
      else
        match lookupSupPage pr.supdir oldAddr with
        | none => none
        | some spte => if spte.location = .swap then some (.flip, vm) else some (.clear, vm)
  | .flip =>
    match bitmapScanAndFlip vm.swapTable 0 8 false with
    | (some index, table) => some (.write index 0, { vm with swapTable := table })
    | (none, _) => some (.record 4294967295, vm)
  | .write index k =>
    match src with
    | none => none
    | some addr =>
      match blockWrite vm.swapDev (index + k) vm.mem (addr + 512 * k) with
      | none => none
      | some dev =>
        some (if k + 1 < 8 then .write index (k + 1) else .record index,
          { vm with swapDev := dev })
  | .record sector =>
    match vm.procs victim with
    | none => none
    | some pr =>
      some (.clear,
        vm.setProc victim { pr with supdir := (supdirSetSwap pr.supdir oldAddr sector).2 })
  | .clear =>
    match vm.procs victim with
    | none => none
    | some pr =>
      some (.done, vm.setProc victim { pr with pagedir := pagedirClearPage pr.pagedir oldAddr })
  | .done => none

section Steps

variable {vm vm' : Vm F} {src : Option Nat} {v p : Nat} {pc pc' : EvictPc}

theorem pte_setSupdir {pr : Process} (hpr : vm.procs v = some pr) (s : Supdir) (t va : Nat) :
    (vm.setProc v { pr with supdir := s }).pte t va = vm.pte t va := by
  rw [@pte_update _ vm _ v _ rfl t va]
  by_cases ht : t = v
  · subst ht
    rw [if_pos rfl, pte_of_procs hpr]
  · rw [if_neg ht]

theorem spte_setPagedir_self {pr : Process} (hpr : vm.procs v = some pr) (pd : Pagedir) (t va : Nat) :
    (vm.setProc v { pr with pagedir := pd }).spte t va = vm.spte t va := by
  rw [@spte_update _ vm _ v _ rfl t va]
  by_cases ht : t = v
  · subst ht
    rw [if_pos rfl, spte_of_procs hpr]
  · rw [if_neg ht]

theorem evictStep_test (h : vm.evictStep src v p .test = some (pc', vm')) :
    vm' = vm ∧ (pc' = .flip ∨ pc' = .clear) := by
  simp only [evictStep] at h
  split at h
  · cases h
  · split at h
    · cases h
      exact ⟨rfl, .inl rfl⟩
    · split at h
      · cases h
      · split at h <;> cases h
        · exact ⟨rfl, .inl rfl⟩
        · exact ⟨rfl, .inr rfl⟩

theorem evictStep_flip (h : vm.evictStep src v p .flip = some (pc', vm')) :
    (∃ i table, bitmapScanAndFlip vm.swapTable 0 8 false = (some i, table) ∧ pc' = .write i 0 ∧
      vm' = { vm with swapTable := table }) ∨
    (bitmapScan vm.swapTable 0 8 false = none ∧ pc' = .record 4294967295 ∧ vm' = vm) := by
  simp only [evictStep] at h
  split at h
  · next i table hflip =>
    cases h
    exact .inl ⟨i, table, hflip, rfl, rfl⟩
  · next hflip =>
    cases h
    refine .inr ⟨?_, rfl, rfl⟩
    unfold bitmapScanAndFlip at hflip
    split at hflip
    · cases hflip
    · next hscan => exact hscan

theorem evictStep_write {sector k : Nat}
    (h : vm.evictStep src v p (.write sector k) = some (pc', vm')) :
    ∃ a dev, src = some a ∧
      blockWrite vm.swapDev (sector + k) vm.mem (a + 512 * k) = some dev ∧
      pc' = (if k + 1 < 8 then .write sector (k + 1) else .record sector) ∧
      vm' = { vm with swapDev := dev } := by
  simp only [evictStep] at h
  split at h
  · cases h
  · next a =>
    split at h
    · cases h
    · next dev hwrite =>
      cases h
      exact ⟨a, dev, rfl, hwrite, rfl, rfl⟩

theorem evictStep_record {sector : Nat}
    (h : vm.evictStep src v p (.record sector) = some (pc', vm')) :
    ∃ pr, vm.procs v = some pr ∧ pc' = .clear ∧
      vm' = vm.setProc v { pr with supdir := (supdirSetSwap pr.supdir p sector).2 } := by
  simp only [evictStep] at h
  split at h
  · cases h
  · next pr hpr =>
    cases h
    exact ⟨pr, hpr, rfl, rfl⟩

theorem evictStep_clear (h : vm.evictStep src v p .clear = some (pc', vm')) :
    ∃ pr, vm.procs v = some pr ∧ pc' = .done ∧
      vm' = vm.setProc v { pr with pagedir := pagedirClearPage pr.pagedir p } := by
  simp only [evictStep] at h
  split at h
  · cases h
  · next pr hpr =>
    cases h
    exact ⟨pr, hpr, rfl, rfl⟩

/-- Only `pagedir_clear_page` changes a page table entry. -/
theorem evictStep_pte (h : vm.evictStep src v p pc = some (pc', vm')) (t va : Nat) :
    vm'.pte t va =
      if pc = .clear ∧ t = v ∧ va / 4096 = p / 4096 then { vm.pte t va with present := false }
      else vm.pte t va := by
  cases pc with
  | test =>
    obtain ⟨rfl, -⟩ := evictStep_test h
    simp
  | flip =>
    rcases evictStep_flip h with ⟨i, table, -, -, rfl⟩ | ⟨-, -, rfl⟩ <;> simp [pte]
  | write sector k =>
    obtain ⟨a, dev, -, -, -, rfl⟩ := evictStep_write h
    simp [pte]
  | record sector =>
    obtain ⟨pr, hpr, -, rfl⟩ := evictStep_record h
    rw [pte_setSupdir hpr]
    simp
  | clear =>
    obtain ⟨pr, hpr, -, rfl⟩ := evictStep_clear h
    rw [@pte_clear _ vm _ p _ _ v hpr rfl rfl t va]
    simp
  | done => cases h

/-- Only `supdir_set_swap` changes a supplemental entry. -/
theorem evictStep_spte (h : vm.evictStep src v p pc = some (pc', vm')) (t va : Nat) :
    vm'.spte t va = vm.spte t va ∨
      ∃ sector, pc = .record sector ∧ t = v ∧ va = p ∧
        vm'.spte t va = (vm.spte t va).map (·.setSwap sector) := by
  cases pc with
  | test =>
    obtain ⟨rfl, -⟩ := evictStep_test h
    exact .inl rfl
  | flip =>
    rcases evictStep_flip h with ⟨i, table, -, -, rfl⟩ | ⟨-, -, rfl⟩ <;> exact .inl rfl
  | write sector k =>
    obtain ⟨a, dev, -, -, -, rfl⟩ := evictStep_write h
    exact .inl rfl
  | record sector =>
    obtain ⟨pr, hpr, -, rfl⟩ := evictStep_record h
    by_cases hv : t = v ∧ va = p
    · obtain ⟨rfl, rfl⟩ := hv
      refine .inr ⟨sector, rfl, rfl, rfl, ?_⟩
      rw [@spte_update _ vm _ t _ rfl t va, if_pos rfl, lookup_setSwap, if_pos rfl,
        spte_of_procs hpr]
    · left
      rw [@spte_update _ vm _ v _ rfl t va]
      by_cases ht : t = v
      · subst ht
        rw [if_pos rfl, lookup_setSwap, if_neg fun h => hv ⟨rfl, h⟩, spte_of_procs hpr]
      · rw [if_neg ht]
  | clear =>
    obtain ⟨pr, hpr, -, rfl⟩ := evictStep_clear h
    exact .inl (spte_setPagedir_self hpr _ t va)
  | done => cases h

theorem evictStep_ne_done (hne : pc ≠ .clear) (h : vm.evictStep src v p pc = some (pc', vm')) :
    pc' ≠ .done := by
  cases pc with
  | test =>
    obtain ⟨-, rfl | rfl⟩ := evictStep_test h <;> simp
  | flip =>
    rcases evictStep_flip h with ⟨i, table, -, rfl, -⟩ | ⟨-, rfl, -⟩ <;> simp
  | write sector k =>
    obtain ⟨a, dev, -, -, rfl, -⟩ := evictStep_write h
    split <;> simp
  | record sector =>
    obtain ⟨pr, -, rfl, -⟩ := evictStep_record h
    simp
  | clear => exact absurd rfl hne
  | done => cases h

theorem evictStep_kept (h : vm.evictStep src v p pc = some (pc', vm')) :
    vm'.userPool = vm.userPool ∧ vm'.ft = vm.ft ∧
      ∀ t, (vm'.procs t).isSome = (vm.procs t).isSome := by
  cases pc with
  | test =>
    obtain ⟨rfl, -⟩ := evictStep_test h
    exact ⟨rfl, rfl, fun _ => rfl⟩
  | flip =>
    rcases evictStep_flip h with ⟨i, table, -, -, rfl⟩ | ⟨-, -, rfl⟩ <;>
      exact ⟨rfl, rfl, fun _ => rfl⟩
  | write sector k =>
    obtain ⟨a, dev, -, -, -, rfl⟩ := evictStep_write h
    exact ⟨rfl, rfl, fun _ => rfl⟩
  | record sector =>
    obtain ⟨pr, hpr, -, rfl⟩ := evictStep_record h
    exact ⟨rfl, rfl, procs_update rfl (by rw [hpr]; rfl)⟩
  | clear =>
    obtain ⟨pr, hpr, -, rfl⟩ := evictStep_clear h
    exact ⟨rfl, rfl, procs_update rfl (by rw [hpr]; rfl)⟩
  | done => cases h

end Steps

/-! ## The sequential eviction -/

/-- The steps of an eviction that nothing interrupts. -/
def EvictStep (src : Option Nat) (v p : Nat) (s : EvictPc × Vm F) (_ : Unit)
    (s' : EvictPc × Vm F) : Prop :=
  s.2.evictStep src v p s.1 = some s'

section Sequential

variable {vm vm' : Vm F} {src : Option Nat} {v p : Nat} {cur pr : Process}

theorem write_steps {a sector n k : Nat} {dev : Block} (hk : k + (n + 1) = 8)
    (h : writeSectors vm.mem (n + 1) vm.swapDev (sector + k) (a + 512 * k) = some dev) :
    ∃ es, Runs (EvictStep (some a) v p) (fun _ _ => True) (.write sector k, vm) es
      (.record sector, { vm with swapDev := dev }) := by
  induction n generalizing k vm with
  | zero =>
    unfold writeSectors at h
    split at h
    · next hwrite =>
      cases h
      have hlast : ¬ k + 1 < 8 := by omega
      have hstep : EvictStep (some a) v p (.write sector k, vm) ()
          (.record sector, { vm with swapDev := dev }) := by
        simp only [EvictStep, evictStep, hwrite, if_neg hlast]
      exact ⟨_, .cons trivial hstep (.nil _)⟩
    · cases h
  | succ n ih =>
    rw [writeSectors] at h
    split at h
    · next dev₁ hwrite =>
      have hmore : k + 1 < 8 := by omega
      have hstep : EvictStep (some a) v p (.write sector k, vm) ()
          (.write sector (k + 1), { vm with swapDev := dev₁ }) := by
        simp only [EvictStep, evictStep, hwrite, if_pos hmore]
      have hrest : writeSectors ({ vm with swapDev := dev₁ } : Vm F).mem (n + 1) dev₁
          (sector + (k + 1)) (a + 512 * (k + 1)) = some dev := by
        rw [← h, Nat.add_assoc, Nat.mul_add, Nat.add_assoc]
      obtain ⟨es, hrun⟩ := ih (by omega) hrest
      exact ⟨() :: es, .cons trivial hstep hrun⟩
    · cases h

theorem record_steps {sector : Nat} (hpr : vm.procs v = some pr) :
    Runs (EvictStep src v p) (fun _ _ => True) (.record sector, vm) [(), ()]
      (.done,
        { vm with
          procs := Function.update vm.procs v (some
            { pagedir := pagedirClearPage pr.pagedir p
              supdir := (supdirSetSwap pr.supdir p sector).2 }) }) := by
  have hrecord : EvictStep src v p (.record sector, vm) ()
      (.clear, vm.setProc v { pr with supdir := (supdirSetSwap pr.supdir p sector).2 }) := by
    simp only [EvictStep, evictStep, hpr]
  refine .cons trivial hrecord (.cons trivial ?_ (.nil _))
  simp only [EvictStep, evictStep, setProc, Function.update_self, Function.update_idem]

theorem writeOut_steps (hpr : vm.procs v = some pr)
    (h : writeOut cur v p pr vm = .ok vm') :
    ∃ es, Runs (EvictStep (swapSource (pagedirGetPage pr.pagedir p) cur) v p) (fun _ _ => True)
      (.flip, vm) es (.done, vm') := by
  unfold writeOut swapWrite at h
  split at h
  · cases h
  · next a hsrc =>
    rw [hsrc]
    cases hscan : bitmapScanAndFlip vm.swapTable 0 8 false with
    | mk found table =>
      rw [hscan] at h
      cases found with
      | none =>
        cases h
        have htable := bitmapScanAndFlip_none hscan
        subst htable
        have hstep : EvictStep (some a) v p (.flip, vm) () (.record 4294967295, vm) := by
          simp only [EvictStep, evictStep, hscan]
        exact ⟨_, .cons trivial hstep (record_steps hpr)⟩
      | some sector =>
        simp only at h
        split at h
        · cases h
        · next hdev =>
          split at hdev
          · next dev hwrite =>
            cases hdev
            cases h
            have hstep : EvictStep (some a) v p (.flip, vm) ()
                (.write sector 0, { vm with swapTable := table }) := by
              simp only [EvictStep, evictStep, hscan]
            obtain ⟨es, hrun⟩ := @write_steps _ { vm with swapTable := table } v p a sector
              7 0 _ rfl hwrite
            exact ⟨_, .cons trivial hstep (hrun.append (record_steps hpr))⟩
          · cases hdev

theorem swapOut_steps (hpr : vm.procs v = some pr) (h : swapOut cur v p pr vm = .ok vm') :
    ∃ es, Runs (EvictStep (swapSource (pagedirGetPage pr.pagedir p) cur) v p) (fun _ _ => True)
      (.test, vm) es (.done, vm') := by
  -- From the dirty test into `swap_write`.
  have hflip : vm.evictStep (swapSource (pagedirGetPage pr.pagedir p) cur) v p .test =
      some (.flip, vm) → writeOut cur v p pr vm = .ok vm' →
      ∃ es, Runs (EvictStep (swapSource (pagedirGetPage pr.pagedir p) cur) v p) (fun _ _ => True)
        (.test, vm) es (.done, vm') := by
    intro hstep hout
    obtain ⟨es, hrun⟩ := writeOut_steps hpr hout
    exact ⟨() :: es, .cons trivial hstep hrun⟩
  unfold swapOut at h
  split at h
  · next hd => exact hflip (by simp [evictStep, hpr, hd]) h
  · next hd =>
    split at h
    · cases h
    · next e he =>
      split at h
      · next hloc => exact hflip (by simp [evictStep, hpr, hd, he, hloc]) h
      · next hloc =>
        cases h
        have htest : EvictStep (swapSource (pagedirGetPage pr.pagedir p) cur) v p (.test, vm)
            () (.clear, vm) := by
          simp [EvictStep, evictStep, hpr, hd, he, hloc]
        have hclear : EvictStep (swapSource (pagedirGetPage pr.pagedir p) cur) v p (.clear, vm)
            () (.done,
              vm.setProc v { pr with pagedir := pagedirClearPage pr.pagedir p }) := by
          simp [EvictStep, evictStep, hpr]
        exact ⟨_, .cons trivial htest (.cons trivial hclear (.nil _))⟩

open FrameTableOps in
/-- **The steps refine `evict_page`.** When the sequential `evict_page` returns, the steps without
interruption lead from the state in which it starts to the one in which it ends, but for the frame
table: the selection before them pins the victim, and the new key after them is the rest of it. -/
theorem evictPage_steps [FrameTableOps F] {a : Alloc} {t new : Nat} {r : Option Nat}
    (h : evictPage a t new vm = .ok (r, vm')) :
    ∃ s ft cur vm₁ es, select vm.ft = some (s, ft) ∧ vm.procs t = some cur ∧
      Runs (EvictStep (swapSource r cur) (thread ft s.chosen) (vaddr ft s.chosen)) (fun _ _ => True)
        (.test, vm) es (.done, vm₁) ∧
      rekey a.rehash ft s t new = some vm'.ft ∧ vm' = { vm₁ with ft := vm'.ft } := by
  unfold evictPage at h
  split at h
  · cases h
  · next s ft hsel =>
    simp only at h
    split at h
    · next cur pr hcur hpr =>
      split at h
      · split at h
        · next vm₁ ft₁ hout hkey =>
          cases h
          obtain ⟨es, hrun⟩ := swapOut_steps hpr hout
          exact ⟨s, ft, cur, vm₁, es, hsel, hcur, hrun, hkey, rfl⟩
        · cases h
        · cases h
      · cases h
    · cases h

end Sequential

/-- A process with a dirty page. -/
def dirtyProcess : Process :=
  ⟨pagedirCreate.setPte 4096 ⟨true, true, true, 0xc0800000⟩, supdirCreate⟩

/-- It is alone, and its page is in the frame table; there is one slot of swap space. -/
def oneDirty : Vm FrameTable where
  procs _ := some dirtyProcess
  ft := frameTableInit.insert true 0xc0100000 4096
  userPool := ⟨0xc0800000, bitmapCreate 1, by decide, by decide⟩
  swapTable := bitmapCreate 8
  mem _ := 0
  swapDev := ⟨8, fun _ _ => 0⟩
  fsDev := ⟨0, fun _ _ => 0⟩

theorem evictPage_steps_oneDirty :
    ∃ r vm', evictPage ⟨true, true⟩ 0xc0100000 8192 oneDirty = .ok (r, vm') ∧
      ∃ s ft cur vm₁ es, oneDirty.ft.select = some (s, ft) ∧
        oneDirty.procs 0xc0100000 = some cur ∧
        Runs (EvictStep (swapSource r cur) (ft.entry s.chosen).thread (ft.entry s.chosen).vaddr)
          (fun _ _ => True) (.test, oneDirty) es (.done, vm₁) ∧
        ft.rekey true s 0xc0100000 8192 = some vm'.ft ∧ vm' = { vm₁ with ft := vm'.ft } := by
  have hok : (evictPage ⟨true, true⟩ 0xc0100000 8192 oneDirty).isOk = true := by decide +kernel
  cases hev : evictPage ⟨true, true⟩ 0xc0100000 8192 oneDirty with
  | error c =>
    rw [hev] at hok
    cases hok
  | ok r => exact ⟨r.1, r.2, rfl, evictPage_steps hev⟩

end Vm

end Pintos
