import Pintos.Vm.Steps

/-!
# The accounting of swap space

`swap_write` takes slots; they should be given back when the page comes back in or its process
exits. `swap_read` *sets* the slot's first bit, `swap_remove` clears only the first, and
`supdir_set_swap` overwrites the sector of a page that had a slot.
-/

namespace Pintos

open Lib

namespace Vm

variable {F : Type} {vm vm' : Vm F}

/-- The set bits are the slots recorded in entries, and no two entries share a sector. -/
structure Accounted (vm : Vm F) : Prop where
  wf : ∀ t va e, vm.spte t va = some e → e.Wf
  exact : ∀ j, bitmapTest vm.swapTable j = true ↔
    ∃ t va e, vm.spte t va = some e ∧ e.location = .swap ∧ InSlot e.sector j
  once : ∀ t va e t' va' e', vm.spte t va = some e → vm.spte t' va' = some e' →
    e.location = .swap → e'.location = .swap → t ≠ t' ∨ va ≠ va' → SlotsDisjoint e.sector e'.sector

theorem Accounted.congr (h : Accounted vm) (hsp : ∀ t va, vm'.spte t va = vm.spte t va)
    (htab : ∀ j, bitmapTest vm'.swapTable j = bitmapTest vm.swapTable j) : Accounted vm' where
  wf t va e := by
    rw [hsp]
    exact h.wf t va e
  exact j := by
    rw [htab, h.exact]
    simp only [hsp]
  once t va e t' va' e' := by
    rw [hsp, hsp]
    exact h.once t va e t' va' e'

theorem Accounted.ft (ha : Accounted vm) (ft : F) : Accounted { vm with ft := ft } :=
  ⟨ha.wf, ha.exact, ha.once⟩

/-- The entry of page `p` of `t` is there and has no slot. -/
def slotless (vm : Vm F) (t p : Nat) : Bool :=
  match vm.spte t p with
  | some e => e.location != .swap
  | none => false

/-- No entry of process `t` has a slot. -/
def unswapped (vm : Vm F) (t : Nat) : Bool :=
  match vm.procs t with
  | some pr => pr.supdir.entries.all fun e => e.location != .swap
  | none => true

theorem unswapped_spte {t va : Nat} {e : Spte} (h : vm.unswapped t = true)
    (he : vm.spte t va = some e) : e.location ≠ .swap := by
  unfold unswapped at h
  unfold spte at he
  split at he
  · next pr hpr =>
    rw [hpr] at h
    have hmem : e ∈ pr.supdir.entries := List.mem_of_find?_eq_some he
    simpa using List.all_eq_true.mp h e hmem
  · cases he

theorem Evicted.accounted {v p : Nat} (h : Evicted vm vm' v p) (ha : Accounted vm)
    (hs : vm.writesOut v p = true → vm.hasSlot = true) (hv : vm.slotless v p = true) :
    Accounted vm' := by
  rcases h.outcome with ⟨-, -, hsp, htab, -⟩ | ⟨src, sector, ⟨hout, -⟩, hw, hsp⟩
  · exact ha.congr hsp fun j => by rw [htab]
  · obtain ⟨i, rfl⟩ := swapWrite_of_hasSlot (hs hout) hw
    obtain ⟨e₀, he₀, hloc₀⟩ : ∃ e, vm.spte v p = some e ∧ e.location ≠ .swap := by
      unfold slotless at hv
      split at hv
      · next e he => exact ⟨e, he, by simpa using hv⟩
      · cases hv
    have hwritten := swapWrite_some hw
    have hnew : vm'.spte v p = some (e₀.setSwap i) := by
      rw [hsp, if_pos ⟨rfl, rfl⟩, he₀]
      rfl
    have hold : ∀ {t va}, ¬ (t = v ∧ va = p) → vm'.spte t va = vm.spte t va := fun hne => by
      rw [hsp, if_neg hne]
    have hdisj : ∀ {t va e}, vm.spte t va = some e → e.location = .swap →
        SlotsDisjoint e.sector i := fun he hloc =>
      slotsDisjoint_of_set (fun j hj => (ha.exact j).mpr ⟨_, _, _, he, hloc, hj⟩) hwritten.clear
    refine ⟨h.wf ha.wf, fun j => ?_, fun t va e t' va' e' he he' hloc hloc' hne => ?_⟩
    · rw [hwritten.test_eq, Bool.or_eq_true, decide_eq_true_eq, ha.exact]
      constructor
      · rintro (hj | ⟨t, va, e, he, hloc, hj⟩)
        · exact ⟨v, p, _, hnew, rfl, hj⟩
        · refine ⟨t, va, e, ?_, hloc, hj⟩
          rw [hold, he]
          rintro ⟨rfl, rfl⟩
          rw [he₀] at he
          cases he
          exact hloc₀ hloc
      · rintro ⟨t, va, e, he, hloc, hj⟩
        by_cases hv : t = v ∧ va = p
        · obtain ⟨rfl, rfl⟩ := hv
          rw [hnew] at he
          cases he
          exact .inl hj
        · rw [hold hv] at he
          exact .inr ⟨t, va, e, he, hloc, hj⟩
    · by_cases hv : t = v ∧ va = p
      · have hv' : ¬ (t' = v ∧ va' = p) := fun hv' =>
          hne.elim (fun h => h (hv.1.trans hv'.1.symm)) fun h => h (hv.2.trans hv'.2.symm)
        obtain ⟨rfl, rfl⟩ := hv
        rw [hnew] at he
        cases he
        rw [hold hv'] at he'
        exact (hdisj he' hloc').symm
      · rw [hold hv] at he
        by_cases hv' : t' = v ∧ va' = p
        · obtain ⟨rfl, rfl⟩ := hv'
          rw [hnew] at he'
          cases he'
          exact hdisj he hloc
        · rw [hold hv'] at he'
          exact ha.once t va e t' va' e' he he' hloc hloc' hne

theorem Mapped.accounted {t p f : Nat} {w : Bool} {src : Nat → UInt8} (h : Mapped vm vm' t p f w src)
    (ha : Accounted vm) : Accounted vm' := by
  refine ha.congr h.spte fun j => ?_
  rcases h.swapTable with htab | ⟨e, he, hloc, htab⟩
  · rw [htab]
  · rw [htab, bitmapTest_mark]
    by_cases hj : e.sector = j
    · have hset : bitmapTest vm.swapTable j = true :=
        (ha.exact j).mpr ⟨t, p, e, he, hloc, by omega⟩
      rw [hset, Bool.or_true]
    · rw [decide_eq_false hj, Bool.false_or]

theorem Exited.accounted {t : Nat} (h : Exited vm vm' t) (ha : Accounted vm)
    (hun : vm.unswapped t = true) : Accounted vm' where
  wf t' va e he := by
    rw [h.spte_other (h.ne_of_spte he)] at he
    exact ha.wf t' va e he
  exact j := by
    rw [h.test_kept j fun va e he hloc => absurd hloc (unswapped_spte hun he), ha.exact]
    constructor
    · rintro ⟨t', va, e, he, hloc, hj⟩
      have hne : t' ≠ t := fun ht => unswapped_spte hun (ht ▸ he) hloc
      exact ⟨t', va, e, by rw [h.spte_other hne, he], hloc, hj⟩
    · rintro ⟨t', va, e, he, hloc, hj⟩
      rw [h.spte_other (h.ne_of_spte he)] at he
      exact ⟨t', va, e, he, hloc, hj⟩
  once t' va e t'' va' e' he he' := by
    rw [h.spte_other (h.ne_of_spte he)] at he
    rw [h.spte_other (h.ne_of_spte he')] at he'
    exact ha.once t' va e t'' va' e' he he'

theorem Accounted.setProc {t : Nat} {s : Supdir} (ha : Accounted vm) (ht : vm.procs t = none)
    (hs : s.Registered) : Accounted (vm.setProc t ⟨pagedirCreate, s⟩) where
  wf _ _ _ he := wf_setProc hs he ha.wf
  exact j := by
    show bitmapTest vm.swapTable j = true ↔ _
    rw [ha.exact]
    constructor
    · rintro ⟨t', va, e, he, hloc, hj⟩
      have hne : t' ≠ t := fun htt => by
        simp only [spte, htt, ht] at he
        cases he
      exact ⟨t', va, e, by rw [spte_setProc, if_neg hne, he], hloc, hj⟩
    · rintro ⟨t', va, e, he, hloc, hj⟩
      exact ⟨t', va, e, spte_of_swap hs he hloc, hloc, hj⟩
  once t' va e t'' va' e' he he' hloc hloc' := ha.once t' va e t'' va' e'
    (spte_of_swap hs he hloc) (spte_of_swap hs he' hloc') hloc hloc'

/-- The process that an event ends before any page moves. -/
def exitsOf (vm : Vm F) : Event → Option Nat
  | .exit _ t => some t
  | .load _ _ _ _ => none
  | .store _ _ _ => none
  | .fault _ t addr esp =>
    if !isStackPage addr esp && (vm.spte t (addr / 4096 * 4096)).isNone then some t else none
  | .validate _ t pt esp allow =>
    if pt = 0 ∨ physBase ≤ pt then some t
    else if (vm.pte t pt).present then none
    else if !(allow && isStackPage pt esp) && (vm.spte t (pt / 4096 * 4096)).isNone then some t
    else none

variable [FrameTableOps F]

/-- The page that `evict_page` would choose has an entry, and no slot yet. -/
def victimSlotless (vm : Vm F) : Bool :=
  match vm.victim with
  | some (v, p) => vm.slotless v p
  | none => true

/-- Swap space is kept account of: an eviction takes out a page in memory that has an entry without
a slot, and finds a slot; a process that exits has no page in swap. -/
def accounts (vm : Vm F) (e : Event) : Bool :=
  vm.swapsOut e && (!vm.evicts e || vm.victimSlotless) &&
    match vm.exitsOf e with
    | some t => vm.unswapped t
    | none => true

/-- `evict_page`, when it is needed, is called as `accounts` asks. -/
def EvictsAccounted (vm : Vm F) : Prop :=
  (pallocGetPage vm.userPool).1 = none →
    vm.victimSwaps = true ∧ vm.victimSlotless = true

theorem Accounted.obtainFrame {a : Alloc} {t p : Nat} {r : Option Nat} (ha : Accounted vm)
    (hok : EvictsAccounted vm) (h : obtainFrame a t p vm = .ok (r, vm')) :
    r ≠ none ∧ Accounted vm' := by
  rcases obtainFrame_ok h with ⟨f, rfl, hfresh, -⟩ | ⟨hnone, hevict⟩
  · exact ⟨by simp, ha.congr hfresh.spte fun j => by rw [hfresh.swapTable]⟩
  · obtain ⟨hswaps, hless⟩ := hok hnone
    obtain ⟨v, q, hvic, hev, rfl⟩ := evictPage_victim hevict
    obtain ⟨hmapped, hslot⟩ := victimSwaps_iff.mp hswaps hvic
    simp only [victimSlotless, hvic] at hless
    exact ⟨by rw [if_pos hmapped]; simp, hev.accounted ha hslot hless⟩

theorem Accounted.frameLoaded {a : Alloc} {t p : Nat} (ha : Accounted vm)
    (hok : EvictsAccounted vm) (h : FrameLoaded a t p vm vm') : Accounted vm' := by
  obtain ⟨f, vm₁, b, hobt, hload⟩ := h
  obtain ⟨-, ha₁⟩ := ha.obtainFrame hok hobt
  cases he : vm₁.spte t p with
  | none =>
    rw [loadPage_none he hload]
    exact ha₁
  | some e => exact (loadPage_ok he (ha₁.wf t p e he) hload).1.accounted ha₁

theorem Accounted.pageIn {a : Alloc} {t addr : Nat} {stackPage : Bool} (ha : Accounted vm)
    (hok : (stackPage || (vm.spte t (addr / 4096 * 4096)).isSome) = true → EvictsAccounted vm)
    (hex : stackPage = false → vm.spte t (addr / 4096 * 4096) = none → vm.unswapped t = true)
    (h : pageIn a t addr stackPage vm = .ok vm') : Accounted vm' := by
  rcases pageIn_ok h with ⟨hsp, hn, hexit⟩ | ⟨hn, vm₁, hobt, -⟩ | ⟨rfl, f, vm₁, hobt, hgr⟩ |
    ⟨rfl, hs, vm₂, hload, rfl⟩
  · exact (exitProc_ok hexit).1.accounted ha (hex hsp hn)
  · exact absurd rfl (ha.obtainFrame (hok hn) hobt).1
  · obtain ⟨-, ha₁⟩ := ha.obtainFrame (hok rfl) hobt
    exact (growStack_ok hgr).1.accounted ha₁
  · rw [setPinned_eq]
    exact (ha.frameLoaded (hok hs) hload).ft _

theorem accounts_evict {e : Event} (h : vm.accounts e = true) (hn : vm.needsFrame e = true) :
    EvictsAccounted vm := by
  intro hnone
  simp only [accounts, swapsOut, evicts, hn, hnone, Bool.and_eq_true] at h
  simpa using h.1

theorem accounts_exit {e : Event} {t : Nat} (h : vm.accounts e = true)
    (hex : vm.exitsOf e = some t) : vm.unswapped t = true := by
  simp only [accounts, hex, Bool.and_eq_true] at h
  exact h.2

theorem Accounted.startProcess {a : Alloc} {t : Nat} {inode : Inode} {phs : List Phdr}
    (ha : Accounted vm) (ht : vm.procs t = none) (hok : vm.accounts (.load a t inode phs) = true)
    (h : startProcess a t inode phs vm = .ok vm') : Accounted vm' := by
  rcases startProcess_ok h with hexit | ⟨hload, hfr⟩
  · have hreg := @loadPhdrs_registered inode phs _ registered_create
    refine (exitProc_ok hexit).1.accounted (ha.setProc ht hreg) ?_
    simp only [unswapped, Vm.setProc, Function.update_self, List.all_eq_true]
    intro e he
    simpa using (hreg e.vaddr e (mem_entries_iff.mp he)).not_swap
  · refine (ha.setProc ht (imageSupdir_registered inode phs)).frameLoaded (fun hnone => ?_) hfr
    obtain ⟨hswaps, hless⟩ := accounts_evict hok hload hnone
    refine ⟨victimSwaps_setProc ht hswaps, ?_⟩
    have hvic : (vm.setProc t ⟨pagedirCreate, imageSupdir inode phs⟩).victim = vm.victim := rfl
    simp only [victimSlotless, hvic] at hless ⊢
    split
    · next v q hv =>
      rw [hv] at hless
      simpa [slotless, spte_setProc, victim_ne ht hswaps hv] using hless
    · rfl

theorem Accounted.step {e : Event} (ha : Accounted vm) (hok : vm.accounts e = true)
    (h : Step vm e vm') : Accounted vm' := by
  obtain ⟨hen, happ⟩ := h
  cases e with
  | load a t inode phs => exact ha.startProcess (by simpa [enabled] using hen) hok happ
  | fault a t addr esp =>
    refine ha.pageIn (fun hn => accounts_evict hok hn) (fun hsp hnone => ?_) happ
    exact accounts_exit hok (by simp [exitsOf, hsp, hnone])
  | validate a t pt esp allow =>
    change isPtValid a t pt esp allow vm = .ok vm' at happ
    unfold isPtValid at happ
    split at happ
    · next hpt =>
      exact (exitProc_ok happ).1.accounted ha (accounts_exit hok (by simp [exitsOf, hpt]))
    · next hpt =>
      split at happ
      · cases happ
        exact ha
      · next hp =>
        refine ha.pageIn (fun hn => accounts_evict hok ?_) (fun hsp hnone => ?_) happ
        · simpa [needsFrame, pageInOf, hpt, hp] using hn
        · refine accounts_exit hok ?_
          simp only [exitsOf, if_neg hpt, if_neg hp, hsp, hnone]
          rfl
  | store t va b =>
    obtain ⟨hst, -⟩ := storeByte_ok (show storeByte t va b vm = .ok vm' from happ)
    exact ha.congr hst.spte fun j => by rw [hst.swapTable]
  | exit a t =>
    have hx := (exitProc_ok (show exitProc a t vm = .ok vm' from happ)).1
    exact hx.accounted ha (accounts_exit hok rfl)

theorem Boot.accounted (h : Boot vm) : Accounted vm where
  wf := h.inv.wf
  exact j := by
    rw [h.swapTable j]
    simp [spte, h.procs]
  once t va e t' va' e' he := by
    simp only [spte, h.procs] at he
    cases he

/-- **Where swap space is accounted for.** In every run whose steps all meet `accounts`, the set bits
are exactly the slots of entries with location `SWAP_SYS`, no two entries share a sector, and when
all processes have exited no bit is set. -/
theorem slots_accounted {vm₀ : Vm F} {es : List Event} (hboot : Boot vm₀)
    (hrun : Runs Step (fun vm e => vm.accounts e = true) vm₀ es vm) :
    (∀ j, bitmapTest vm.swapTable j = true ↔
      ∃ t va e, vm.spte t va = some e ∧ e.location = .swap ∧ InSlot e.sector j) ∧
    (∀ t va e t' va' e', vm.spte t va = some e → vm.spte t' va' = some e' → e.location = .swap →
      e'.location = .swap → t ≠ t' ∨ va ≠ va' → SlotsDisjoint e.sector e'.sector) ∧
    ((∀ t, vm.procs t = none) → ∀ j, bitmapTest vm.swapTable j = false) := by
  have ha : Accounted vm := Runs.invariant Accounted.step hrun hboot.accounted
  refine ⟨ha.exact, ha.once, fun hnone j => ?_⟩
  rw [Bool.eq_false_iff]
  intro hset
  obtain ⟨t, va, e, he, -, -⟩ := (ha.exact j).mp hset
  simp only [spte, hnone] at he
  cases he

/-- A process with one frame stores a byte on its stack and fetches an instruction, which swaps
the stack page out. -/
def stackOut : List Event :=
  [loadText 0xc0100000, .store 0xc0100000 0xbffffff0 5,
    .fault ⟨true, true⟩ 0xc0100000 0x8048000 0xbffffff0]

/-- The slot of the stack page is the one slot in use. -/
theorem slots_accounted_stackOut :
    (∀ j, bitmapTest (stackOut.foldl next (bootWith 1 16 textDisk)).swapTable j = true ↔
      ∃ t va e, (stackOut.foldl next (bootWith 1 16 textDisk)).spte t va = some e ∧
        e.location = .swap ∧ InSlot e.sector j) ∧
    (∀ t va e t' va' e', (stackOut.foldl next (bootWith 1 16 textDisk)).spte t va = some e →
      (stackOut.foldl next (bootWith 1 16 textDisk)).spte t' va' = some e' → e.location = .swap →
      e'.location = .swap → t ≠ t' ∨ va ≠ va' → SlotsDisjoint e.sector e'.sector) ∧
    ((∀ t, (stackOut.foldl next (bootWith 1 16 textDisk)).procs t = none) →
      ∀ j, bitmapTest (stackOut.foldl next (bootWith 1 16 textDisk)).swapTable j = false) :=
  slots_accounted (boot_bootWith 1 16 textDisk)
    (runs_of_allowed (fun vm e => vm.accounts e) (fun _ _ h => h) (by decide +kernel))

/-- The process exits while its stack page is in swap. -/
def stackOutExit : List Event := stackOut ++ [.exit ⟨true, true⟩ 0xc0100000]

/-- There is no process left and swap space was never exhausted, but of the slot only the first bit
was cleared. -/
theorem exit_leaks_slot :
    Runs Step (fun vm _ => vm.hasSlot = true) (bootWith 1 16 textDisk) stackOutExit
      (stackOutExit.foldl next (bootWith 1 16 textDisk)) ∧
    (∀ t, (stackOutExit.foldl next (bootWith 1 16 textDisk)).procs t = none) ∧
    bitmapTest (stackOutExit.foldl next (bootWith 1 16 textDisk)).swapTable 0 = false ∧
    ∀ j < 8, 0 < j →
      bitmapTest (stackOutExit.foldl next (bootWith 1 16 textDisk)).swapTable j = true := by
  have hrun : Runs Step (fun vm _ => vm.hasSlot = true) (bootWith 1 16 textDisk) stackOutExit
      (stackOutExit.foldl next (bootWith 1 16 textDisk)) :=
    runs_of_allowed (fun vm _ => vm.hasSlot) (fun _ _ h => h) (by decide +kernel)
  refine ⟨hrun, fun t => ?_, by decide +kernel, by decide +kernel⟩
  by_cases ht : t = 0xc0100000
  · subst ht
    exact Option.isNone_iff_eq_none.mp (by decide +kernel)
  · exact procs_of_run hrun (by decide) ht rfl

end Vm

end Pintos
