import Pintos.Vm.Steps

/-!
# What a page brought in shows of the frame it lies in

`page_in` fills a frame that another process, or an earlier page of the same one, had before. The
frame may be zeroed by palloc or come as it is from `evict_page`, which may have written it to
swap space; the page is then filled by stack growth, from the file, from swap space or with zeros.
-/

namespace Pintos

open Lib Option FrameTableOps

namespace Vm

variable {F : Type} {vm vm' : Vm F}

/-! ## Slots, also where swap space runs out -/

/-- The entries are well-formed, and the slots they refer to are set and disjoint. An entry of a
page for which `swap_write` found no slot has `BITMAP_ERROR`, which is no bit of the table. -/
structure SlotsApart (vm : Vm F) : Prop where
  wf : ∀ t va e, vm.spte t va = some e → e.Wf
  slot : ∀ t va e, vm.spte t va = some e → e.location = .swap →
    SlotHeld vm.swapTable e.sector ∨ vm.swapTable.bitCnt ≤ e.sector
  apart : ∀ t va e t' va' e', vm.spte t va = some e → vm.spte t' va' = some e' →
    e.location = .swap → e'.location = .swap → t ≠ t' ∨ va ≠ va' →
    e.sector < vm.swapTable.bitCnt → e'.sector < vm.swapTable.bitCnt →
    SlotsDisjoint e.sector e'.sector
  size : vm.swapTable.bitCnt < 2 ^ 32

theorem SlotsApart.congr (h : SlotsApart vm) (hsp : ∀ t va, vm'.spte t va = vm.spte t va)
    (hcnt : vm'.swapTable.bitCnt = vm.swapTable.bitCnt)
    (hset : ∀ j, bitmapTest vm.swapTable j = true → bitmapTest vm'.swapTable j = true) :
    SlotsApart vm' where
  wf t va e := by
    rw [hsp]
    exact h.wf t va e
  slot t va e he hloc := by
    rw [hsp] at he
    rw [hcnt]
    exact (h.slot t va e he hloc).imp (fun hh => hh.mono hcnt fun j _ => hset j) id
  apart t va e t' va' e' := by
    rw [hsp, hsp, hcnt]
    exact h.apart t va e t' va' e'
  size := hcnt ▸ h.size

theorem Mapped.slotsApart {t p f : Nat} {w : Bool} {src : Nat → UInt8}
    (h : Mapped vm vm' t p f w src) (ha : SlotsApart vm) : SlotsApart vm' := by
  rcases h.swapTable with htab | ⟨e, -, -, htab⟩
  · exact ha.congr h.spte (by rw [htab]) fun j hj => by rw [htab, hj]
  · refine ha.congr h.spte (by rw [htab]; rfl) fun j hj => ?_
    rw [htab, bitmapTest_mark, hj, Bool.or_true]

theorem swapWrite_slot {table table' : Bitmap} {dev dev' : Block} {m : Mem} {frame : Nat}
    {sector : Option Nat} (hsize : table.bitCnt < 2 ^ 32)
    (h : swapWrite table dev m frame = some (sector, table', dev')) :
    table'.bitCnt = table.bitCnt ∧
      (∀ j, bitmapTest table j = true → bitmapTest table' j = true) ∧
      (SlotHeld table' (sector.getD 4294967295) ∨ table.bitCnt ≤ sector.getD 4294967295) ∧
      (sector.getD 4294967295 < table.bitCnt → ∀ s, SlotHeld table s →
        SlotsDisjoint s (sector.getD 4294967295)) ∧
      ∀ s, SlotHeld table s → ∀ o < 4096, dev'.byteFrom s o = dev.byteFrom s o := by
  cases sector with
  | none =>
    obtain ⟨rfl, rfl⟩ := swapWrite_none h
    have hle : table'.bitCnt ≤ 4294967295 := by omega
    exact ⟨rfl, fun _ hj => hj, .inr hle, fun hlt => absurd hlt (Nat.not_lt.mpr hle),
      fun _ _ _ _ => rfl⟩
  | some i =>
    have hw := swapWrite_some h
    have hdisj : ∀ s, SlotHeld table s → SlotsDisjoint s i := fun s hs =>
      slotsDisjoint_of_set hs.set hw.clear
    refine ⟨hw.bitCnt_eq, fun j hj => ?_, .inl hw.held, fun _ => hdisj, fun s hs =>
      hw.kept s (hdisj s hs)⟩
    rw [hw.test_eq, hj, Bool.or_true]

theorem Evicted.slotsApart {v p : Nat} (h : Evicted vm vm' v p) (ha : SlotsApart vm) :
    SlotsApart vm' := by
  have hwf := h.wf ha.wf
  rcases h.outcome with ⟨-, -, hsp, htab, -⟩ | ⟨src, sector, -, hw, hsp⟩
  · exact ha.congr hsp (by rw [htab]) fun j hj => by rw [htab, hj]
  · obtain ⟨hcnt, hset, hnew, hfresh, -⟩ := swapWrite_slot ha.size hw
    refine ⟨hwf, fun t va e he hloc => ?_, fun t va e t' va' e' he he' hloc hloc' hne hlt hlt' => ?_,
      hcnt ▸ ha.size⟩
    · rw [hsp] at he
      rw [hcnt]
      split at he
      · obtain ⟨e₀, -, rfl⟩ := map_eq_some_iff.mp he
        exact hnew
      · exact (ha.slot t va e he hloc).imp (fun hh => hh.mono hcnt fun j _ => hset j) id
    · rw [hcnt] at hlt hlt'
      rw [hsp] at he he'
      -- an entry that is not the victim's has the slot it had
      have hold : ∀ {t va e}, vm.spte t va = some e → e.location = .swap →
          e.sector < vm.swapTable.bitCnt → SlotHeld vm.swapTable e.sector :=
        fun he hloc hlt => (ha.slot _ _ _ he hloc).resolve_right (Nat.not_le.mpr hlt)
      split at he
      · next hv =>
        obtain ⟨e₀, -, rfl⟩ := map_eq_some_iff.mp he
        have hv' : ¬ (t' = v ∧ va' = p) := fun hv' =>
          hne.elim (fun h => h (hv.1.trans hv'.1.symm)) fun h => h (hv.2.trans hv'.2.symm)
        rw [if_neg hv'] at he'
        exact (hfresh hlt e'.sector (hold he' hloc' hlt')).symm
      · split at he'
        · obtain ⟨e₀, -, rfl⟩ := map_eq_some_iff.mp he'
          exact hfresh hlt' e.sector (hold he hloc hlt)
        · exact ha.apart t va e t' va' e' he he' hloc hloc' hne hlt hlt'

theorem Exited.slotsApart {t : Nat} (h : Exited vm vm' t) (ha : SlotsApart vm) :
    SlotsApart vm' where
  wf t' va e he := by
    rw [h.spte_other (h.ne_of_spte he)] at he
    exact ha.wf t' va e he
  slot t' va e he hloc := by
    have ht := h.ne_of_spte he
    rw [h.spte_other ht] at he
    rw [h.bitCnt]
    refine (ha.slot t' va e he hloc).imp (fun hh => hh.mono h.bitCnt fun j hj hset => ?_) id
    -- only first sectors of slots of `t` are cleared
    rw [h.test_kept j fun vb e' he' hloc' heq => ?_, hset]
    have hfits := hh.fits
    have hdisj := ha.apart t' va e t vb e' he he' hloc hloc' (.inl ht) (by omega) (by omega)
    omega
  apart t' va e t'' va' e' he he' := by
    rw [h.spte_other (h.ne_of_spte he)] at he
    rw [h.spte_other (h.ne_of_spte he')] at he'
    rw [h.bitCnt]
    exact ha.apart t' va e t'' va' e' he he'
  size := h.bitCnt ▸ ha.size

theorem SlotsApart.setProc {t : Nat} {s : Supdir} (ha : SlotsApart vm) (hs : s.Registered) :
    SlotsApart (vm.setProc t ⟨pagedirCreate, s⟩) where
  wf _ _ _ he := wf_setProc hs he ha.wf
  slot t' va e he hloc := ha.slot t' va e (spte_of_swap hs he hloc) hloc
  apart t' va e t'' va' e' he he' hloc hloc' := ha.apart t' va e t'' va' e'
    (spte_of_swap hs he hloc) (spte_of_swap hs he' hloc') hloc hloc'
  size := ha.size

section Runs

variable [FrameTableOps F]

theorem Boot.slotsApart (h : Boot vm) (hsize : vm.swapTable.bitCnt < 2 ^ 32) : SlotsApart vm where
  wf := h.inv.wf
  slot t va e he := by
    simp only [spte, h.procs] at he
    cases he
  apart t va e t' va' e' he := by
    simp only [spte, h.procs] at he
    cases he
  size := hsize

theorem SlotsApart.obtainFrame {a : Alloc} {t p : Nat} {r : Option Nat} (ha : SlotsApart vm)
    (h : obtainFrame a t p vm = .ok (r, vm')) : SlotsApart vm' := by
  rcases obtainFrame_ok h with ⟨f, rfl, hfresh, -⟩ | ⟨-, hevict⟩
  · exact ha.congr hfresh.spte (by rw [hfresh.swapTable]) fun j hj => by rw [hfresh.swapTable, hj]
  · obtain ⟨v, q, -, hev, -⟩ := evictPage_victim hevict
    exact hev.slotsApart ha

theorem SlotsApart.frameLoaded {a : Alloc} {t p : Nat} (ha : SlotsApart vm)
    (h : FrameLoaded a t p vm vm') : SlotsApart vm' := by
  obtain ⟨f, vm₁, b, hobt, hload⟩ := h
  have ha₁ := ha.obtainFrame hobt
  cases he : vm₁.spte t p with
  | none =>
    rw [loadPage_none he hload]
    exact ha₁
  | some e => exact (loadPage_ok he (ha₁.wf t p e he) hload).1.slotsApart ha₁

theorem SlotsApart.pageIn {a : Alloc} {t addr : Nat} {stackPage : Bool} (ha : SlotsApart vm)
    (h : pageIn a t addr stackPage vm = .ok vm') : SlotsApart vm' := by
  rcases pageIn_ok h with ⟨-, -, hexit⟩ | ⟨-, vm₁, hobt, hexit⟩ | ⟨-, f, vm₁, hobt, hgr⟩ |
    ⟨-, -, vm₂, hload, rfl⟩
  · exact (exitProc_ok hexit).1.slotsApart ha
  · exact (exitProc_ok hexit).1.slotsApart (ha.obtainFrame hobt)
  · exact (growStack_ok hgr).1.slotsApart (ha.obtainFrame hobt)
  · rw [setPinned_eq]
    obtain ⟨h₁, h₂, h₃, h₄⟩ := ha.frameLoaded hload
    exact ⟨h₁, h₂, h₃, h₄⟩

theorem SlotsApart.step {e : Event} (ha : SlotsApart vm) (h : Step vm e vm') : SlotsApart vm' := by
  obtain ⟨-, happ⟩ := h
  cases e with
  | load a t inode phs =>
    rcases startProcess_ok (show startProcess a t inode phs vm = .ok vm' from happ) with
      hexit | ⟨-, hfr⟩
    · exact (exitProc_ok hexit).1.slotsApart (ha.setProc (loadPhdrs_registered registered_create))
    · exact (ha.setProc (imageSupdir_registered inode phs)).frameLoaded hfr
  | fault a t addr esp => exact ha.pageIn happ
  | validate a t pt esp allow =>
    change isPtValid a t pt esp allow vm = .ok vm' at happ
    unfold isPtValid at happ
    split at happ
    · exact (exitProc_ok happ).1.slotsApart ha
    · split at happ
      · cases happ
        exact ha
      · exact ha.pageIn happ
  | store t va b =>
    obtain ⟨hst, -⟩ := storeByte_ok (show storeByte t va b vm = .ok vm' from happ)
    exact ha.congr hst.spte (by rw [hst.swapTable]) fun j hj => by rw [hst.swapTable, hj]
  | exit a t => exact (exitProc_ok (show exitProc a t vm = .ok vm' from happ)).1.slotsApart ha

end Runs

/-! ## What the page shows -/

/-- What `page_in` is to bring in: a page of zeros for the stack, or what the entry stands for. -/
def expected (vm : Vm F) (t p : Nat) (stackPage : Bool) : PageVal :=
  match vm.spte t p with
  | some e => if stackPage then zeroPage else vm.backed e
  | none => zeroPage

/-- What process `t` sees of the page of `va`, if it is present. -/
def seen (vm : Vm F) (t va : Nat) : Option PageVal :=
  if (vm.pte t va).present then some (shown vm.mem (vm.pte t va)) else none

theorem Mapped.shown_page {t p va f : Nat} {w : Bool} {src : Nat → UInt8}
    (h : Mapped vm vm' t p f w src) (hva : va / 4096 = p / 4096)
    (habs : (vm.pte t va).present = false) (hp : (vm'.pte t va).present = true) :
    shown vm'.mem (vm'.pte t va) = ⟨fun o => src o, w⟩ := by
  rcases h.pte with ⟨-, hpte⟩ | hpte
  · rw [hpte, if_pos ⟨rfl, hva⟩, h.mem, shown_write_self]
  · rw [hpte, habs] at hp
    cases hp

theorem loadPage_sector {a : Alloc} {t p f : Nat} {b : Bool} {e : Spte}
    (he : vm.spte t p = some e) (hloc : e.location = .swap)
    (h : loadPage a t p f vm = .ok (b, vm')) : e.sector < vm.swapTable.bitCnt := by
  unfold loadPage at h
  split at h
  · cases h
  · next pr hpr =>
    rw [spte_of_procs hpr] at he
    rw [he] at h
    simp only [fillFrame, hloc, swapRead] at h
    by_contra hlt
    rw [if_neg hlt] at h
    cases h

section Seen

variable [FrameTableOps F]

theorem obtainFrame_page {a : Alloc} {t p f : Nat} (ha : SlotsApart vm)
    (habs : (vm.pte t p).present = false) (h : obtainFrame a t p vm = .ok (some f, vm')) :
    (vm'.pte t p).present = false ∧ vm'.spte t p = vm.spte t p ∧
      vm'.swapTable.bitCnt = vm.swapTable.bitCnt ∧
      ∀ e, vm.spte t p = some e → (e.location = .swap → e.sector < vm.swapTable.bitCnt) →
        vm'.backed e = vm.backed e := by
  rcases obtainFrame_ok h with ⟨f', -, hfresh, -⟩ | ⟨-, hevict⟩
  · refine ⟨by rw [hfresh.pte, habs], hfresh.spte t p, by rw [hfresh.swapTable], fun e _ _ => ?_⟩
    exact backed_congr hfresh.fsDev fun _ _ _ => by rw [hfresh.swapDev]
  · obtain ⟨v, q, -, hev, hr⟩ := evictPage_victim hevict
    have hq : (vm.pte v q).present = true := by
      by_contra hq
      rw [if_neg hq] at hr
      cases hr
    -- the victim is in memory, so that it is not the page that is to be brought in
    have hne : ¬ (t = v ∧ p = q) := by
      rintro ⟨rfl, rfl⟩
      rw [habs] at hq
      cases hq
    have habs' : (vm'.pte t p).present = false := by
      rw [hev.pte]
      split
      · rfl
      · exact habs
    rcases hev.outcome with ⟨-, -, hsp, htab, hdev⟩ | ⟨src, sector, -, hw, hsp⟩
    · refine ⟨habs', hsp t p, by rw [htab], fun e _ _ => ?_⟩
      exact backed_congr hev.fsDev fun _ _ _ => by rw [hdev]
    · obtain ⟨hcnt, -, -, -, hkept⟩ := swapWrite_slot ha.size hw
      refine ⟨habs', by rw [hsp, if_neg hne], hcnt, fun e he hlt => ?_⟩
      refine backed_congr hev.fsDev fun hloc o ho => ?_
      have hheld := (ha.slot t p e he hloc).resolve_right (Nat.not_le.mpr (hlt hloc))
      exact hkept e.sector hheld o ho

/-- **The page brought in shows what it should**, and nothing of what the frame held. -/
theorem pageIn_seen {a : Alloc} {t addr : Nat} {stackPage : Bool} (ha : SlotsApart vm)
    (habs : (vm.pte t addr).present = false) (h : pageIn a t addr stackPage vm = .ok vm')
    (hp : (vm'.pte t addr).present = true) :
    shown vm'.mem (vm'.pte t addr) = vm.expected t (addr / 4096 * 4096) stackPage := by
  have hpage : addr / 4096 = addr / 4096 * 4096 / 4096 := by omega
  have habs' : (vm.pte t (addr / 4096 * 4096)).present = false := by
    rw [← pte_page vm t hpage, habs]
  rcases pageIn_ok h with ⟨-, -, hexit⟩ | ⟨-, vm₁, -, hexit⟩ | ⟨rfl, f, vm₁, hobt, hgr⟩ |
    ⟨rfl, hs, vm₂, ⟨f, vm₁, b, hobt, hload⟩, rfl⟩
  · rw [(exitProc_ok hexit).1.pte_self] at hp
    cases hp
  · rw [(exitProc_ok hexit).1.pte_self] at hp
    cases hp
  · obtain ⟨habs₁, -, -, -⟩ := obtainFrame_page ha habs' hobt
    rw [← pte_page vm₁ t hpage] at habs₁
    rw [(growStack_ok hgr).1.shown_page hpage habs₁ hp]
    unfold expected
    split
    · rfl
    · rfl
  · obtain ⟨e, he⟩ := isSome_iff_exists.mp hs
    obtain ⟨habs₁, hsp, hcnt, hbacked⟩ := obtainFrame_page ha habs' hobt
    rw [← pte_page vm₁ t hpage] at habs₁
    have he₁ : vm₁.spte t (addr / 4096 * 4096) = some e := hsp.trans he
    have hmap := (loadPage_ok he₁ (ha.wf _ _ e he) hload).1
    rw [setPinned_eq] at hp ⊢
    have hshown := hmap.shown_page hpage habs₁ hp
    have hexp : vm.expected t (addr / 4096 * 4096) false = vm.backed e := by
      simp [expected, he]
    rw [hexp, ← hbacked e he fun hloc => hcnt ▸ loadPage_sector he₁ hloc hload]
    exact hshown

end Seen

/-! ## Success does not depend on contents -/

/-- The machine with other contents of memory and of swap space. -/
def alter (vm : Vm F) (m : Mem) (d : Block) : Vm F := { vm with mem := m, swapDev := d }

/-- Two machines that differ in the contents of memory and of swap space only. -/
def Alike (vm vm' : Vm F) : Prop := ∃ m d, d.size = vm.swapDev.size ∧ vm' = vm.alter m d

/-- Both runs end, in related states, or both fail in the same way. -/
inductive SameOutcome {α : Type} (R : α → α → Prop) : Except Crash α → Except Crash α → Prop
  | ok {x y : α} : R x y → SameOutcome R (.ok x) (.ok y)
  | error (c : Crash) : SameOutcome R (.error c) (.error c)

theorem writeSectors_alike {m m' : Mem} {n sector a : Nat} {d d' : Block}
    (hd : d'.size = d.size) :
    (writeSectors m' n d' sector a).isSome = (writeSectors m n d sector a).isSome := by
  induction n generalizing d d' sector a with
  | zero => rfl
  | succ n ih =>
    simp only [writeSectors, blockWrite, hd]
    by_cases hlt : sector < d.size
    · simp only [if_pos hlt]
      exact ih rfl
    · simp only [if_neg hlt]

theorem readSectors_alike {m m' : Mem} {n sector a : Nat} {d d' : Block} (hd : d'.size = d.size) :
    (readSectors d' n sector m' a).isSome = (readSectors d n sector m a).isSome := by
  induction n generalizing m m' sector a with
  | zero => rfl
  | succ n ih =>
    simp only [readSectors, blockRead, hd]
    by_cases hlt : sector < d.size
    · simp only [if_pos hlt]
      exact ih
    · simp only [if_neg hlt]

theorem readFileSectors_alike {d : Block} {fuel sector rb frame : Nat} {m m' : Mem} :
    (readFileSectors d fuel sector rb m' frame).isSome =
      (readFileSectors d fuel sector rb m frame).isSome := by
  induction fuel generalizing sector rb m m' frame with
  | zero => rfl
  | succ fuel ih =>
    simp only [readFileSectors, blockRead]
    by_cases hrb : 0 < rb
    · by_cases hlt : sector < d.size
      · simp only [if_pos hrb, if_pos hlt]
        exact ih
      · simp only [if_pos hrb, if_neg hlt]
    · simp only [if_neg hrb]
      rfl

theorem isSome_cases {α β : Type} {x : Option α} {y : Option β} (h : y.isSome = x.isSome) :
    (x = none ∧ y = none) ∨ ∃ a b, x = some a ∧ y = some b := by
  cases x with
  | none => exact .inl ⟨rfl, by simpa using h⟩
  | some a =>
    obtain ⟨b, hb⟩ := isSome_iff_exists.mp h
    exact .inr ⟨a, b, rfl, hb⟩

theorem swapWrite_alike {table : Bitmap} {d d' : Block} {m m' : Mem} {a : Nat}
    (hd : d'.size = d.size) :
    (swapWrite table d m a = none ∧ swapWrite table d' m' a = none) ∨
      ∃ sector table₁ d₁ d₁', swapWrite table d m a = some (sector, table₁, d₁) ∧
        swapWrite table d' m' a = some (sector, table₁, d₁') ∧ d₁'.size = d₁.size := by
  unfold swapWrite
  cases bitmapScanAndFlip table 0 8 false with
  | mk r table₁ =>
    cases r with
    | none => exact .inr ⟨none, table₁, d, d', rfl, rfl, hd⟩
    | some index =>
      obtain ⟨h, h'⟩ | ⟨d₁, d₁', h, h'⟩ := isSome_cases
        (@writeSectors_alike m m' 8 index a d d' hd)
      · exact .inl ⟨by simp only [h], by simp only [h']⟩
      · refine .inr ⟨some index, table₁, d₁, d₁', by simp only [h], by simp only [h'], ?_⟩
        rw [(writeSectors_some h).1, (writeSectors_some h').1, hd]

theorem fillFrame_alike {fsDev d d' : Block} {table : Bitmap} {e : Spte} {m m' : Mem}
    {frame : Nat} (hd : d'.size = d.size) :
    (fillFrame fsDev d table e m frame = none ∧ fillFrame fsDev d' table e m' frame = none) ∨
      ∃ table₁ m₁ m₁', fillFrame fsDev d table e m frame = some (table₁, m₁) ∧
        fillFrame fsDev d' table e m' frame = some (table₁, m₁') := by
  unfold fillFrame
  cases e.location with
  | zero => exact .inr ⟨_, _, _, rfl, rfl⟩
  | mem => exact .inr ⟨_, _, _, rfl, rfl⟩
  | swap =>
    simp only [swapRead]
    by_cases hlt : e.sector < table.bitCnt
    · simp only [if_pos hlt]
      obtain ⟨h, h'⟩ | ⟨m₁, m₁', h, h'⟩ := isSome_cases
        (@readSectors_alike m m' 8 e.sector frame d d' hd)
      · exact .inl ⟨by simp only [h], by simp only [h']⟩
      · simp only [h, h']
        exact .inr ⟨_, _, _, rfl, rfl⟩
    · simp only [if_neg hlt]
      exact .inl ⟨trivial, trivial⟩
  | file =>
    simp only
    obtain ⟨h, h'⟩ | ⟨x, x', h, h'⟩ := isSome_cases
      (@readFileSectors_alike fsDev e.readBytes e.sector e.readBytes frame m m')
    · exact .inl ⟨by simp only [h], by simp only [h']⟩
    · simp only [h, h']
      exact .inr ⟨_, _, _, rfl, rfl⟩

section Alike

variable {m : Mem} {d : Block}

theorem writeOut_alike {cur pr : Process} {v p : Nat} (hd : d.size = vm.swapDev.size) :
    SameOutcome Alike (writeOut cur v p pr vm) (writeOut cur v p pr (vm.alter m d)) := by
  unfold writeOut
  cases swapSource (pagedirGetPage pr.pagedir p) cur with
  | none => exact .error .panic
  | some src =>
    obtain ⟨h, h'⟩ | ⟨sector, table, d₁, d₁', h, h', hd₁⟩ :=
      @swapWrite_alike vm.swapTable vm.swapDev d vm.mem m src hd
    · simp only [alter, h, h']
      exact .error .panic
    · simp only [alter, h, h']
      exact .ok ⟨m, d₁', hd₁, rfl⟩

theorem swapOut_alike {cur pr : Process} {v p : Nat} (hd : d.size = vm.swapDev.size) :
    SameOutcome Alike (swapOut cur v p pr vm) (swapOut cur v p pr (vm.alter m d)) := by
  unfold swapOut
  split
  · exact writeOut_alike hd
  · split
    · exact .error .nullSpte
    · split
      · exact writeOut_alike hd
      · exact .ok ⟨m, d, hd, rfl⟩

theorem loadPage_alike {a : Alloc} {t p f : Nat} (hd : d.size = vm.swapDev.size) :
    SameOutcome (fun x y => Alike x.2 y.2) (loadPage a t p f vm)
      (loadPage a t p f (vm.alter m d)) := by
  unfold loadPage
  simp only [alter]
  cases vm.procs t with
  | none => exact .error .panic
  | some pr =>
    cases he : lookupSupPage pr.supdir p with
    | none =>
      simp only [he]
      exact .ok ⟨m, d, hd, rfl⟩
    | some e =>
      simp only [he]
      obtain ⟨h, h'⟩ | ⟨table, m₁, m₁', h, h'⟩ :=
        @fillFrame_alike vm.fsDev vm.swapDev d vm.swapTable e vm.mem m f hd
      · simp only [h, h']
        exact .error .panic
      · simp only [h, h']
        cases pagedirSetPage a.pageTable pr.pagedir p f e.writable with
        | none => exact .error .panic
        | some x => exact .ok ⟨m₁', d, hd, rfl⟩

theorem growStack_alike {a : Alloc} {t p f : Nat} (hd : d.size = vm.swapDev.size) :
    SameOutcome Alike (growStack a t p f vm) (growStack a t p f (vm.alter m d)) := by
  unfold growStack
  simp only [alter]
  cases vm.procs t with
  | none => exact .error .panic
  | some pr =>
    cases hset : pagedirSetPage a.pageTable pr.pagedir p f true with
    | none =>
      simp only [hset]
      exact .error .panic
    | some x =>
      simp only [hset]
      exact .ok ⟨_, d, hd, rfl⟩

variable [FrameTableOps F]

theorem evictPage_alike {a : Alloc} {t p : Nat} (hd : d.size = vm.swapDev.size) :
    SameOutcome (fun x y => y.1 = x.1 ∧ Alike x.2 y.2) (evictPage a t p vm)
      (evictPage a t p (vm.alter m d)) := by
  unfold evictPage
  simp only [alter]
  cases select vm.ft with
  | none => exact .error .panic
  | some x =>
    obtain ⟨s, ft⟩ := x
    simp only
    cases vm.procs t with
    | none => exact .error .panic
    | some cur =>
      cases vm.procs (thread ft s.chosen) with
      | none => exact .error .panic
      | some pr =>
        simp only
        split
        · have hout := @swapOut_alike F vm m d cur pr (thread ft s.chosen)
            (vaddr ft s.chosen) hd
          simp only [alter] at hout
          generalize swapOut cur _ _ pr vm = r at hout
          generalize swapOut cur _ _ pr _ = r' at hout
          cases hout with
          | error c => exact .error c
          | ok hxy =>
            obtain ⟨m', d', hd', rfl⟩ := hxy
            cases rekey a.rehash ft s t p with
            | none => exact .error .panic
            | some ft' => exact .ok ⟨rfl, m', d', hd', rfl⟩
        · exact .error .panic

theorem obtainFrame_alike {a : Alloc} {t p : Nat} (hd : d.size = vm.swapDev.size) :
    SameOutcome (fun x y => y.1 = x.1 ∧ Alike x.2 y.2) (obtainFrame a t p vm)
      (obtainFrame a t p (vm.alter m d)) := by
  unfold obtainFrame getUserPage
  cases hget : pallocGetPage vm.userPool with
  | mk r pool =>
    cases r with
    | none =>
      simp only [alter, hget]
      exact evictPage_alike hd
    | some f =>
      simp only [alter, hget]
      exact .ok ⟨rfl, _, d, hd, rfl⟩

theorem destroyFrames_alike {a : Alloc} {t : Nat} {pages : List Nat} :
    (destroyFrames a t pages vm = none ∧ destroyFrames a t pages (vm.alter m d) = none) ∨
      ∃ vm₁ m₁, destroyFrames a t pages vm = some vm₁ ∧
        destroyFrames a t pages (vm.alter m d) = some (vm₁.alter m₁ d) := by
  induction pages generalizing vm m with
  | nil => exact .inr ⟨vm, m, rfl, rfl⟩
  | cons page pages ih =>
    simp only [destroyFrames, alter]
    cases pallocFreePage vm.userPool page with
    | none => exact .inl ⟨rfl, rfl⟩
    | some pool =>
      cases free a.rehash vm.ft t page with
      | none => exact .inl ⟨rfl, rfl⟩
      | some ft => exact ih

theorem exitProc_alike {a : Alloc} {t : Nat} (hd : d.size = vm.swapDev.size) :
    SameOutcome Alike (exitProc a t vm) (exitProc a t (vm.alter m d)) := by
  unfold exitProc
  simp only [alter]
  cases vm.procs t with
  | none => exact .error .panic
  | some pr =>
    cases htab : supdirDestroy pr.pagedir pr.supdir.entries vm.swapTable with
    | none =>
      simp only [htab]
      exact .error .panic
    | some table =>
      simp only [htab]
      obtain ⟨h, h'⟩ | ⟨vm₁, m₁, h, h'⟩ := @destroyFrames_alike F
        { vm with procs := Function.update vm.procs t none, swapTable := table } m d _ a t
        (pagedirFrames pr.pagedir)
      · simp only [alter] at h'
        simp only [h, h']
        exact .error .panic
      · have hsize : vm₁.swapDev = vm.swapDev := (destroyFrames_some h).2.2.1
        simp only [alter] at h'
        simp only [h, h']
        exact .ok ⟨m₁, d, hsize ▸ hd, rfl⟩

theorem setPinned_alike {t p : Nat} (hd : d.size = vm.swapDev.size) :
    Alike (setPinned t p vm) (setPinned t p (vm.alter m d)) := by
  unfold setPinned
  simp only [alter]
  split
  · exact ⟨m, d, hd, rfl⟩
  · exact ⟨m, d, hd, rfl⟩

/-- Whether `page_in` succeeds, and what it does to everything but contents, does not depend on
contents. -/
theorem pageIn_alike {a : Alloc} {t addr : Nat} {stackPage : Bool}
    (hd : d.size = vm.swapDev.size) :
    SameOutcome Alike (pageIn a t addr stackPage vm)
      (pageIn a t addr stackPage (vm.alter m d)) := by
  have hobt := @obtainFrame_alike F vm m d _ a t (addr / 4096 * 4096) hd
  unfold pageIn
  simp only
  have hprocs : (vm.alter m d).procs = vm.procs := rfl
  rw [hprocs]
  cases vm.procs t with
  | none => exact .error .panic
  | some pr =>
    simp only
    split
    · exact exitProc_alike hd
    · generalize obtainFrame a t _ vm = r at hobt
      generalize obtainFrame a t _ (vm.alter m d) = r' at hobt
      cases hobt with
      | error c => exact .error c
      | @ok x y hxy =>
        obtain ⟨r, vm₁⟩ := x
        obtain ⟨r', vm₁'⟩ := y
        obtain ⟨hr, m₁, d₁, hd₁, hvm⟩ := hxy
        simp only at hr hd₁ hvm
        subst hr hvm
        cases r' with
        | none => exact exitProc_alike hd₁
        | some f =>
          simp only
          split
          · exact growStack_alike hd₁
          · have hload := @loadPage_alike F vm₁ m₁ d₁ a t (addr / 4096 * 4096) f hd₁
            generalize loadPage a t _ f vm₁ = r at hload
            generalize loadPage a t _ f (vm₁.alter m₁ d₁) = r' at hload
            cases hload with
            | error c => exact .error c
            | ok hxy =>
              obtain ⟨m₂, d₂, hd₂, hy⟩ := hxy
              simp only [hy]
              exact .ok (setPinned_alike hd₂)

/-! ## No leak -/

/-- **A frame that is used again shows nothing of what it held.** In every state that a run
reaches, a page that is not present is brought in with the same outcome, and the process sees the
same bytes, whatever the memory held before: in particular the frame that `get_user_page` or
`evict_page` returns. -/
theorem pageIn_leaks_nothing {vm₀ : Vm F} {es : List Event} (hboot : Boot vm₀)
    (hsize : vm₀.swapTable.bitCnt < 2 ^ 32) (hrun : Runs Step (fun _ _ => True) vm₀ es vm)
    {a : Alloc} {t addr : Nat} {stackPage : Bool} (habs : (vm.pte t addr).present = false)
    (m : Mem) :
    (pageIn a t addr stackPage { vm with mem := m }).map (·.seen t addr) =
      (pageIn a t addr stackPage vm).map (·.seen t addr) := by
  have ha : SlotsApart vm :=
    Runs.invariant (fun hi _ hstep => hi.step hstep) hrun (hboot.slotsApart hsize)
  have ha' : SlotsApart { vm with mem := m } := ⟨ha.wf, ha.slot, ha.apart, ha.size⟩
  have hsame : SameOutcome Alike (pageIn a t addr stackPage vm)
      (pageIn a t addr stackPage { vm with mem := m }) := pageIn_alike rfl
  have hseen := fun vm' => @pageIn_seen F vm vm' _ a t addr stackPage ha habs
  have hseen' := fun vm' => @pageIn_seen F { vm with mem := m } vm' _ a t addr stackPage ha' habs
  generalize pageIn a t addr stackPage vm = r at hsame hseen
  generalize pageIn a t addr stackPage { vm with mem := m } = r' at hsame hseen'
  cases hsame with
  | error c => rfl
  | @ok x y hxy =>
    have hpte : y.pte t addr = x.pte t addr := by
      obtain ⟨m', d', -, rfl⟩ := hxy
      rfl
    show Except.ok (y.seen t addr) = Except.ok (x.seen t addr)
    unfold seen
    rw [hpte]
    by_cases hp : (x.pte t addr).present = true
    · have hx := hseen x rfl hp
      have hy := hseen' y rfl (hpte ▸ hp)
      rw [hpte] at hy
      rw [if_pos hp, if_pos hp, hx, hy]
      rfl
    · rw [if_neg hp, if_neg hp]

end Alike

/-- A process has stored to its stack page, which has the only frame. -/
def stackStored : Vm FrameTable :=
  [loadText 0xc0100000, .store 0xc0100000 0xbffffff0 5].foldl next (bootWith 1 16 textDisk)

/-- Its text comes into the frame of the stack page, with no trace of what the stack held. -/
theorem pageIn_leaks_nothing_text :
    (pageIn ⟨true, true⟩ 0xc0100000 0x8048000 false { stackStored with mem := fun _ => 0x55 }).map
        (·.seen 0xc0100000 0x8048000) =
      (pageIn ⟨true, true⟩ 0xc0100000 0x8048000 false stackStored).map
        (·.seen 0xc0100000 0x8048000) ∧
    (pageIn ⟨true, true⟩ 0xc0100000 0x8048000 false stackStored).isOk = true :=
  ⟨pageIn_leaks_nothing (boot_bootWith 1 16 textDisk) (by decide)
    (runs_of_allowed (fun _ _ => true) (fun _ _ _ => trivial) (by decide +kernel))
    (by decide +kernel) _, by decide +kernel⟩

end Vm

end Pintos
