import Pintos.Vm.Steps

/-!
# Evictions that fail (`vm/frame.c`)

`evict_page` has no error path. When every entry is pinned its search runs into the null pointer at
the end of the table, and the kernel faults at the `pin_sema` of a null entry while it holds
`ft_sema`. When swap space is full `swap_write` returns `BITMAP_ERROR`, which is recorded as if it
were a sector, and the page is unmapped.
-/

namespace Pintos

open Lib Option

namespace Vm

/-! ## Nothing to evict -/

/-- How a call of `evict_page` ends, with the value of `ft_sema` then. -/
inductive EvictOutcome (F : Type)
  | returned (frame : Option Nat) (vm : Vm F) (ftSema : Nat)
  | crashed (c : Crash) (ftSema : Nat)

/-- `evict_page` with its `sema_down` and `sema_up` of `ft_sema`, which had the value `ftSema + 1`. -/
def evictPageLocked {F : Type} [FrameTableOps F] (a : Alloc) (t newAddr : Nat) (vm : Vm F)
    (ftSema : Nat) : EvictOutcome F :=
  match evictPage a t newAddr vm with
  | .ok (frame, vm) => .returned frame vm (ftSema + 1)
  | .error c => .crashed c ftSema

/-- If every entry is pinned, `evict_page` returns null and changes nothing. -/
def FailsCleanly (a : Alloc) (t newAddr : Nat) (vm : Vm FrameTable) (ftSema : Nat) : Prop :=
  (∀ i ∈ hashElems vm.ft.ft, (vm.ft.entry i).pinSema = 0) →
    evictPageLocked a t newAddr vm ftSema = .returned none vm (ftSema + 1)

theorem evictPageLocked_pinned {a : Alloc} {t newAddr ftSema : Nat} {vm : Vm FrameTable}
    (h : ∀ i ∈ hashElems vm.ft.ft, (vm.ft.entry i).pinSema = 0) :
    evictPageLocked a t newAddr vm ftSema = .crashed .panic ftSema := by
  have hsel : FrameTableOps.select vm.ft = none := FrameTable.select_eq_none.mpr h
  unfold evictPageLocked evictPage
  rw [hsel]

/-- `evict_page` fails cleanly only where it need not fail: some entry is not pinned. -/
theorem failsCleanly_iff (a : Alloc) (t newAddr : Nat) (vm : Vm FrameTable) (ftSema : Nat) :
    FailsCleanly a t newAddr vm ftSema ↔
      ∃ i ∈ hashElems vm.ft.ft, 0 < (vm.ft.entry i).pinSema := by
  constructor
  · intro h
    by_contra hnone
    have hall : ∀ i ∈ hashElems vm.ft.ft, (vm.ft.entry i).pinSema = 0 := by
      intro i hi
      by_contra hpos
      exact hnone ⟨i, hi, Nat.pos_of_ne_zero hpos⟩
    have hret := h hall
    rw [evictPageLocked_pinned hall] at hret
    cases hret
  · rintro ⟨i, hi, hpos⟩ hall
    exact absurd (hall i hi) (Nat.ne_of_gt hpos)

/-- A machine after boot has an empty table: the eviction panics, and `ft_sema` stays taken. -/
theorem empty_table_panics :
    hashElems (bootWith 1 16 textDisk).ft.ft = [] ∧
      evictPageLocked ⟨true, true⟩ 0xc0100000 0x8048000 (bootWith 1 16 textDisk) 0 =
        .crashed .panic 0 :=
  ⟨by decide, rfl⟩

/-! ## No room in swap space -/

section Swap

variable {F : Type} {vm vm' : Vm F} {v p : Nat}

/-- Page `p` of process `v` is still in its frame, or its entry says where `load_page` gets its bytes
from. -/
def Recoverable (vm vm' : Vm F) (v p : Nat) : Prop :=
  ((vm'.pte v p).present = true ∧ (vm'.pte v p).frame = (vm.pte v p).frame) ∨
  ∃ e, vm'.spte v p = some e ∧ ∀ m f, ∃ table m',
    fillFrame vm'.fsDev vm'.swapDev vm'.swapTable e m f = some (table, m') ∧
    ∀ o < 4096, m' (f + o) = vm.mem ((vm.pte v p).frame + o)

/-- No entry records `BITMAP_ERROR` as the sector of its slot. -/
def NoErrorSector (vm : Vm F) : Prop :=
  ∀ t va e, vm.spte t va = some e → e.location = .swap → e.sector ≠ 4294967295

/-- The eviction of a page loses nothing. -/
def KeepsPage (vm vm' : Vm F) (v p : Nat) : Prop :=
  Recoverable vm vm' v p ∧ (NoErrorSector vm → NoErrorSector vm')

/-- `evict_page` writes the page out: it is dirty, or its entry says `SWAP_SYS`. -/
def WrittenOut (vm : Vm F) (v p : Nat) : Prop :=
  (vm.pte v p).dirty = true ∨ ∃ e, vm.spte v p = some e ∧ e.location = .swap

section

variable (h : Evicted vm vm' v p) (hout : WrittenOut vm v p) (hp : (vm.pte v p).present = true)
include h hout hp

theorem Evicted.written :
    ∃ sector, swapWrite vm.swapTable vm.swapDev vm.mem (vm.pte v p).frame =
        some (sector, vm'.swapTable, vm'.swapDev) ∧
      ∀ t va, vm'.spte t va =
        if t = v ∧ va = p then (vm.spte v p).map (·.setSwap (sector.getD 4294967295))
        else vm.spte t va := by
  rcases h.outcome with ⟨hclean, ⟨e, he, hloc⟩, -⟩ | ⟨src, sector, ⟨-, hsrc⟩, hwrite, hspte⟩
  · rcases hout with hdirty | ⟨e', he', hswap⟩
    · rw [hclean] at hdirty
      cases hdirty
    · rw [he] at he'
      cases he'
      exact absurd hswap hloc
  · rw [hsrc hp] at hwrite
    exact ⟨sector, hwrite, hspte⟩

theorem Evicted.keepsPage (hcnt : vm.swapTable.bitCnt < 4294967296) (hfree : FreeSlot vm.swapTable)
    (hentry : (vm.spte v p).isSome = true) :
    KeepsPage vm vm' v p := by
  obtain ⟨sector, hwrite, hspte⟩ := h.written hout hp
  obtain ⟨i, rfl⟩ := isSome_iff_exists.mp ((swapWrite_isSome_iff hwrite).mpr hfree)
  obtain ⟨e, he⟩ := isSome_iff_exists.mp hentry
  constructor
  · refine .inr ⟨e.setSwap i, ?_, fun m f => ?_⟩
    · rw [hspte, if_pos ⟨rfl, rfl⟩, he]
      rfl
    · obtain ⟨m', hread, hbytes⟩ := @swapRead_of_swapWrite _ _ _ _ _ m _ _ f hwrite
      refine ⟨bitmapMark vm'.swapTable i, m'.fill f 0 0, ?_, fun o ho => ?_⟩
      · simp only [fillFrame, Spte.setSwap, hread]
      · rw [Mem.fill_out (by omega)]
        exact hbytes o ho
  · intro hno t va e' he' hloc
    rw [hspte] at he'
    split at he'
    · obtain ⟨e₀, -, rfl⟩ := map_eq_some_iff.mp he'
      have hw := swapWrite_some hwrite
      have hfits := hw.held.fits
      rw [hw.bitCnt_eq] at hfits
      show i ≠ 4294967295
      omega
    · exact hno t va e' he' hloc

theorem Evicted.full (hfull : ¬ FreeSlot vm.swapTable) :
    vm'.swapTable = vm.swapTable ∧ vm'.spte v p = (vm.spte v p).map (·.setSwap 4294967295) := by
  obtain ⟨sector, hwrite, hspte⟩ := h.written hout hp
  have hnone : sector = none := by
    rw [← not_isSome_iff_eq_none]
    exact fun hsome => hfull ((swapWrite_isSome_iff hwrite).mp hsome)
  subst hnone
  exact ⟨(swapWrite_none hwrite).1, (hspte v p).trans (if_pos ⟨rfl, rfl⟩)⟩

theorem Evicted.not_recoverable (hcnt : vm.swapTable.bitCnt < 4294967296)
    (hfull : ¬ FreeSlot vm.swapTable) : ¬ Recoverable vm vm' v p := by
  obtain ⟨htable, hspte⟩ := h.full hout hp hfull
  rintro (⟨hin, -⟩ | ⟨e, he, hfill⟩)
  · rw [h.pte, if_pos ⟨rfl, rfl⟩] at hin
    cases hin
  · rw [hspte] at he
    obtain ⟨e₀, -, rfl⟩ := map_eq_some_iff.mp he
    obtain ⟨table, m', hload, -⟩ := hfill (fun _ => 0) 0
    -- `swap_read` marks bit 2^32 - 1, which no table has
    have hend : ¬ (4294967295 < vm'.swapTable.bitCnt) := by
      rw [htable]
      omega
    simp [fillFrame, Spte.setSwap, swapRead, hend] at hload

theorem Evicted.entry_of_recoverable (hr : Recoverable vm vm' v p) :
    (vm.spte v p).isSome = true := by
  obtain ⟨sector, -, hspte⟩ := h.written hout hp
  rcases hr with ⟨hin, -⟩ | ⟨e, he, -⟩
  · rw [h.pte, if_pos ⟨rfl, rfl⟩] at hin
    cases hin
  · rw [hspte, if_pos ⟨rfl, rfl⟩] at he
    obtain ⟨e₀, he₀, -⟩ := map_eq_some_iff.mp he
    rw [he₀]
    rfl

end

/-- A present page that `evict_page` has to write out is kept if and only if there is a free slot in
swap space and the page has a supplemental entry. -/
theorem keepsPage_iff [FrameTableOps F] (a : Alloc) (t newAddr : Nat) (vm vm' : Vm F)
    (r : Option Nat) (s : Selection) (ft : F) (hcnt : vm.swapTable.bitCnt < 4294967296)
    (hsel : FrameTableOps.select vm.ft = some (s, ft))
    (hev : evictPage a t newAddr vm = .ok (r, vm'))
    (hp : (vm.pte (FrameTableOps.thread ft s.chosen)
      (FrameTableOps.vaddr ft s.chosen)).present = true)
    (hout : WrittenOut vm (FrameTableOps.thread ft s.chosen) (FrameTableOps.vaddr ft s.chosen)) :
    KeepsPage vm vm' (FrameTableOps.thread ft s.chosen) (FrameTableOps.vaddr ft s.chosen) ↔
      FreeSlot vm.swapTable ∧
        (vm.spte (FrameTableOps.thread ft s.chosen)
          (FrameTableOps.vaddr ft s.chosen)).isSome = true := by
  obtain ⟨s', ft', hsel', -, h, -⟩ := evictPage_ok hev
  rw [hsel] at hsel'
  cases hsel'
  constructor
  · rintro ⟨hr, -⟩
    refine ⟨?_, h.entry_of_recoverable hout hp hr⟩
    by_contra hfull
    exact h.not_recoverable hout hp hcnt hfull hr
  · rintro ⟨hfree, hentry⟩
    exact h.keepsPage hout hp hcnt hfree hentry

end Swap

/-- A process has stored to its stack page, which has the only frame; swap space has `sectors`. -/
def stackDirty (sectors : Nat) : Vm FrameTable :=
  [loadText 0xc0100000, .store 0xc0100000 0xbffffff0 5].foldl next (bootWith 1 sectors textDisk)

/-- `evict_page` takes a page there that is present and dirty and has an entry. -/
def evictsDirty (sectors : Nat) : Bool :=
  (evictPage ⟨true, true⟩ 0xc0100000 0x8048000 (stackDirty sectors)).isOk &&
    (FrameTableOps.select (stackDirty sectors).ft).any fun c =>
      let v := FrameTableOps.thread c.2 c.1.chosen
      let p := FrameTableOps.vaddr c.2 c.1.chosen
      ((stackDirty sectors).pte v p).present && ((stackDirty sectors).pte v p).dirty &&
        ((stackDirty sectors).spte v p).isSome

theorem exists_of_evictsDirty {sectors : Nat} (h : evictsDirty sectors = true) :
    ∃ s ft r vm', FrameTableOps.select (stackDirty sectors).ft = some (s, ft) ∧
      evictPage ⟨true, true⟩ 0xc0100000 0x8048000 (stackDirty sectors) = .ok (r, vm') ∧
      (((stackDirty sectors).pte (FrameTableOps.thread ft s.chosen)
          (FrameTableOps.vaddr ft s.chosen)).present = true ∧
        ((stackDirty sectors).pte (FrameTableOps.thread ft s.chosen)
          (FrameTableOps.vaddr ft s.chosen)).dirty = true) ∧
      ((stackDirty sectors).spte (FrameTableOps.thread ft s.chosen)
        (FrameTableOps.vaddr ft s.chosen)).isSome = true := by
  obtain ⟨hok, hany⟩ := (Bool.and_eq_true _ _).mp h
  cases hsel : FrameTableOps.select (stackDirty sectors).ft with
  | none =>
    rw [hsel] at hany
    cases hany
  | some c =>
    cases hev : evictPage ⟨true, true⟩ 0xc0100000 0x8048000 (stackDirty sectors) with
    | error e =>
      rw [hev] at hok
      cases hok
    | ok o =>
      rw [hsel] at hany
      simp only [any_some, Bool.and_eq_true] at hany
      exact ⟨c.1, c.2, o.1, o.2, rfl, rfl, hany⟩

/-- With sixteen sectors the stack page goes to a slot. -/
theorem keepsPage_sixteen_sectors :
    ∃ s ft r vm', FrameTableOps.select (stackDirty 16).ft = some (s, ft) ∧
      evictPage ⟨true, true⟩ 0xc0100000 0x8048000 (stackDirty 16) = .ok (r, vm') ∧
      KeepsPage (stackDirty 16) vm' (FrameTableOps.thread ft s.chosen)
        (FrameTableOps.vaddr ft s.chosen) := by
  have hdirty : evictsDirty 16 = true := by decide +kernel
  obtain ⟨s, ft, r, vm', hsel, hev, ⟨hp, hd⟩, he⟩ := exists_of_evictsDirty hdirty
  refine ⟨s, ft, r, vm', hsel, hev, ?_⟩
  exact (keepsPage_iff ⟨true, true⟩ 0xc0100000 0x8048000 (stackDirty 16) vm' r s ft
    (by decide +kernel) hsel hev hp (.inl hd)).mpr ⟨⟨0, by decide +kernel, by decide +kernel⟩, he⟩

/-- With seven sectors it is lost, and its entry records `BITMAP_ERROR`. -/
theorem full_swap_loses_page :
    ∃ s ft r vm', FrameTableOps.select (stackDirty 7).ft = some (s, ft) ∧
      evictPage ⟨true, true⟩ 0xc0100000 0x8048000 (stackDirty 7) = .ok (r, vm') ∧
      ((stackDirty 7).pte (FrameTableOps.thread ft s.chosen)
        (FrameTableOps.vaddr ft s.chosen)).dirty = true ∧
      ¬ Recoverable (stackDirty 7) vm' (FrameTableOps.thread ft s.chosen)
        (FrameTableOps.vaddr ft s.chosen) ∧ ¬ NoErrorSector vm' := by
  have hdirty : evictsDirty 7 = true := by decide +kernel
  obtain ⟨s, ft, r, vm', hsel, hev, ⟨hp, hd⟩, hentry⟩ := exists_of_evictsDirty hdirty
  obtain ⟨s', ft', hsel', -, h, -⟩ := evictPage_ok hev
  rw [hsel] at hsel'
  cases hsel'
  have hcnt : (stackDirty 7).swapTable.bitCnt = 7 := by decide +kernel
  have hfull : ¬ FreeSlot (stackDirty 7).swapTable := by
    rintro ⟨i, hi, -⟩
    omega
  refine ⟨s, ft, r, vm', hsel, hev, hd, h.not_recoverable (.inl hd) hp (by omega) hfull, ?_⟩
  intro hno
  obtain ⟨e, he⟩ := isSome_iff_exists.mp hentry
  have hspte := (h.full (.inl hd) hp hfull).2
  rw [he] at hspte
  exact hno _ _ _ hspte rfl rfl

end Vm

end Pintos
