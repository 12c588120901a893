import Pintos.Vm.Evict
import Pintos.Vm.Transparency

/-!
# An eviction and the stores of its victim

While `evict_page` waits for the disk the victim keeps running, and its page stays present until
`pagedir_clear_page`. Here stores of the victim into the page fall between the steps of the eviction
(`Vm.evictStep`).

A byte is *read* by the eviction when its sector is written to swap, or, if the page is not written
out, by the dirty test, which then relies on what the devices hold. A store that falls after that is
*late*.
-/

namespace Pintos

open Lib Function Option Vm

/-- What can happen next: a step of `evict_page`, or a store of the victim into the page. -/
inductive EvictEvent
  | run
  | store (o : Nat) (b : UInt8)
  deriving DecidableEq

/-- An eviction under way. `frameAddr` is the frame. The last two fields record what the eviction has
read of each byte, and the last store to it after that. -/
structure Eviction (F : Type) where
  vm : Vm F
  pc : EvictPc
  frameAddr : Nat
  read : Nat → Option UInt8
  late : Nat → Option UInt8

namespace Eviction

variable {F : Type}

/-- `evict_page` after it has looked up `frame_addr` of page `p` of process `v`. -/
def start (vm : Vm F) (v p : Nat) : Eviction F where
  vm := vm
  pc := .test
  frameAddr := (vm.pte v p).frame
  read _ := none
  late _ := none

/-- The bytes of the frame for which `c` holds have been read. -/
def readBytes (s : Eviction F) (c : Nat → Bool) (o : Nat) : Option UInt8 :=
  if c o then some (s.vm.mem (s.frameAddr + o)) else s.read o

/-- What has been read once the eviction goes on to `next`. -/
def nowRead (s : Eviction F) (next : EvictPc) : Nat → Option UInt8 :=
  match s.pc with
  | .test => if next = .clear then s.readBytes fun _ => true else s.read
  | .write _ k => s.readBytes fun o => o / 512 == k
  | _ => s.read

/-- The next step of `evict_page`, for page `p` of process `v`. -/
def advance (v p : Nat) (s : Eviction F) : Option (Eviction F) :=
  match s.vm.evictStep (some s.frameAddr) v p s.pc with
  | none => none
  | some (pc, vm) =>
    some { s with
      vm := vm
      pc := pc
      read := s.nowRead pc }

/-- The late stores once `b` is stored at offset `o`. -/
def noteStore (s : Eviction F) (o : Nat) (b : UInt8) : Nat → Option UInt8 :=
  if (s.read o).isSome then update s.late o (some b) else s.late

/-- One event. A store needs a present, writable page. -/
def step (v p : Nat) (s : Eviction F) : EvictEvent → Option (Eviction F)
  | .run => s.advance v p
  | .store o b =>
    if o < 4096 ∧ (s.vm.pte v p).present ∧ (s.vm.pte v p).writable then
      match Vm.storeByte v (p + o) b s.vm with
      | .ok vm =>
        some { s with
          vm := vm
          late := s.noteStore o b }
      | .error _ => none
    else none

/-- The steps of the race. -/
def Step (v p : Nat) (s : Eviction F) (e : EvictEvent) (s' : Eviction F) : Prop :=
  s.step v p e = some s'

/-! ## The invariant of the race -/

/-- What `block_write` has put on the swap device is what the eviction has read. -/
def Saved (s : Eviction F) (sector n : Nat) : Prop :=
  ∀ o < 4096, ((s.read o).isSome = true ↔ o / 512 < n) ∧
    ∀ b, s.read o = some b → s.vm.swapDev.byteFrom sector o = b

/-- The devices have the bytes that the eviction has read, all of them. -/
def Kept (v p : Nat) (s : Eviction F) : Prop :=
  ∃ e, s.vm.spte v p = some e ∧ e.Wf ∧
    ∀ o < 4096, s.read o = some (backing s.vm.fsDev s.vm.swapDev e o)

/-- `swap_write` found no slot, and the entry has `BITMAP_ERROR` for a sector. -/
def Slotless (v p : Nat) (s : Eviction F) : Prop :=
  ∃ e, s.vm.spte v p = some e ∧ e.Wf ∧ e.location = .swap ∧ e.sector = 4294967295

/-- What is known at each step. -/
def AtPc (v p : Nat) (s : Eviction F) : EvictPc → Prop
  | .test => (∀ o, s.read o = none) ∧
      ∃ e, s.vm.spte v p = some e ∧ e.Wf ∧
        ((s.vm.pte v p).dirty = true ∨ e.location = .swap ∨
          ∀ o < 4096, backing s.vm.fsDev s.vm.swapDev e o = s.vm.mem (s.frameAddr + o))
  | .flip => (∀ o, s.read o = none) ∧ ∃ e, s.vm.spte v p = some e ∧ e.Wf
  | .write sector k => k < 8 ∧ s.Saved sector k ∧ ∃ e, s.vm.spte v p = some e ∧ e.Wf
  | .record sector => (sector = 4294967295 ∨ s.Saved sector 8) ∧
      ∃ e, s.vm.spte v p = some e ∧ e.Wf
  | .clear => s.Slotless v p ∨ s.Kept v p
  | .done => s.Slotless v p ∨ s.Kept v p

/-- The invariant: where the eviction has read a byte, the frame has that byte or the last late
store. -/
structure RaceInv (v p : Nat) (s : Eviction F) : Prop where
  aligned : p % 4096 = 0
  frame : s.frameAddr = (s.vm.pte v p).frame
  present : (s.vm.pte v p).present = decide (s.pc ≠ .done)
  bitCnt : s.vm.swapTable.bitCnt ≤ 4294967295
  byte : ∀ o < 4096, ∀ b, s.read o = some b → s.vm.mem (s.frameAddr + o) = (s.late o).getD b
  unread : ∀ o, s.read o = none → s.late o = none
  atPc : s.AtPc v p s.pc

section Race

variable {v p : Nat} {s s' : Eviction F}

theorem noteStore_ne {o o' : Nat} {b : UInt8} (h : o' ≠ o) : s.noteStore o b o' = s.late o' := by
  unfold noteStore
  split
  · rw [update_of_ne h]
  · rfl

theorem noteStore_self {o : Nat} {b : UInt8} (h : (s.read o).isSome = true) :
    s.noteStore o b o = some b := by
  unfold noteStore
  rw [if_pos h, update_self]

theorem RaceInv.store {o : Nat} {b : UInt8} (h : RaceInv v p s)
    (hstep : s.step v p (.store o b) = some s') : RaceInv v p s' := by
  simp only [step] at hstep
  split at hstep
  · next hok =>
    split at hstep
    · next vm hst =>
      cases hstep
      obtain ⟨ho, -, -⟩ := hok
      obtain ⟨hst, -⟩ := storeByte_ok hst
      have hal := h.aligned
      have hpage : (p + o) / 4096 = p / 4096 := by omega
      have hofs : (p + o) % 4096 = o := by omega
      have hpte : vm.pte v p = { s.vm.pte v p with dirty := true } := by
        rw [hst.pte, if_pos ⟨rfl, hpage.symm⟩]
      have hmem : vm.mem = update s.vm.mem (s.frameAddr + o) b := by
        rw [hst.mem, hofs, pte_page s.vm v hpage, h.frame]
      refine
        { aligned := hal
          frame := by rw [hpte]; exact h.frame
          present := by rw [hpte]; exact h.present
          bitCnt := by rw [hst.swapTable]; exact h.bitCnt
          byte := fun o' ho' b' hread => ?_
          unread := fun o' hread => ?_
          atPc := ?_ }
      · change s.read o' = some b' at hread
        show vm.mem (s.frameAddr + o') = (s.noteStore o b o').getD b'
        rw [hmem]
        by_cases hoo : o' = o
        · subst hoo
          rw [update_self, noteStore_self (by rw [hread]; rfl), getD_some]
        · rw [update_of_ne (by omega), noteStore_ne hoo, h.byte o' ho' b' hread]
      · change s.read o' = none at hread
        show s.noteStore o b o' = none
        by_cases hoo : o' = o
        · subst hoo
          unfold noteStore
          rw [if_neg (by rw [hread]; simp), h.unread o' hread]
        · rw [noteStore_ne hoo, h.unread o' hread]
      · have hatPc := h.atPc
        have hspte : vm.spte v p = s.vm.spte v p := hst.spte v p
        cases hpc : s.pc with
        | test =>
          simp only [hpc, AtPc] at hatPc ⊢
          obtain ⟨hread, e, he, hwf, -⟩ := hatPc
          exact ⟨hread, e, by rw [hspte, he], hwf, .inl (by rw [hpte])⟩
        | flip =>
          simp only [hpc, AtPc, hspte] at hatPc ⊢
          exact hatPc
        | write sector k | record sector =>
          simp only [hpc, AtPc, Saved, hspte, hst.swapDev] at hatPc ⊢
          exact hatPc
        | clear | done =>
          simp only [hpc, AtPc, Slotless, Kept, hspte, hst.swapDev, hst.fsDev] at hatPc ⊢
          exact hatPc
    · cases hstep
  · cases hstep

theorem RaceInv.procs (h : RaceInv v p s) : ∃ pr, s.vm.procs v = some pr := by
  have hat := h.atPc
  have hsp : ∃ e, s.vm.spte v p = some e := by
    cases hpc : s.pc with
    | test | flip | record sector =>
      rw [hpc] at hat
      obtain ⟨-, e, he, -⟩ := hat
      exact ⟨e, he⟩
    | write sector k =>
      rw [hpc] at hat
      obtain ⟨-, -, e, he, -⟩ := hat
      exact ⟨e, he⟩
    | clear | done =>
      rw [hpc] at hat
      rcases hat with ⟨e, he, -⟩ | ⟨e, he, -⟩ <;> exact ⟨e, he⟩
  obtain ⟨e, he⟩ := hsp
  unfold spte at he
  split at he
  · next pr hpr => exact ⟨pr, hpr⟩
  · cases he

variable {pc : EvictPc} {vm : Vm F}

section

variable (h : RaceInv v p s)
include h

theorem RaceInv.goto (hne : s.pc ≠ .done) (hnext : pc ≠ .done) (hpte : vm.pte v p = s.vm.pte v p)
    (hmem : vm.mem = s.vm.mem) (hcnt : vm.swapTable.bitCnt = s.vm.swapTable.bitCnt)
    (hat : AtPc v p { s with vm := vm, pc := pc } pc) :
    RaceInv v p { s with vm := vm, pc := pc } where
  aligned := h.aligned
  frame := by
    rw [hpte]
    exact h.frame
  present := by
    rw [hpte, h.present, decide_eq_true hne, decide_eq_true hnext]
  bitCnt := hcnt.le.trans h.bitCnt
  byte := by
    rw [hmem]
    exact h.byte
  unread := h.unread
  atPc := hat

/-- The dirty test. A page that is not written out is on the devices as it is in the frame. -/
theorem RaceInv.test (hpc : s.pc = .test)
    (hstep : s.vm.evictStep (some s.frameAddr) v p .test = some (pc, vm)) :
    RaceInv v p { s with vm := vm, pc := pc, read := s.nowRead pc } := by
  obtain ⟨pr, hpr⟩ := h.procs
  have hat := h.atPc
  have hpresent := h.present
  rw [hpc] at hat hpresent
  obtain ⟨hread, e, he, hwf, hclean⟩ := hat
  have hflip : RaceInv v p { s with pc := .flip, read := s.nowRead .flip } := by
    have hsame : s.nowRead .flip = s.read := by simp [nowRead, hpc]
    rw [hsame]
    exact h.goto (by rw [hpc]; simp) (by simp) rfl rfl rfl ⟨hread, e, he, hwf⟩
  simp only [evictStep, hpr] at hstep
  split at hstep
  · cases hstep
    exact hflip
  · next hdirty =>
    rw [← spte_of_procs hpr, he] at hstep
    simp only at hstep
    split at hstep
    · cases hstep
      exact hflip
    · next hloc =>
      cases hstep
      have hback : ∀ o < 4096, backing s.vm.fsDev s.vm.swapDev e o =
          s.vm.mem (s.frameAddr + o) := by
        rcases hclean with hd | hl | hb
        · rw [pte_of_procs hpr] at hd
          exact absurd hd hdirty
        · exact absurd hl hloc
        · exact hb
      have hall : s.nowRead .clear = s.readBytes fun _ => true := by simp [nowRead, hpc]
      rw [hall]
      refine
        { aligned := h.aligned
          frame := h.frame
          present := hpresent
          bitCnt := h.bitCnt
          byte := fun o _ b hb => ?_
          unread := fun o hn => ?_
          atPc := .inr ⟨e, he, hwf, fun o ho => ?_⟩ }
      · simp only [readBytes, if_true, Option.some.injEq] at hb
        rw [h.unread o (hread o), getD_none, ← hb]
      · simp [readBytes] at hn
      · simp only [readBytes, if_true]
        rw [hback o ho]

theorem RaceInv.flip (hpc : s.pc = .flip)
    (hstep : s.vm.evictStep (some s.frameAddr) v p .flip = some (pc, vm)) :
    RaceInv v p { s with vm := vm, pc := pc, read := s.nowRead pc } := by
  have hat := h.atPc
  rw [hpc] at hat
  obtain ⟨hread, hentry⟩ := hat
  have hsame : s.nowRead pc = s.read := by simp [nowRead, hpc]
  have hne : s.pc ≠ .done := by rw [hpc]; simp
  rw [hsame]
  rcases evictStep_flip hstep with ⟨i, table, hflip, rfl, rfl⟩ | ⟨-, rfl, rfl⟩
  · obtain ⟨-, hcnt, -, -⟩ := bitmapScanAndFlip_some hflip
    exact h.goto hne (by simp) rfl rfl hcnt
      ⟨by decide, fun o _ => ⟨by simp [hread], fun b hb => by simp [hread] at hb⟩, hentry⟩
  · exact h.goto hne (by simp) rfl rfl rfl ⟨.inl rfl, hentry⟩

theorem RaceInv.write {sector k : Nat} (hpc : s.pc = .write sector k)
    (hstep : s.vm.evictStep (some s.frameAddr) v p (.write sector k) = some (pc, vm)) :
    RaceInv v p { s with vm := vm, pc := pc, read := s.nowRead pc } := by
  have hat := h.atPc
  have hpresent := h.present
  rw [hpc] at hat hpresent
  obtain ⟨hk, hsaved, hentry⟩ := hat
  obtain ⟨a, dev, ha, hdev, rfl, rfl⟩ := evictStep_write hstep
  cases ha
  obtain ⟨-, -, hdata⟩ := blockWrite_some hdev
  have hnow : ∀ pc, s.nowRead pc = s.readBytes fun o => o / 512 == k := by simp [nowRead, hpc]
  rw [hnow]
  -- The sectors before this one stay, and this one is now the frame's.
  have hsaved' : ∀ o < 4096,
      ((s.readBytes (fun o => o / 512 == k) o).isSome = true ↔ o / 512 < k + 1) ∧
        ∀ b, s.readBytes (fun o => o / 512 == k) o = some b → dev.byteFrom sector o = b := by
    intro o ho
    obtain ⟨hsome, hbyte⟩ := hsaved o ho
    unfold readBytes Block.byteFrom
    rw [hdata]
    by_cases hok : o / 512 = k
    · have hofs : s.frameAddr + 512 * k + o % 512 = s.frameAddr + o := by omega
      simp [hok, hofs]
    · have hne : sector + o / 512 ≠ sector + k := by omega
      simp only [beq_iff_eq, hok, if_false, if_neg hne]
      exact ⟨hsome.trans ⟨fun h => by omega, fun h => by omega⟩, hbyte⟩
  have hbyte : ∀ o < 4096, ∀ b, s.readBytes (fun o => o / 512 == k) o = some b →
      s.vm.mem (s.frameAddr + o) = (s.late o).getD b := by
    intro o ho b hb
    unfold readBytes at hb
    split at hb
    · next hok =>
      have hok : o / 512 = k := by simpa using hok
      have hnone : s.read o = none := by
        rw [← not_isSome_iff_eq_none, (hsaved o ho).1]
        omega
      rw [h.unread o hnone, getD_none, Option.some.inj hb]
    · exact h.byte o ho b hb
  have hunread : ∀ o, s.readBytes (fun o => o / 512 == k) o = none → s.late o = none := by
    intro o hn
    unfold readBytes at hn
    split at hn
    · cases hn
    · exact h.unread o hn
  by_cases hlast : k + 1 < 8
  · simp only [if_pos hlast]
    exact ⟨h.aligned, h.frame, hpresent, h.bitCnt, hbyte, hunread, hlast, hsaved', hentry⟩
  · have hk8 : k + 1 = 8 := by omega
    simp only [if_neg hlast]
    rw [hk8] at hsaved'
    exact ⟨h.aligned, h.frame, hpresent, h.bitCnt, hbyte, hunread, .inr hsaved', hentry⟩

theorem RaceInv.record {sector : Nat} (hpc : s.pc = .record sector)
    (hstep : s.vm.evictStep (some s.frameAddr) v p (.record sector) = some (pc, vm)) :
    RaceInv v p { s with vm := vm, pc := pc, read := s.nowRead pc } := by
  have hat := h.atPc
  rw [hpc] at hat
  obtain ⟨hsaved, e, he, hwf⟩ := hat
  obtain ⟨pr, hpr, rfl, rfl⟩ := evictStep_record hstep
  have hspte : (s.vm.setProc v { pr with supdir := (supdirSetSwap pr.supdir p sector).2 }).spte v p =
      some (e.setSwap sector) := by
    rw [spte_setProc, if_pos rfl, lookup_setSwap, if_pos rfl, ← spte_of_procs hpr, he]
    rfl
  have hsame : s.nowRead .clear = s.read := by simp [nowRead, hpc]
  rw [hsame]
  refine h.goto (by rw [hpc]; simp) (by simp) (pte_setSupdir hpr _ v p) rfl rfl ?_
  rcases hsaved with rfl | hsaved
  · exact .inl ⟨_, hspte, hwf.setSwap _, rfl, rfl⟩
  · refine .inr ⟨_, hspte, hwf.setSwap sector, fun o ho => ?_⟩
    obtain ⟨hsome, hbyte⟩ := hsaved o ho
    obtain ⟨b, hb⟩ := isSome_iff_exists.mp (hsome.mpr (by omega))
    show s.read o = some (s.vm.swapDev.byteFrom sector o)
    rw [hb, hbyte b hb]

theorem RaceInv.clear (hpc : s.pc = .clear)
    (hstep : s.vm.evictStep (some s.frameAddr) v p .clear = some (pc, vm)) :
    RaceInv v p { s with vm := vm, pc := pc, read := s.nowRead pc } := by
  have hat := h.atPc
  rw [hpc] at hat
  have hpte := evictStep_pte hstep v p
  rw [if_pos ⟨rfl, rfl, rfl⟩] at hpte
  obtain ⟨pr, hpr, rfl, rfl⟩ := evictStep_clear hstep
  have hsame : s.nowRead .done = s.read := by simp [nowRead, hpc]
  rw [hsame]
  exact
    { aligned := h.aligned
      frame := by rw [hpte]; exact h.frame
      present := by rw [hpte]; rfl
      bitCnt := h.bitCnt
      byte := h.byte
      unread := h.unread
      atPc := by
        simp only [AtPc, Slotless, Kept, spte_setPagedir_self hpr] at hat ⊢
        exact hat }

theorem RaceInv.step {e : EvictEvent} (hstep : Step v p s e s') : RaceInv v p s' := by
  cases e with
  | store o b => exact h.store hstep
  | run =>
    change s.advance v p = some s' at hstep
    unfold advance at hstep
    split at hstep
    · cases hstep
    · next pc vm hev =>
      cases hstep
      cases hpc : s.pc with
      | test => exact h.test hpc (hpc ▸ hev)
      | flip => exact h.flip hpc (hpc ▸ hev)
      | write sector k => exact h.write hpc (hpc ▸ hev)
      | record sector => exact h.record hpc (hpc ▸ hev)
      | clear => exact h.clear hpc (hpc ▸ hev)
      | done =>
        rw [hpc] at hev
        cases hev

end

theorem start_inv (hi : Vm.Inv vm) (hcnt : vm.swapTable.bitCnt ≤ 4294967295)
    (hp : (vm.pte v p).present = true) (he : (vm.spte v p).isSome = true) :
    RaceInv v p (start vm v p) := by
  obtain ⟨e, he⟩ := isSome_iff_exists.mp he
  refine
    { aligned := hi.spte_aligned he
      frame := rfl
      present := hp
      bitCnt := hcnt
      byte := fun o _ b hb => by cases hb
      unread := fun _ _ => rfl
      atPc := ⟨fun _ => rfl, e, he, hi.wf v p e he, ?_⟩ }
  rcases (hi.clean v p e he hp).2 with hd | hl | hb
  · exact .inl hd
  · exact .inr (.inl hl)
  · exact .inr (.inr fun o ho => congrFun (congrArg PageVal.bytes hb) ⟨o, ho⟩)

end Race

/-! ## The next page-in -/

/-- Until its next page-in the page stays out, with its entry and what the devices hold for it. -/
structure Undisturbed (v p : Nat) (vm vm' : Vm F) : Prop where
  pte : vm'.pte v p = vm.pte v p
  spte : vm'.spte v p = vm.spte v p
  bitCnt : vm'.swapTable.bitCnt = vm.swapTable.bitCnt
  backing : ∀ e, vm.spte v p = some e → ∀ o < 4096,
    backing vm'.fsDev vm'.swapDev e o = backing vm.fsDev vm.swapDev e o

theorem Undisturbed.refl (v p : Nat) (vm : Vm F) : Undisturbed v p vm vm :=
  ⟨rfl, rfl, rfl, fun _ _ _ _ => rfl⟩

theorem loadPage_slotless {vm vm' : Vm F} {a : Alloc} {v p f : Nat} {b : Bool} {e : Spte}
    (he : vm.spte v p = some e) (hloc : e.location = .swap)
    (hsec : vm.swapTable.bitCnt ≤ e.sector) : Vm.loadPage a v p f vm ≠ .ok (b, vm') := by
  intro h
  unfold loadPage at h
  split at h
  · cases h
  · next pr hpr =>
    rw [spte_of_procs hpr] at he
    have hfill : fillFrame vm.fsDev vm.swapDev vm.swapTable e vm.mem f = none := by
      simp only [fillFrame, hloc, swapRead, if_neg (Nat.not_lt.mpr hsec)]
    simp only [he, hfill] at h
    cases h

/-- **When an eviction loses no update.** However the steps of an eviction and the stores of its
victim interleave: the next page-in restores what the frame held when its entry was cleared if and
only if no store after a byte was read left another byte there. -/
theorem restored_iff {vm₀ vm₁ vm' : Vm F} {v p f : Nat} {a : Alloc} {b : Bool}
    {es : List EvictEvent} {s : Eviction F} (hi : Vm.Inv vm₀)
    (hcnt : vm₀.swapTable.bitCnt ≤ 4294967295) (hp : (vm₀.pte v p).present = true)
    (he : (vm₀.spte v p).isSome = true)
    (hrun : Runs (Step v p) (fun _ _ => True) (start vm₀ v p) es s) (hdone : s.pc = .done)
    (hout : Undisturbed v p s.vm vm₁) (hload : Vm.loadPage a v p f vm₁ = .ok (b, vm'))
    (hmapped : (vm'.pte v p).present = true) :
    (∀ o < 4096, vm'.mem ((vm'.pte v p).frame + o) = s.vm.mem (s.frameAddr + o)) ↔
      ∀ o < 4096, ∀ x, s.late o = some x → s.read o = some x := by
  have hrace : RaceInv v p s :=
    Runs.invariant (fun h _ hstep => RaceInv.step h hstep) hrun (start_inv hi hcnt hp he)
  have hat := hrace.atPc
  have hgone := hrace.present
  rw [hdone] at hat hgone
  rcases hat with ⟨e, he, -, hloc, hsec⟩ | ⟨e, he, hwf, hread⟩
  · refine absurd hload (loadPage_slotless (by rw [hout.spte, he]) hloc ?_)
    rw [hsec, hout.bitCnt]
    exact hrace.bitCnt
  · -- The new frame has the bytes that the eviction read.
    obtain ⟨hmap, -⟩ := loadPage_ok (by rw [hout.spte, he]) hwf hload
    have hframe : (vm'.pte v p).frame = f := by
      rcases hmap.pte with ⟨-, hpte⟩ | hpte
      · rw [hpte, if_pos ⟨rfl, rfl⟩]
        rfl
      · rw [hpte, hout.pte, hgone] at hmapped
        cases hmapped
    have hnew : ∀ o < 4096, some (vm'.mem ((vm'.pte v p).frame + o)) = s.read o := by
      intro o ho
      rw [hframe, hmap.mem, Mem.write_add ho, hout.backing e he o ho, hread o ho]
    have hold : ∀ o < 4096, ∀ x, s.read o = some x →
        s.vm.mem (s.frameAddr + o) = (s.late o).getD x := hrace.byte
    constructor
    · intro heq o ho x hx
      have hmem := hold o ho _ (hnew o ho).symm
      rw [hx, getD_some, ← heq o ho] at hmem
      rw [← hnew o ho, hmem]
    · intro hlate o ho
      rw [hold o ho _ (hnew o ho).symm]
      cases hl : s.late o with
      | none => rfl
      | some x =>
        have hx := hlate o ho x hl
        rw [← hnew o ho] at hx
        exact Option.some.inj hx

/-- The first process of `loadText`, whose stack page is in memory and clean. -/
def loaded : Vm FrameTable := Vm.next (Vm.bootWith 2 16 Vm.textDisk) (Vm.loadText 0xc0100000)

/-- The state at the end of an eviction of the stack page with the events `es`. -/
def evicted (es : List EvictEvent) : Eviction FrameTable :=
  es.foldl (after (step 0xc0100000 0xbffff000)) (start loaded 0xc0100000 0xbffff000)

/-- The machine after the stack page has been loaded again. -/
def reloaded (es : List EvictEvent) : Vm FrameTable :=
  match Vm.loadPage ⟨true, true⟩ 0xc0100000 0xbffff000 0xc0401000 (evicted es).vm with
  | .ok (_, vm) => vm
  | .error _ => (evicted es).vm

theorem loadPage_reloaded {es : List EvictEvent}
    (h : (Vm.loadPage ⟨true, true⟩ 0xc0100000 0xbffff000 0xc0401000 (evicted es).vm).toOption.map
      Prod.fst = some true) :
    Vm.loadPage ⟨true, true⟩ 0xc0100000 0xbffff000 0xc0401000 (evicted es).vm =
      .ok (true, reloaded es) := by
  unfold reloaded
  split
  · next b vm hload =>
    rw [hload] at h ⊢
    cases h
    rfl
  · next hload =>
    rw [hload] at h
    cases h

theorem inv_loaded : Vm.Inv loaded := by
  have hrun : Runs Vm.Step Vm.BackedPaging (bootWith 2 16 textDisk) [loadText 0xc0100000]
      loaded :=
    runs_of_allowed (fun vm e => decide (vm.BackedPaging e)) (fun _ _ => of_decide_eq_true)
      (by decide +kernel)
  exact (Runs.simulate (R := Vm.Shows textDisk) (f := History.after) Vm.Shows.step hrun
    (boot_bootWith 2 16 textDisk).shows).inv

/-- The stack page is stored to, and then written out. -/
def earlyStore : List EvictEvent := .store 0xff0 5 :: List.replicate 12 .run

theorem restored_iff_earlyStore :
    (∀ o < 4096, (reloaded earlyStore).mem
        (((reloaded earlyStore).pte 0xc0100000 0xbffff000).frame + o) =
      (evicted earlyStore).vm.mem ((evicted earlyStore).frameAddr + o)) ↔
    ∀ o < 4096, ∀ x, (evicted earlyStore).late o = some x → (evicted earlyStore).read o = some x :=
  restored_iff (a := ⟨true, true⟩) (f := 0xc0401000) (b := true) inv_loaded (by decide +kernel)
    (by decide +kernel) (by decide +kernel)
    (runs_of_allows (fun _ _ => true) (fun _ _ _ => trivial) (by decide +kernel))
    (by decide +kernel) (Undisturbed.refl _ _ _) (loadPage_reloaded (by decide +kernel))
    (by decide +kernel)

/-- The clean stack page is stored to between the dirty test and `pagedir_clear_page`. -/
def lateStore : List EvictEvent := [.run, .store 0xff0 5, .run]

/-- The store is lost: the page comes back as zeros. -/
theorem late_store_lost :
    Runs (Step 0xc0100000 0xbffff000) (fun _ _ => True) (start loaded 0xc0100000 0xbffff000)
        lateStore (evicted lateStore) ∧
      (evicted lateStore).pc = .done ∧
      Vm.loadPage ⟨true, true⟩ 0xc0100000 0xbffff000 0xc0401000 (evicted lateStore).vm =
        .ok (true, reloaded lateStore) ∧
      (evicted lateStore).vm.mem ((evicted lateStore).frameAddr + 0xff0) = 5 ∧
      (reloaded lateStore).mem
        (((reloaded lateStore).pte 0xc0100000 0xbffff000).frame + 0xff0) = 0 :=
  ⟨runs_of_allows (fun _ _ => true) (fun _ _ _ => trivial) (by decide +kernel), by decide +kernel,
    loadPage_reloaded (by decide +kernel), by decide +kernel, by decide +kernel⟩

end Eviction

end Pintos
