import Pintos.Vm.Paging

/-!
# The invariant of the paging machine

`Vm.value vm t p` is what page `p` of process `t` is worth: the bytes of its frame when it is
present, otherwise the bytes that `load_page` would bring back. `Vm.Inv` relates frames, dirty
bits, locations, sectors and devices:

* a present page has a frame of its own, in use for palloc;
* the slots of entries with location `SWAP_SYS` are set in the swap table, in range and disjoint;
* a present page that `evict_page` would not write out is equal to what the devices hold.

Each operation keeps the invariant (`Fresh.inv`, `Evicted.inv`, `Mapped.inv`, `Exited.inv`,
`Stored.inv`) and the values of the pages with an entry (`Keeps`).
-/

namespace Pintos

open Lib Option

/-- The contents and the writability of a page. -/
@[ext] structure PageVal where
  bytes : Fin 4096 → UInt8
  writable : Bool

/-- The page with byte `o` replaced. -/
def PageVal.set (v : PageVal) (o : Nat) (b : UInt8) : PageVal :=
  { v with bytes := fun i => if i.val = o then b else v.bytes i }

/-- What the hardware shows through the page table entry `x`. -/
def shown (m : Mem) (x : Pte) : PageVal := ⟨fun o => m (x.frame + o), x.writable⟩

namespace Vm

variable {F : Type} {vm vm' : Vm F}

/-- What `load_page` makes of the entry `e`. -/
def backed (vm : Vm F) (e : Spte) : PageVal :=
  ⟨fun o => backing vm.fsDev vm.swapDev e o, e.writable⟩

/-- The value of page `p` of process `t`. -/
def value (vm : Vm F) (t p : Nat) : Option PageVal :=
  if (vm.pte t p).present then some (shown vm.mem (vm.pte t p)) else (vm.spte t p).map vm.backed

/-- The invariant. -/
structure Inv (vm : Vm F) : Prop where
  used : ∀ t va, (vm.pte t va).present = true → vm.userPool.used (vm.pte t va).frame = true
  inj : ∀ t va t' va', (vm.pte t va).present = true → (vm.pte t' va').present = true →
    (vm.pte t va).frame = (vm.pte t' va').frame → t = t' ∧ va / 4096 = va' / 4096
  wf : ∀ t va e, vm.spte t va = some e → e.Wf
  held : ∀ t va e, vm.spte t va = some e → e.location = .swap → SlotHeld vm.swapTable e.sector
  disj : ∀ t va e t' va' e', vm.spte t va = some e → vm.spte t' va' = some e' →
    e.location = .swap → e'.location = .swap → t ≠ t' ∨ va ≠ va' → SlotsDisjoint e.sector e'.sector
  clean : ∀ t p e, vm.spte t p = some e → (vm.pte t p).present = true →
    (vm.pte t p).writable = e.writable ∧
      ((vm.pte t p).dirty = true ∨ e.location = .swap ∨ vm.backed e = shown vm.mem (vm.pte t p))

/-- `f` is in use and not mapped: whoever holds it may fill it. -/
structure FreeFrame (vm : Vm F) (f : Nat) : Prop where
  used : vm.userPool.used f = true
  unmapped : ∀ t va, (vm.pte t va).present = true → (vm.pte t va).frame ≠ f

theorem used_aligned {p : Pool} {k : Nat} (h : p.used k = true) : k % 4096 = 0 := by
  simp only [Pool.used, Bool.and_eq_true, beq_iff_eq] at h
  exact h.1.1

variable {X : Nat → Nat → Prop} {f p t : Nat}

theorem shown_write {m : Mem} {x : Pte} {src : Nat → UInt8} (hx : x.frame % 4096 = 0)
    (hf : f % 4096 = 0) (hne : x.frame ≠ f) : shown (m.write f 4096 src) x = shown m x := by
  refine PageVal.ext (funext fun o => ?_) rfl
  have ho := o.isLt
  exact Mem.write_out (by omega)

theorem shown_write_self {m : Mem} {w : Bool} {src : Nat → UInt8} :
    shown (m.write f 4096 src) (pteCreateUser f w) = ⟨fun o => src o, w⟩ := by
  exact PageVal.ext (funext fun o => Mem.write_add o.isLt) rfl

theorem backed_congr {e : Spte} (hfs : vm'.fsDev = vm.fsDev)
    (hswap : e.location = .swap → ∀ o < 4096,
      vm'.swapDev.byteFrom e.sector o = vm.swapDev.byteFrom e.sector o) :
    vm'.backed e = vm.backed e := by
  refine PageVal.ext (funext fun o => ?_) rfl
  show backing vm'.fsDev vm'.swapDev e o = backing vm.fsDev vm.swapDev e o
  unfold backing
  rw [hfs]
  split
  · rfl
  · next hloc => exact hswap hloc o o.isLt
  · rfl

theorem Inv.spte_aligned (hi : Inv vm) {va : Nat} {e : Spte} (h : vm.spte t va = some e) :
    va % 4096 = 0 := by
  have hal := (hi.wf t va e h).aligned
  rwa [spte_vaddr h] at hal

theorem value_present (h : (vm.pte t p).present = true) :
    vm.value t p = some (shown vm.mem (vm.pte t p)) := if_pos h

theorem value_absent (h : (vm.pte t p).present = false) :
    vm.value t p = (vm.spte t p).map vm.backed := if_neg (by simp [h])

theorem value_isSome (h : (vm.spte t p).isSome = true) :
    (vm.value t p).isSome = true := by
  unfold Vm.value
  split
  · rfl
  · rw [isSome_map, h]

/-! ## Operations that keep what pages are worth -/

/-- `vm'` has the same processes and entries as `vm`, and every page with an entry is worth the
same. A page without an entry may only have been lost, except for those in `X`. -/
structure Keeps (X : Nat → Nat → Prop) (vm vm' : Vm F) : Prop where
  fsDev : vm'.fsDev = vm.fsDev
  procs : ∀ t, (vm'.procs t).isSome = (vm.procs t).isSome
  entry : ∀ t p, (vm'.spte t p).map Spte.writable = (vm.spte t p).map Spte.writable
  value : ∀ t p, (vm.spte t p).isSome = true → vm'.value t p = vm.value t p
  grown : ∀ t p, p % 4096 = 0 → vm.spte t p = none → ¬ X t p → (vm'.pte t p).present = true →
    (vm.pte t p).present = true ∧ vm'.value t p = vm.value t p
  zero : ∀ t p, p % 4096 = 0 → vm.spte t p = none → ¬ X t p →
    (vm'.pte t p = Pte.zero ↔ vm.pte t p = Pte.zero)

theorem Keeps.spte_isSome (h : Keeps X vm vm') (t p : Nat) :
    (vm'.spte t p).isSome = (vm.spte t p).isSome := by
  have he := congrArg Option.isSome (h.entry t p)
  rwa [isSome_map, isSome_map] at he

theorem Keeps.spte_none (h : Keeps X vm vm') (t p : Nat) :
    vm'.spte t p = none ↔ vm.spte t p = none := by
  rw [← isSome_eq_false_iff.trans isNone_iff_eq_none, h.spte_isSome t p,
    isSome_eq_false_iff, isNone_iff_eq_none]

theorem Keeps.trans {vm₁ vm₂ vm₃ : Vm F} (h : Keeps X vm₁ vm₂)
    (h' : Keeps X vm₂ vm₃) : Keeps X vm₁ vm₃ where
  fsDev := h'.fsDev.trans h.fsDev
  procs t := (h'.procs t).trans (h.procs t)
  entry t p := (h'.entry t p).trans (h.entry t p)
  value t p hs := by rw [h'.value t p (by rw [h.spte_isSome, hs]), h.value t p hs]
  grown t p hal hn hx hp := by
    obtain ⟨hp₂, hv₂⟩ := h'.grown t p hal ((h.spte_none t p).mpr hn) hx hp
    obtain ⟨hp₁, hv₁⟩ := h.grown t p hal hn hx hp₂
    exact ⟨hp₁, hv₂.trans hv₁⟩
  zero t p hal hn hx :=
    (h'.zero t p hal ((h.spte_none t p).mpr hn) hx).trans (h.zero t p hal hn hx)

/-! ### A free page from palloc -/

section

variable (h : Fresh vm vm' f) (hi : Inv vm)
include h hi

theorem Fresh.freeFrame : FreeFrame vm' f := by
  obtain ⟨hfree, -, -, hused⟩ := pallocGetPage_some h.palloc
  refine ⟨by rw [hused]; simp, fun t va hp hf => ?_⟩
  rw [h.pte] at hp hf
  have := hi.used t va hp
  rw [hf, hfree] at this
  cases this

theorem Fresh.shown_eq {va : Nat} (hp : (vm.pte t va).present = true) :
    shown vm'.mem (vm.pte t va) = shown vm.mem (vm.pte t va) := by
  obtain ⟨hfree, hal, -, -⟩ := pallocGetPage_some h.palloc
  have hu := hi.used t va hp
  rw [h.mem]
  refine shown_write (used_aligned hu) hal fun hf => ?_
  rw [hf, hfree] at hu
  cases hu

theorem Fresh.inv : Inv vm' where
  used t va hp := by
    obtain ⟨-, -, -, hused⟩ := pallocGetPage_some h.palloc
    rw [h.pte] at hp ⊢
    rw [hused, hi.used t va hp, Bool.or_true]
  inj t va t' va' := by
    rw [h.pte, h.pte]
    exact hi.inj t va t' va'
  wf t va e := by
    rw [h.spte]
    exact hi.wf t va e
  held t va e := by
    rw [h.spte, h.swapTable]
    exact hi.held t va e
  disj t va e t' va' e' := by
    rw [h.spte, h.spte]
    exact hi.disj t va e t' va' e'
  clean t p e he hp := by
    rw [h.spte] at he
    rw [h.pte] at hp ⊢
    rw [h.shown_eq hi hp, backed_congr h.fsDev fun _ _ _ => by rw [h.swapDev]]
    exact hi.clean t p e he hp

theorem Fresh.keeps : Keeps X vm vm' := by
  have hvalue : ∀ t p, vm'.value t p = vm.value t p := by
    intro t p
    unfold Vm.value
    rw [h.pte, h.spte]
    split
    · next hp => rw [h.shown_eq hi hp]
    · refine map_congr fun e _ => backed_congr h.fsDev fun _ _ _ => by rw [h.swapDev]
  exact
    { fsDev := h.fsDev
      procs := fun t => by rw [h.procs]
      entry := fun t p => by rw [h.spte]
      value := fun t p _ => hvalue t p
      grown := fun t p _ _ _ hp => ⟨by rwa [h.pte] at hp, hvalue t p⟩
      zero := fun t p _ _ _ => by rw [h.pte] }

end

/-! ### Eviction -/

/-- The swap table has eight clear bits in a row, so that `swap_write` finds a slot. -/
def hasSlot (vm : Vm F) : Bool := (bitmapScan vm.swapTable 0 8 false).isSome

theorem swapWrite_of_hasSlot {src : Nat} {r : Option Nat} {table : Bitmap} {dev : Block}
    (hs : vm.hasSlot = true) (h : swapWrite vm.swapTable vm.swapDev vm.mem src = some (r, table, dev)) :
    ∃ i, r = some i := by
  obtain ⟨i, hi⟩ := isSome_iff_exists.mp hs
  unfold swapWrite bitmapScanAndFlip at h
  rw [hi] at h
  simp only at h
  split at h
  · cases h
    exact ⟨i, rfl⟩
  · cases h

section Evicted

variable {v p : Nat}

theorem Evicted.present (h : Evicted vm vm' v p) {t va : Nat}
    (hp : (vm'.pte t va).present = true) :
    ¬ (t = v ∧ va / 4096 = p / 4096) ∧ vm'.pte t va = vm.pte t va := by
  rw [h.pte] at hp
  split at hp
  · cases hp
  · next hne => exact ⟨hne, by rw [h.pte, if_neg hne]⟩

theorem Evicted.freeFrame (h : Evicted vm vm' v p) (hi : Inv vm) (hp : (vm.pte v p).present = true) :
    FreeFrame vm' (vm.pte v p).frame := by
  refine ⟨by rw [h.userPool]; exact hi.used v p hp, fun t va hp' hf => ?_⟩
  obtain ⟨hne, hpte⟩ := h.present hp'
  rw [hpte] at hp' hf
  exact hne (hi.inj t va v p hp' hp hf)

/-- How the entries look after an eviction that found a slot when it needed one: page `(v, p)` may
have moved to a slot that was free. -/
theorem Evicted.spte_cases (h : Evicted vm vm' v p) (hi : Inv vm)
    (hs : vm.writesOut v p = true → vm.hasSlot = true) :
    ((∀ t va, vm'.spte t va = vm.spte t va) ∧ vm'.swapTable = vm.swapTable ∧
      vm'.swapDev = vm.swapDev ∧
      ∃ e, vm.spte v p = some e ∧ (vm.pte v p).dirty = false ∧ e.location ≠ .swap) ∨
    ∃ i src, ((vm.pte v p).present = true → src = (vm.pte v p).frame) ∧
      SwapWritten vm.swapTable vm.swapDev vm.mem src i vm'.swapTable vm'.swapDev ∧
      (∀ t va, vm'.spte t va =
        if t = v ∧ va = p then (vm.spte v p).map (·.setSwap i) else vm.spte t va) ∧
      ∀ t va e, vm.spte t va = some e → e.location = .swap → SlotsDisjoint e.sector i := by
  rcases h.outcome with ⟨hd, ⟨e, he, hloc⟩, hsp, htab, hdev⟩ |
    ⟨src, sector, ⟨hout, hsrc⟩, hw, hsp⟩
  · exact .inl ⟨hsp, htab, hdev, e, he, hd, hloc⟩
  · obtain ⟨i, rfl⟩ := swapWrite_of_hasSlot (hs hout) hw
    have hwritten := swapWrite_some hw
    exact .inr ⟨i, src, hsrc, hwritten, hsp, fun t va e he hloc =>
      slotsDisjoint_of_set (hi.held t va e he hloc).set hwritten.clear⟩

section

variable (h : Evicted vm vm' v p) (hi : Inv vm)
  (hs : vm.writesOut v p = true → vm.hasSlot = true)
include h hi hs

theorem Evicted.backed_eq {t va : Nat} {e : Spte} (he : vm.spte t va = some e) :
    vm'.backed e = vm.backed e := by
  refine backed_congr h.fsDev fun hloc o ho => ?_
  rcases h.spte_cases hi hs with ⟨-, -, hdev, -⟩ | ⟨i, src, -, hw, -, hdisj⟩
  · rw [hdev]
  · exact hw.kept e.sector (hdisj t va e he hloc) o ho

theorem Evicted.backed_victim (hp : (vm.pte v p).present = true) {e' : Spte}
    (he' : vm'.spte v p = some e') : vm'.backed e' = shown vm.mem (vm.pte v p) := by
  rcases h.spte_cases hi hs with ⟨hsp, -, -, e, he, hd, hloc⟩ | ⟨i, src, hsrc, hw, hsp, -⟩
  · -- A clean page that is not in swap is what the devices hold.
    rw [hsp] at he'
    have hee : e = e' := Option.some.inj (he.symm.trans he')
    subst hee
    rw [h.backed_eq hi hs he]
    obtain ⟨-, hd' | hl | hb⟩ := hi.clean v p e he hp
    · rw [hd] at hd'
      cases hd'
    · exact absurd hl hloc
    · exact hb
  · rw [hsp, if_pos ⟨rfl, rfl⟩] at he'
    obtain ⟨e, he, rfl⟩ := map_eq_some_iff.mp he'
    refine PageVal.ext (funext fun o => ?_) (hi.clean v p e he hp).1.symm
    show vm'.swapDev.byteFrom i o = vm.mem ((vm.pte v p).frame + o)
    rw [hw.written o o.isLt, hsrc hp]

theorem Evicted.inv : Inv vm' where
  used t va hp := by
    obtain ⟨-, hpte⟩ := h.present hp
    rw [hpte] at hp ⊢
    rw [h.userPool]
    exact hi.used t va hp
  inj t va t' va' hp hp' := by
    obtain ⟨-, hpte⟩ := h.present hp
    obtain ⟨-, hpte'⟩ := h.present hp'
    rw [hpte] at hp ⊢
    rw [hpte'] at hp' ⊢
    exact hi.inj t va t' va' hp hp'
  wf := h.wf hi.wf
  held t va e he hloc := by
    rcases h.spte_cases hi hs with ⟨hsp, htab, -⟩ | ⟨i, src, -, hw, hsp, -⟩
    · rw [hsp] at he
      rw [htab]
      exact hi.held t va e he hloc
    · rw [hsp] at he
      split at he
      · obtain ⟨e₀, he₀, rfl⟩ := map_eq_some_iff.mp he
        exact hw.held
      · refine (hi.held t va e he hloc).mono hw.bitCnt_eq fun j _ hj => ?_
        rw [hw.test_eq, hj, Bool.or_true]
  disj t va e t' va' e' he he' hloc hloc' hne := by
    rcases h.spte_cases hi hs with ⟨hsp, -⟩ | ⟨i, src, -, -, hsp, hdisj⟩
    · rw [hsp] at he he'
      exact hi.disj t va e t' va' e' he he' hloc hloc' hne
    · rw [hsp] at he he'
      split at he
      · next hv =>
        obtain ⟨e₀, he₀, rfl⟩ := map_eq_some_iff.mp he
        have hv' : ¬ (t' = v ∧ va' = p) := fun hv' =>
          hne.elim (fun h => h (hv.1.trans hv'.1.symm)) fun h => h (hv.2.trans hv'.2.symm)
        rw [if_neg hv'] at he'
        exact (hdisj t' va' e' he' hloc').symm
      · split at he'
        · obtain ⟨e₀, he₀, rfl⟩ := map_eq_some_iff.mp he'
          exact hdisj t va e he hloc
        · exact hi.disj t va e t' va' e' he he' hloc hloc' hne
  clean t q e he hp := by
    obtain ⟨hne, hpte⟩ := h.present hp
    have he₀ : vm.spte t q = some e := by
      rcases h.spte_cases hi hs with ⟨hsp, -⟩ | ⟨i, src, -, -, hsp, -⟩
      · rwa [hsp] at he
      · rwa [hsp, if_neg fun hv => hne ⟨hv.1, by rw [hv.2]⟩] at he
    rw [hpte] at hp ⊢
    rw [h.mem, h.backed_eq hi hs he₀]
    exact hi.clean t q e he₀ hp

end

theorem frame_ne_zero {pool : Pool} {k : Nat} (h : pool.used k = true) : k ≠ 0 := by
  obtain ⟨i, -, rfl, -⟩ := Pool.used_iff.mp h
  have hk := pool.base_kernel
  unfold physBase at hk
  omega

theorem Evicted.keeps {X : Nat → Nat → Prop} (h : Evicted vm vm' v p) (hi : Inv vm)
    (hs : vm.writesOut v p = true → vm.hasSlot = true) (hp : (vm.pte v p).present = true) :
    Keeps X vm vm' where
  fsDev := h.fsDev
  procs := h.procs
  entry t q := by
    rcases h.spte_cases hi hs with ⟨hsp, -⟩ | ⟨i, src, -, -, hsp, -⟩
    · rw [hsp]
    · rw [hsp]
      split
      · next hv =>
        obtain ⟨rfl, rfl⟩ := hv
        cases vm.spte t q <;> rfl
      · rfl
  value t q hq := by
    obtain ⟨e, he⟩ := isSome_iff_exists.mp hq
    have hqal := hi.spte_aligned he
    by_cases hv : t = v ∧ q = p
    · obtain ⟨rfl, rfl⟩ := hv
      have hp' : (vm'.pte t q).present = false := by rw [h.pte, if_pos ⟨rfl, rfl⟩]
      have hsome : ∃ e', vm'.spte t q = some e' := by
        rcases h.spte_cases hi hs with ⟨hsp, -⟩ | ⟨i, src, -, -, hsp, -⟩
        · exact ⟨e, by rw [hsp, he]⟩
        · exact ⟨e.setSwap i, by rw [hsp, if_pos ⟨rfl, rfl⟩, he]; rfl⟩
      obtain ⟨e', he'⟩ := hsome
      rw [value_absent hp', value_present hp, he', map_some, h.backed_victim hi hs hp he']
    · have hpal := h.aligned
      have hpte : vm'.pte t q = vm.pte t q := by
        rw [h.pte, if_neg fun hc => hv ⟨hc.1, by omega⟩]
      have hsp : vm'.spte t q = vm.spte t q := by
        rcases h.spte_cases hi hs with ⟨hsp, -⟩ | ⟨i, src, -, -, hsp, -⟩
        · rw [hsp]
        · rw [hsp, if_neg hv]
      unfold Vm.value
      rw [hpte, hsp, h.mem, he, map_some, map_some, h.backed_eq hi hs he]
  grown t q _ _ _ hq := by
    obtain ⟨-, hpte⟩ := h.present hq
    rw [hpte] at hq
    exact ⟨hq, by rw [value_present hq, value_present (by rwa [hpte]), hpte, h.mem]⟩
  zero t q _ _ _ := by
    rw [h.pte]
    split
    · next hv =>
      obtain ⟨rfl, hq⟩ := hv
      have hf := frame_ne_zero (hi.used t p hp)
      rw [pte_page vm t hq]
      constructor
      · intro hz
        exact absurd (congrArg Pte.frame hz) hf
      · intro hz
        exact absurd (congrArg Pte.frame hz) hf
    · rfl

end Evicted

/-! ### Installing a page -/

section Mapped

variable {t p f : Nat} {w : Bool} {src : Nat → UInt8}

section

variable (h : Mapped vm vm' t p f w src)
include h

theorem Mapped.shown_eq (hi : Inv vm) (hf : FreeFrame vm f) {t' va : Nat}
    (hp : (vm.pte t' va).present = true) :
    shown vm'.mem (vm.pte t' va) = shown vm.mem (vm.pte t' va) := by
  rw [h.mem]
  exact shown_write (used_aligned (hi.used t' va hp)) (used_aligned hf.used) (hf.unmapped t' va hp)

theorem Mapped.pte_cases (t' va : Nat) :
    ((t' = t ∧ va / 4096 = p / 4096) ∧ vm'.pte t' va = pteCreateUser f w ∧
      (vm.pte t' va).present = false) ∨
    vm'.pte t' va = vm.pte t' va := by
  rcases h.pte with ⟨hnp, hpte⟩ | hpte
  · by_cases hv : t' = t ∧ va / 4096 = p / 4096
    · refine .inl ⟨hv, by rw [hpte, if_pos hv], ?_⟩
      rw [hv.1, pte_page vm t hv.2, hnp]
    · exact .inr (by rw [hpte, if_neg hv])
  · exact .inr (hpte t' va)

theorem Mapped.backed_eq (e : Spte) : vm'.backed e = vm.backed e :=
  backed_congr h.fsDev fun _ _ _ => by rw [h.swapDev]

theorem Mapped.held {s : Nat} (hs : SlotHeld vm.swapTable s) : SlotHeld vm'.swapTable s := by
  rcases h.swapTable with htab | ⟨e, -, -, htab⟩
  · rwa [htab]
  · rw [htab]
    refine hs.mono rfl fun j _ hj => ?_
    rw [bitmapTest_mark, hj, Bool.or_true]

theorem Mapped.inv (hi : Inv vm) (hf : FreeFrame vm f) (hsrc : ∀ e, vm.spte t p = some e →
      w = e.writable ∧ src = backing vm.fsDev vm.swapDev e) :
    Inv vm' where
  used t' va hp := by
    rw [h.userPool]
    rcases h.pte_cases t' va with ⟨-, hpte, -⟩ | hpte
    · rw [hpte]
      exact hf.used
    · rw [hpte] at hp ⊢
      exact hi.used t' va hp
  inj t' va t'' va' hp hp' heq := by
    rcases h.pte_cases t' va with ⟨hv, hpte, -⟩ | hpte
    · rcases h.pte_cases t'' va' with ⟨hv', -, -⟩ | hpte'
      · exact ⟨hv.1.trans hv'.1.symm, hv.2.trans hv'.2.symm⟩
      · rw [hpte'] at hp'
        rw [hpte, hpte'] at heq
        exact absurd heq.symm (hf.unmapped t'' va' hp')
    · rcases h.pte_cases t'' va' with ⟨-, hpte', -⟩ | hpte'
      · rw [hpte] at hp
        rw [hpte, hpte'] at heq
        exact absurd heq (hf.unmapped t' va hp)
      · rw [hpte] at hp heq
        rw [hpte'] at hp' heq
        exact hi.inj t' va t'' va' hp hp' heq
  wf t' va e he := by
    rw [h.spte] at he
    exact hi.wf t' va e he
  held t' va e he hloc := by
    rw [h.spte] at he
    exact h.held (hi.held t' va e he hloc)
  disj t' va e t'' va' e' he he' := by
    rw [h.spte] at he he'
    exact hi.disj t' va e t'' va' e' he he'
  clean t' q e he hp := by
    rw [h.spte] at he
    rw [h.backed_eq]
    rcases h.pte_cases t' q with ⟨⟨rfl, hq⟩, hpte, -⟩ | hpte
    · have hqp : q = p := by
        have := hi.spte_aligned he
        have := h.aligned
        omega
      subst hqp
      obtain ⟨rfl, rfl⟩ := hsrc e he
      rw [hpte, h.mem, shown_write_self]
      exact ⟨rfl, .inr (.inr rfl)⟩
    · rw [hpte] at hp ⊢
      rw [h.shown_eq hi hf hp]
      exact hi.clean t' q e he hp

theorem Mapped.value_eq (hi : Inv vm) (hf : FreeFrame vm f) {t' va : Nat}
    (hpte : vm'.pte t' va = vm.pte t' va) : vm'.value t' va = vm.value t' va := by
  unfold Vm.value
  rw [hpte, h.spte]
  split
  · next hp => rw [h.shown_eq hi hf hp]
  · exact map_congr fun e _ => h.backed_eq e

end

/-- `load_page` keeps all values: the page it maps shows what its entry stood for. A stack page
is new. -/
theorem Mapped.keeps {X : Nat → Nat → Prop} (h : Mapped vm vm' t p f w src) (hi : Inv vm)
    (hf : FreeFrame vm f)
    (hsrc : ∀ e, vm.spte t p = some e → w = e.writable ∧ src = backing vm.fsDev vm.swapDev e)
    (hX : vm.spte t p = none → X t p) : Keeps X vm vm' where
  fsDev := h.fsDev
  procs := h.procs
  entry t' q := by rw [h.spte]
  value t' q hq := by
    obtain ⟨e, he⟩ := isSome_iff_exists.mp hq
    rcases h.pte_cases t' q with ⟨⟨rfl, hqp⟩, hpte, hnp⟩ | hpte
    · have hqp : q = p := by
        have := hi.spte_aligned he
        have := h.aligned
        omega
      subst hqp
      obtain ⟨rfl, rfl⟩ := hsrc e he
      rw [value_present (by rw [hpte]; rfl), value_absent hnp, hpte, h.mem, shown_write_self, he]
      rfl
    · exact h.value_eq hi hf hpte
  grown t' q hal hn hx hp := by
    rcases h.pte_cases t' q with ⟨⟨rfl, hqp⟩, -, -⟩ | hpte
    · have hqp : q = p := by
        have := h.aligned
        omega
      subst hqp
      exact absurd (hX hn) hx
    · rw [hpte] at hp
      exact ⟨hp, h.value_eq hi hf hpte⟩
  zero t' q hal hn hx := by
    rcases h.pte_cases t' q with ⟨⟨rfl, hqp⟩, -, -⟩ | hpte
    · have hqp : q = p := by
        have := h.aligned
        omega
      subst hqp
      exact absurd (hX hn) hx
    · rw [hpte]

end Mapped

/-! ### Exit -/

section Exited

variable {t : Nat}

section

variable (h : Exited vm vm' t)
include h

theorem Exited.shown_eq (hi : Inv vm) {t' va : Nat} (ht : t' ≠ t)
    (hp : (vm.pte t' va).present = true) :
    shown vm'.mem (vm.pte t' va) = shown vm.mem (vm.pte t' va) := by
  refine PageVal.ext (funext fun o => h.mem _ fun vb hb => ?_) rfl
  have hne : (vm.pte t' va).frame ≠ (vm.pte t vb).frame := fun heq =>
    ht (hi.inj t' va t vb hp hb heq).1
  have h₁ := used_aligned (hi.used t' va hp)
  have h₂ := used_aligned (hi.used t vb hb)
  have ho := o.isLt
  omega

theorem Exited.backed_eq (e : Spte) : vm'.backed e = vm.backed e :=
  backed_congr h.fsDev fun _ _ _ => by rw [h.swapDev]

theorem Exited.ne_of_present {t' va : Nat} (hp : (vm'.pte t' va).present = true) : t' ≠ t := by
  rintro rfl
  rw [h.pte_self] at hp
  cases hp

theorem Exited.ne_of_spte {t' va : Nat} {e : Spte} (he : vm'.spte t' va = some e) : t' ≠ t := by
  rintro rfl
  rw [h.spte_self] at he
  cases he

theorem Exited.inv (hi : Inv vm) : Inv vm' where
  used t' va hp := by
    have ht := h.ne_of_present hp
    rw [h.pte_other ht] at hp ⊢
    refine (h.used _).mpr ⟨hi.used t' va hp, ?_⟩
    rintro ⟨vb, -, hb, heq⟩
    exact ht (hi.inj t vb t' va hb hp heq).1.symm
  inj t' va t'' va' hp hp' := by
    have ht := h.ne_of_present hp
    have ht' := h.ne_of_present hp'
    rw [h.pte_other ht] at hp ⊢
    rw [h.pte_other ht'] at hp' ⊢
    exact hi.inj t' va t'' va' hp hp'
  wf t' va e he := by
    rw [h.spte_other (h.ne_of_spte he)] at he
    exact hi.wf t' va e he
  held t' va e he hloc := by
    have ht := h.ne_of_spte he
    rw [h.spte_other ht] at he
    have hh := hi.held t' va e he hloc
    refine hh.mono h.bitCnt fun j hj hset => ?_
    -- Only first sectors of slots of `t` are cleared, and those slots are disjoint from this one.
    rw [h.test_kept j fun vb e' he' hloc' heq => ?_, hset]
    have hdisj := hi.disj t' va e t vb e' he he' hloc hloc' (.inl ht)
    omega
  disj t' va e t'' va' e' he he' := by
    rw [h.spte_other (h.ne_of_spte he)] at he
    rw [h.spte_other (h.ne_of_spte he')] at he'
    exact hi.disj t' va e t'' va' e' he he'
  clean t' q e he hp := by
    have ht := h.ne_of_spte he
    rw [h.spte_other ht] at he
    rw [h.pte_other ht] at hp ⊢
    rw [h.shown_eq hi ht hp, h.backed_eq]
    exact hi.clean t' q e he hp

theorem Exited.value_other (hi : Inv vm) {t' : Nat} (ht : t' ≠ t) (q : Nat) :
    vm'.value t' q = vm.value t' q := by
  unfold Vm.value
  rw [h.pte_other ht, h.spte_other ht]
  split
  · next hp => rw [h.shown_eq hi ht hp]
  · exact map_congr fun e _ => h.backed_eq e

end

end Exited

/-! ### Stores and new processes -/

section Stored

variable {t va : Nat} {b : UInt8}

section

variable (h : Stored vm vm' t va b)
include h

theorem Stored.shown_other (hi : Inv vm) (hp : (vm.pte t va).present = true) {t' vb : Nat}
    (hb : (vm.pte t' vb).present = true) (hne : ¬ (t' = t ∧ vb / 4096 = va / 4096)) :
    shown vm'.mem (vm.pte t' vb) = shown vm.mem (vm.pte t' vb) := by
  refine PageVal.ext (funext fun o => ?_) rfl
  have hfr : (vm.pte t' vb).frame ≠ (vm.pte t va).frame := fun heq =>
    hne (hi.inj t' vb t va hb hp heq)
  have h₁ := used_aligned (hi.used t' vb hb)
  have h₂ := used_aligned (hi.used t va hp)
  have ho := o.isLt
  have hx : (vm.pte t' vb).frame + o ≠ (vm.pte t va).frame + va % 4096 := by omega
  show vm'.mem ((vm.pte t' vb).frame + o) = vm.mem ((vm.pte t' vb).frame + o)
  rw [h.mem, Function.update_of_ne hx]

theorem Stored.present (t' vb : Nat) :
    (vm'.pte t' vb).present = (vm.pte t' vb).present ∧
      (vm'.pte t' vb).frame = (vm.pte t' vb).frame := by
  rw [h.pte]
  split <;> exact ⟨rfl, rfl⟩

theorem Stored.backed_eq (e : Spte) : vm'.backed e = vm.backed e :=
  backed_congr h.fsDev fun _ _ _ => by rw [h.swapDev]

theorem Stored.inv (hi : Inv vm) (hp : (vm.pte t va).present = true) :
    Inv vm' where
  used t' vb hb := by
    rw [(h.present t' vb).1] at hb
    rw [(h.present t' vb).2, h.userPool]
    exact hi.used t' vb hb
  inj t' vb t'' vc hb hc := by
    rw [(h.present t' vb).1] at hb
    rw [(h.present t'' vc).1] at hc
    rw [(h.present t' vb).2, (h.present t'' vc).2]
    exact hi.inj t' vb t'' vc hb hc
  wf t' vb e he := by
    rw [h.spte] at he
    exact hi.wf t' vb e he
  held t' vb e he hloc := by
    rw [h.spte] at he
    rw [h.swapTable]
    exact hi.held t' vb e he hloc
  disj t' vb e t'' vc e' he he' := by
    rw [h.spte] at he he'
    exact hi.disj t' vb e t'' vc e' he he'
  clean t' q e he hq := by
    rw [h.spte] at he
    rw [(h.present t' q).1] at hq
    obtain ⟨hw, hclean⟩ := hi.clean t' q e he hq
    rw [h.backed_eq]
    by_cases hv : t' = t ∧ q / 4096 = va / 4096
    · rw [h.pte, if_pos hv]
      exact ⟨hw, .inl rfl⟩
    · rw [h.pte, if_neg hv, h.shown_other hi hp hq hv]
      exact ⟨hw, hclean⟩

theorem Stored.value (hi : Inv vm) (hp : (vm.pte t va).present = true) (t' q : Nat) :
    vm'.value t' q =
      if t' = t ∧ q / 4096 = va / 4096 then (vm.value t' q).map (·.set (va % 4096) b)
      else vm.value t' q := by
  by_cases hv : t' = t ∧ q / 4096 = va / 4096
  · rw [if_pos hv]
    obtain ⟨rfl, hq⟩ := hv
    have hpq : (vm.pte t' q).present = true := by rwa [pte_page vm t' hq]
    rw [value_present hpq, value_present (by rw [(h.present t' q).1, hpq]), map_some, h.pte,
      if_pos ⟨rfl, hq⟩]
    congr 1
    refine PageVal.ext (funext fun o => ?_) rfl
    show vm'.mem ((vm.pte t' q).frame + o) =
      if o.val = va % 4096 then b else vm.mem ((vm.pte t' q).frame + o)
    rw [h.mem, pte_page vm t' hq]
    by_cases ho : o.val = va % 4096
    · rw [if_pos ho, ho, Function.update_self]
    · rw [if_neg ho, Function.update_of_ne (by omega)]
  · rw [if_neg hv]
    have hpte : vm'.pte t' q = vm.pte t' q := by rw [h.pte, if_neg hv]
    unfold Vm.value
    rw [hpte, h.spte]
    split
    · next hq => rw [h.shown_other hi hp hq hv]
    · exact map_congr fun e _ => h.backed_eq e

end

end Stored

section Load

variable {t : Nat} {s : Supdir}

theorem pte_setProc_create (vm : Vm F) (t : Nat) (s : Supdir) (t' va : Nat) :
    (vm.setProc t ⟨pagedirCreate, s⟩).pte t' va = if t' = t then Pte.zero else vm.pte t' va := by
  rw [@pte_update _ vm _ t _ rfl t' va, pte_create]

theorem spte_setProc (vm : Vm F) (t : Nat) (pr : Process) (t' va : Nat) :
    (vm.setProc t pr).spte t' va =
      if t' = t then lookupSupPage pr.supdir va else vm.spte t' va :=
  @spte_update _ vm _ t _ rfl t' va

section

variable (hs : s.Registered) {t' va : Nat} {e : Spte}
  (he : (vm.setProc t ⟨pagedirCreate, s⟩).spte t' va = some e)
include hs he

theorem wf_setProc (hwf : ∀ t va e, vm.spte t va = some e → e.Wf) : e.Wf := by
  rw [spte_setProc] at he
  split at he
  · exact (hs va e he).toWf
  · exact hwf t' va e he

/-- No page of a new process is in swap. -/
theorem spte_of_swap (hloc : e.location = .swap) : vm.spte t' va = some e := by
  rw [spte_setProc] at he
  split at he
  · exact absurd hloc (hs va e he).not_swap
  · exact he

end

theorem inv_setProc (hi : Inv vm) (hs : s.Registered) :
    Inv (vm.setProc t ⟨pagedirCreate, s⟩) where
  used t' va hp := by
    rw [pte_setProc_create] at hp ⊢
    split at hp
    · cases hp
    · next hne =>
      rw [if_neg hne]
      exact hi.used t' va hp
  inj t' va t'' va' hp hp' heq := by
    rw [pte_setProc_create] at hp hp' heq
    rw [pte_setProc_create] at heq
    split at hp
    · cases hp
    · next hne =>
      split at hp'
      · cases hp'
      · next hne' =>
        rw [if_neg hne, if_neg hne'] at heq
        exact hi.inj t' va t'' va' hp hp' heq
  wf _ _ _ he := wf_setProc hs he hi.wf
  held t' va e he hloc := hi.held t' va e (spte_of_swap hs he hloc) hloc
  disj t' va e t'' va' e' he he' hloc hloc' := hi.disj t' va e t'' va' e'
    (spte_of_swap hs he hloc) (spte_of_swap hs he' hloc') hloc hloc'
  clean t' q e he hp := by
    rw [pte_setProc_create] at hp ⊢
    rw [spte_setProc] at he
    split at hp
    · cases hp
    · next hne =>
      rw [if_neg hne] at he ⊢
      exact hi.clean t' q e he hp

theorem value_setProc (vm : Vm F) (t : Nat) (s : Supdir) (t' q : Nat) :
    (vm.setProc t ⟨pagedirCreate, s⟩).value t' q =
      if t' = t then (lookupSupPage s q).map vm.backed else vm.value t' q := by
  unfold Vm.value
  rw [pte_setProc_create, spte_setProc]
  by_cases h : t' = t
  · rw [if_pos h, if_pos h, if_pos h]
    rfl
  · rw [if_neg h, if_neg h, if_neg h]
    rfl

end Load

end Vm

end Pintos
