import Pintos.Vm.Machine

/-!
# What the paging operations do

For each operation of the machine, the page table entries, supplemental entries and bytes
it changes, read through `Vm.pte` and `Vm.spte`. The proofs about the machine use these
descriptions, not the functions:

* `Evicted`, `Mapped`, `Exited`: what `evict_page`, the installation of a page and an exit
  have done;
* `obtainFrame_ok`, `loadPage_ok`, `growStack_ok`, `exitProc_ok`, `storeByte_ok`: the
  functions do that.
-/

namespace Pintos

open Lib Function List Option

namespace Vm

variable {F : Type} {vm vm' : Vm F} {t p : Nat}

theorem pte_of_eq (h : vm'.procs = vm.procs) (t va : Nat) : vm'.pte t va = vm.pte t va := by
  unfold pte
  rw [h]

theorem pte_of_procs {pr : Process} (h : vm.procs t = some pr) (va : Nat) :
    vm.pte t va = pr.pagedir.pte va := by
  unfold pte
  rw [h]

theorem spte_of_procs {pr : Process} (h : vm.procs t = some pr) (va : Nat) :
    vm.spte t va = lookupSupPage pr.supdir va := by
  unfold spte
  rw [h]

theorem pte_page {va vb : Nat} (vm : Vm F) (t : Nat) (h : va / 4096 = vb / 4096) :
    vm.pte t va = vm.pte t vb := by
  unfold pte
  cases vm.procs t with
  | none => rfl
  | some pr => exact pte_congr _ h

section

variable {pr : Process} (h : vm'.procs = update vm.procs t (some pr))
include h

theorem pte_update (t' va : Nat) :
    vm'.pte t' va = if t' = t then pr.pagedir.pte va else vm.pte t' va := by
  unfold pte
  rw [h]
  by_cases ht : t' = t
  · subst ht
    simp
  · simp [ht]

theorem spte_update (t' va : Nat) :
    vm'.spte t' va = if t' = t then lookupSupPage pr.supdir va else vm.spte t' va := by
  unfold spte
  rw [h]
  by_cases ht : t' = t
  · subst ht
    simp
  · simp [ht]

theorem procs_update (hlive : (vm.procs t).isSome = true) (t' : Nat) :
    (vm'.procs t').isSome = (vm.procs t').isSome := by
  rw [h]
  by_cases ht : t' = t
  · subst ht
    simp [hlive]
  · simp [ht]

end

theorem spte_vaddr {va : Nat} {e : Spte} (h : vm.spte t va = some e) : e.vaddr = va := by
  unfold spte at h
  split at h
  · exact lookup_vaddr h
  · cases h

theorem isSome_of_present (h : (vm.pte t p).present = true) : (vm.procs t).isSome = true := by
  unfold pte at h
  split at h
  · next hpr => rw [hpr]; rfl
  · cases h

/-! ## Eviction -/

/-- `evict_page` calls `swap_write` for the page. -/
def writesOut (vm : Vm F) (v p : Nat) : Bool :=
  (vm.pte v p).dirty || (vm.spte v p).any (·.location == .swap)

/-- `evict_page` has taken page `p` of process `v` out of memory. Either the page was clean and
the devices hold it, or it was written to the slot at `i`. -/
structure Evicted (vm vm' : Vm F) (v p : Nat) : Prop where
  live : (vm.procs v).isSome = true
  aligned : p % 4096 = 0
  user : p < physBase
  procs : ∀ t, (vm'.procs t).isSome = (vm.procs t).isSome
  pte : ∀ t va, vm'.pte t va =
    if t = v ∧ va / 4096 = p / 4096 then { vm.pte t va with present := false } else vm.pte t va
  mem : vm'.mem = vm.mem
  userPool : vm'.userPool = vm.userPool
  fsDev : vm'.fsDev = vm.fsDev
  outcome :
    ((vm.pte v p).dirty = false ∧ (∃ e, vm.spte v p = some e ∧ e.location ≠ .swap) ∧
      (∀ t va, vm'.spte t va = vm.spte t va) ∧ vm'.swapTable = vm.swapTable ∧
      vm'.swapDev = vm.swapDev) ∨
    ∃ src sector,
      (vm.writesOut v p = true ∧ ((vm.pte v p).present = true → src = (vm.pte v p).frame)) ∧
      swapWrite vm.swapTable vm.swapDev vm.mem src = some (sector, vm'.swapTable, vm'.swapDev) ∧
      ∀ t va, vm'.spte t va =
        if t = v ∧ va = p then (vm.spte v p).map (·.setSwap (sector.getD 4294967295))
        else vm.spte t va

theorem pte_clear {pr pr' : Process} {v : Nat} (hv : vm.procs v = some pr)
    (h : vm'.procs = update vm.procs v (some pr'))
    (hpd : pr'.pagedir = pagedirClearPage pr.pagedir p) (t va : Nat) :
    vm'.pte t va =
      if t = v ∧ va / 4096 = p / 4096 then { vm.pte t va with present := false }
      else vm.pte t va := by
  rw [pte_update h t va, hpd]
  by_cases ht : t = v
  · subst ht
    rw [if_pos rfl, pte_clearPage, pte_of_procs hv]
    by_cases hp : p / 4096 = va / 4096
    · rw [if_pos hp, if_pos ⟨rfl, hp.symm⟩]
    · rw [if_neg hp, if_neg fun h => hp h.2.symm]
  · rw [if_neg ht, if_neg fun h => ht h.1]

theorem writeOut_ok {cur pr : Process} {v : Nat} (hv : vm.procs v = some pr)
    (hal : p % 4096 = 0) (huser : p < physBase) (hout : vm.writesOut v p = true)
    (h : writeOut cur v p pr vm = .ok vm') : Evicted vm vm' v p := by
  unfold writeOut at h
  split at h
  · cases h
  · next src hsrc =>
    split at h
    · cases h
    · next sector table dev hwrite =>
      cases h
      refine
        { live := by rw [hv]; rfl
          aligned := hal
          user := huser
          procs := procs_update rfl (by rw [hv]; rfl)
          pte := pte_clear hv rfl rfl
          mem := rfl
          userPool := rfl
          fsDev := rfl
          outcome := .inr ⟨src, sector, ⟨hout, fun hp => ?_⟩, hwrite, fun t va => ?_⟩ }
      · rw [pte_of_procs hv] at hp ⊢
        unfold pagedirGetPage swapSource at hsrc
        rw [if_pos hp, hal, Nat.add_zero] at hsrc
        exact (some.inj hsrc).symm
      · rw [spte_update rfl t va]
        by_cases ht : t = v
        · subst ht
          rw [if_pos rfl, lookup_setSwap, spte_of_procs hv, spte_of_procs hv]
          by_cases hp : va = p
          · rw [if_pos hp, if_pos ⟨rfl, hp⟩]
          · rw [if_neg hp, if_neg fun h => hp h.2]
        · rw [if_neg ht, if_neg fun h => ht h.1]

theorem swapOut_ok {cur pr : Process} {v : Nat} (hv : vm.procs v = some pr)
    (hal : p % 4096 = 0) (huser : p < physBase) (h : swapOut cur v p pr vm = .ok vm') :
    Evicted vm vm' v p := by
  unfold swapOut at h
  split at h
  · next hdirty =>
    refine writeOut_ok hv hal huser ?_ h
    simp_all [writesOut, pte_of_procs hv, pagedirIsDirty]
  · next hdirty =>
    split at h
    · cases h
    · next e he =>
      split at h
      · next hloc =>
        refine writeOut_ok hv hal huser ?_ h
        simp [writesOut, spte_of_procs hv, he, hloc]
      · next hloc =>
        cases h
        refine
          { live := by rw [hv]; rfl
            aligned := hal
            user := huser
            procs := procs_update rfl (by rw [hv]; rfl)
            pte := pte_clear hv rfl rfl
            mem := rfl
            userPool := rfl
            fsDev := rfl
            outcome := .inl ⟨?_, ⟨e, by rw [spte_of_procs hv, he], hloc⟩, fun t va => ?_,
              rfl, rfl⟩ }
        · rw [pte_of_procs hv]
          simpa [pagedirIsDirty] using hdirty
        · rw [spte_update rfl t va]
          by_cases ht : t = v
          · rw [if_pos ht, ht, spte_of_procs hv]
          · rw [if_neg ht]

theorem Evicted.spte_isSome {v p : Nat} (h : Evicted vm vm' v p) (t va : Nat) :
    (vm'.spte t va).isSome = (vm.spte t va).isSome := by
  rcases h.outcome with ⟨-, -, hsp, -⟩ | ⟨src, sector, -, -, hsp⟩
  · rw [hsp]
  · rw [hsp]
    split
    · next hv =>
      obtain ⟨rfl, rfl⟩ := hv
      rw [isSome_map]
    · rfl

theorem Evicted.wf {v p : Nat} (h : Evicted vm vm' v p)
    (hwf : ∀ t va e, vm.spte t va = some e → e.Wf) (t va : Nat) (e : Spte)
    (he : vm'.spte t va = some e) : e.Wf := by
  rcases h.outcome with ⟨-, -, hsp, -⟩ | ⟨src, sector, -, -, hsp⟩
  · rw [hsp] at he
    exact hwf t va e he
  · rw [hsp] at he
    split at he
    · obtain ⟨e₀, he₀, rfl⟩ := map_eq_some_iff.mp he
      exact (hwf v p e₀ he₀).setSwap _
    · exact hwf t va e he

theorem writeOut_ne_nullSpte (cur pr : Process) (v p : Nat) (vm : Vm F) :
    writeOut cur v p pr vm ≠ .error .nullSpte := by
  unfold writeOut
  split
  · simp
  · split <;> simp

/-- `get_user_page` has taken the free frame `f`. -/
structure Fresh (vm vm' : Vm F) (f : Nat) : Prop where
  procs : vm'.procs = vm.procs
  palloc : pallocGetPage vm.userPool = (some f, vm'.userPool)
  mem : vm'.mem = vm.mem.fill f 4096 0
  swapTable : vm'.swapTable = vm.swapTable
  swapDev : vm'.swapDev = vm.swapDev
  fsDev : vm'.fsDev = vm.fsDev

theorem Fresh.pte {f : Nat} (h : Fresh vm vm' f) (t va : Nat) : vm'.pte t va = vm.pte t va := by
  unfold Vm.pte
  rw [h.procs]

theorem Fresh.spte {f : Nat} (h : Fresh vm vm' f) (t va : Nat) : vm'.spte t va = vm.spte t va := by
  unfold Vm.spte
  rw [h.procs]

section Frames

variable [FrameTableOps F]

open FrameTableOps

theorem evictPage_ok {a : Alloc} {new : Nat} {r : Option Nat}
    (h : evictPage a t new vm = .ok (r, vm')) :
    ∃ s ft, select vm.ft = some (s, ft) ∧ rekey a.rehash ft s t new = some vm'.ft ∧
      Evicted vm vm' (thread ft s.chosen) (vaddr ft s.chosen) ∧
      r = if (vm.pte (thread ft s.chosen) (vaddr ft s.chosen)).present
        then some (vm.pte (thread ft s.chosen) (vaddr ft s.chosen)).frame else none := by
  unfold evictPage at h
  split at h
  · cases h
  · next s ft hsel =>
    simp only at h
    split at h
    · next cur pr hcur hpr =>
      split at h
      · next haddr =>
        split at h
        · next vm₁ ft₁ hout hkey =>
          cases h
          have hev := swapOut_ok hpr haddr.2 haddr.1 hout
          refine ⟨s, ft, hsel, hkey, { hev with }, ?_⟩
          unfold pagedirGetPage
          rw [pte_of_procs hpr, haddr.2, Nat.add_zero]
        · cases h
        · cases h
      · cases h
    · cases h

theorem obtainFrame_ok {a : Alloc} {r : Option Nat} (h : obtainFrame a t p vm = .ok (r, vm')) :
    (∃ f, r = some f ∧ Fresh vm vm' f ∧ vm'.ft = insert a.rehash vm.ft t p) ∨
      (pallocGetPage vm.userPool).1 = none ∧ evictPage a t p vm = .ok (r, vm') := by
  unfold obtainFrame getUserPage at h
  split at h
  · next f vm₁ hget =>
    split at hget
    · next pool hpool =>
      cases hget
      cases h
      exact .inl ⟨f, rfl, ⟨rfl, hpool, rfl, rfl, rfl, rfl⟩, rfl⟩
    · cases hget
  · next vm₁ hget =>
    split at hget
    · cases hget
    · next hpool =>
      cases hget
      exact .inr ⟨by rw [hpool], h⟩

end Frames

/-! ## Installing a page -/

/-- Frame `f` was filled with `src` and, unless there was no memory for a page table, mapped at
page `p` of process `t`, which was not present. -/
structure Mapped (vm vm' : Vm F) (t p f : Nat) (w : Bool) (src : Nat → UInt8) : Prop where
  aligned : p % 4096 = 0
  user : p < physBase
  procs : ∀ t, (vm'.procs t).isSome = (vm.procs t).isSome
  spte : ∀ t va, vm'.spte t va = vm.spte t va
  mem : vm'.mem = vm.mem.write f 4096 src
  userPool : vm'.userPool = vm.userPool
  swapDev : vm'.swapDev = vm.swapDev
  fsDev : vm'.fsDev = vm.fsDev
  swapTable : vm'.swapTable = vm.swapTable ∨
    ∃ e, vm.spte t p = some e ∧ e.location = .swap ∧
      vm'.swapTable = bitmapMark vm.swapTable e.sector
  pte : ((vm.pte t p).present = false ∧ ∀ t' va, vm'.pte t' va =
      if t' = t ∧ va / 4096 = p / 4096 then pteCreateUser f w else vm.pte t' va) ∨
    ∀ t' va, vm'.pte t' va = vm.pte t' va

variable {a : Alloc} {b : Bool} {f : Nat} {pd : Pagedir}

theorem pte_setPage {a w ok : Bool} {pr pr' : Process}
    (ht : vm.procs t = some pr) (hset : pagedirSetPage a pr.pagedir p f w = some (ok, pd))
    (h : vm'.procs = update vm.procs t (some pr')) (hpd : pr'.pagedir = pd) :
    ((vm.pte t p).present = false ∧ ∀ t' va, vm'.pte t' va =
      if t' = t ∧ va / 4096 = p / 4096 then pteCreateUser f w else vm.pte t' va) ∨
    ∀ t' va, vm'.pte t' va = vm.pte t' va := by
  obtain ⟨-, -, ⟨-, hp, rfl⟩ | ⟨-, rfl⟩⟩ := pagedirSetPage_some hset
  · refine .inl ⟨by rw [pte_of_procs ht, hp], fun t' va => ?_⟩
    rw [pte_update h t' va, hpd]
    by_cases htt : t' = t
    · subst htt
      rw [if_pos rfl, pte_setPte, pte_of_procs ht]
      by_cases hva : p / 4096 = va / 4096
      · rw [if_pos hva, if_pos ⟨rfl, hva.symm⟩]
      · rw [if_neg hva, if_neg fun h => hva h.2.symm]
    · rw [if_neg htt, if_neg fun h => htt h.1]
  · refine .inr fun t' va => ?_
    rw [pte_update h t' va, hpd]
    by_cases htt : t' = t
    · rw [if_pos htt, htt, pte_of_procs ht]
    · rw [if_neg htt]

theorem spte_setPagedir {pr : Process} (ht : vm.procs t = some pr)
    (h : vm'.procs = update vm.procs t (some { pr with pagedir := pd })) (t' va : Nat) :
    vm'.spte t' va = vm.spte t' va := by
  rw [spte_update h t' va]
  by_cases htt : t' = t
  · rw [if_pos htt, htt, spte_of_procs ht]
  · rw [if_neg htt]

theorem loadPage_ok {e : Spte} (he : vm.spte t p = some e)
    (hwf : e.Wf) (h : loadPage a t p f vm = .ok (b, vm')) :
    Mapped vm vm' t p f e.writable (backing vm.fsDev vm.swapDev e) ∧ vm'.ft = vm.ft ∧
      (a.pageTable = true → (vm'.pte t p).present = true) := by
  unfold loadPage at h
  split at h
  · cases h
  · next pr hpr =>
    rw [spte_of_procs hpr] at he
    rw [he] at h
    simp only at h
    split at h
    · next table m ok pd hfill hset =>
      cases h
      obtain ⟨rfl, rfl⟩ := fillFrame_some hwf hfill
      obtain ⟨huser, hal, -⟩ := pagedirSetPage_some hset
      refine
        ⟨{ aligned := hal
           user := huser
           procs := procs_update rfl (by rw [hpr]; rfl)
           spte := spte_setPagedir hpr rfl
           mem := rfl
           userPool := rfl
           swapDev := rfl
           fsDev := rfl
           swapTable := ?_
           pte := pte_setPage hpr hset rfl rfl }, rfl, fun ha => ?_⟩
      · by_cases hloc : e.location = .swap
        · exact .inr ⟨e, by rw [spte_of_procs hpr, he], hloc, if_pos hloc⟩
        · exact .inl (if_neg hloc)
      · rw [ha] at hset
        rw [@pte_update _ vm _ t _ rfl t p, if_pos rfl]
        exact pagedirSetPage_present hset
    · cases h

theorem loadPage_none (he : vm.spte t p = none)
    (h : loadPage a t p f vm = .ok (b, vm')) : vm' = vm := by
  unfold loadPage at h
  split at h
  · cases h
  · next pr hpr =>
    rw [spte_of_procs hpr] at he
    rw [he] at h
    cases h
    rfl

theorem loadPage_procs (h : loadPage a t p f vm = .ok (b, vm'))
    (t' : Nat) : (vm'.procs t').isSome = (vm.procs t').isSome := by
  unfold loadPage at h
  split at h
  · cases h
  · next pr hpr =>
    split at h
    · cases h
      rfl
    · split at h
      · cases h
        exact procs_update rfl (by rw [hpr]; rfl) t'
      · cases h

theorem growStack_ok (h : growStack a t p f vm = .ok vm') :
    Mapped vm vm' t p f true (fun _ => 0) ∧ vm'.swapTable = vm.swapTable ∧ vm'.ft = vm.ft := by
  unfold growStack at h
  split at h
  · cases h
  · next pr hpr =>
    split at h
    · next ok pd hset =>
      cases h
      obtain ⟨huser, hal, -⟩ := pagedirSetPage_some hset
      exact
        ⟨{ aligned := hal
           user := huser
           procs := procs_update rfl (by rw [hpr]; rfl)
           spte := spte_setPagedir hpr rfl
           mem := rfl
           userPool := rfl
           swapDev := rfl
           fsDev := rfl
           swapTable := .inl rfl
           pte := pte_setPage hpr hset rfl rfl }, rfl, rfl⟩
    · cases h

/-! ## A store -/

/-- The process `t` has stored `b` at `va`. -/
structure Stored (vm vm' : Vm F) (t va : Nat) (b : UInt8) : Prop where
  pte : ∀ t' vb, vm'.pte t' vb =
    if t' = t ∧ vb / 4096 = va / 4096 then { vm.pte t' vb with dirty := true } else vm.pte t' vb
  spte : ∀ t' vb, vm'.spte t' vb = vm.spte t' vb
  procs : ∀ t', (vm'.procs t').isSome = (vm.procs t').isSome
  mem : vm'.mem = update vm.mem ((vm.pte t va).frame + va % 4096) b
  userPool : vm'.userPool = vm.userPool
  swapTable : vm'.swapTable = vm.swapTable
  swapDev : vm'.swapDev = vm.swapDev
  fsDev : vm'.fsDev = vm.fsDev

theorem storeByte_ok {va : Nat} {b : UInt8} (h : storeByte t va b vm = .ok vm') :
    Stored vm vm' t va b ∧ vm'.ft = vm.ft := by
  unfold storeByte at h
  split at h
  · cases h
  · next pr hpr =>
    cases h
    refine
      ⟨{ pte := fun t' vb => ?_
         spte := spte_setPagedir hpr rfl
         procs := procs_update rfl (by rw [hpr]; rfl)
         mem := by rw [pte_of_procs hpr]
         userPool := rfl
         swapTable := rfl
         swapDev := rfl
         fsDev := rfl }, rfl⟩
    rw [pte_update rfl t' vb]
    by_cases ht : t' = t
    · subst ht
      rw [if_pos rfl, pte_setPte, pte_of_procs hpr]
      by_cases hva : va / 4096 = vb / 4096
      · rw [if_pos hva, if_pos ⟨rfl, hva.symm⟩, pte_congr _ hva]
      · rw [if_neg hva, if_neg fun h => hva h.2.symm]
    · rw [if_neg ht, if_neg fun h => ht h.1]

/-! ## Exit -/

/-- Process `t` is gone. Its frames `frames` went back to palloc, and of the slots of its
swapped-out pages at most the first bit was cleared. -/
structure Exited (vm vm' : Vm F) (t : Nat) : Prop where
  live : (vm.procs t).isSome = true
  procs : vm'.procs = update vm.procs t none
  used : ∀ k, vm'.userPool.used k = true ↔
    vm.userPool.used k = true ∧ ¬ ∃ va < physBase, (vm.pte t va).present = true ∧ (vm.pte t va).frame = k
  mem : ∀ x, (∀ va, (vm.pte t va).present = true →
      x < (vm.pte t va).frame ∨ (vm.pte t va).frame + 4096 ≤ x) → vm'.mem x = vm.mem x
  bitCnt : vm'.swapTable.bitCnt = vm.swapTable.bitCnt
  test : ∀ j, bitmapTest vm'.swapTable j = true →  bitmapTest vm.swapTable j = true
  test_kept : ∀ j, (∀ va e, vm.spte t va = some e → e.location = .swap → e.sector ≠ j) →
    bitmapTest vm'.swapTable j = bitmapTest vm.swapTable j
  swapDev : vm'.swapDev = vm.swapDev
  fsDev : vm'.fsDev = vm.fsDev

theorem supdirDestroy_some {es : List Spte} {table table' : Bitmap}
    (h : supdirDestroy pd es table = some table') :
    table'.bitCnt = table.bitCnt ∧
      (∀ j, bitmapTest table' j = true → bitmapTest table j = true) ∧
      ∀ j, (∀ e ∈ es, e.location = .swap → e.sector ≠ j) →
        bitmapTest table' j = bitmapTest table j := by
  induction es generalizing table with
  | nil =>
    cases h
    exact ⟨rfl, fun _ h => h, fun _ _ => rfl⟩
  | cons e es ih =>
    unfold supdirDestroy at h
    split at h
    · next hcond =>
      split at h
      · next table₁ hrem =>
        obtain ⟨-, rfl⟩ := swapRemove_some hrem
        obtain ⟨hcnt, htest, hkept⟩ := ih h
        refine ⟨hcnt, fun j hj => ?_, fun j hj => ?_⟩
        · have hset := htest j hj
          rw [bitmapTest_reset, Bool.and_eq_true] at hset
          exact hset.2
        · have hloc : e.location = .swap := by simpa using (Bool.and_eq_true_iff.mp hcond).2
          have hne : e.sector ≠ j := hj e mem_cons_self hloc
          rw [hkept j fun e he => hj e (mem_cons_of_mem _ he), bitmapTest_reset,
            decide_eq_false hne, Bool.not_false, Bool.true_and]
      · cases h
    · obtain ⟨hcnt, htest, hkept⟩ := ih h
      exact ⟨hcnt, htest, fun j hj => hkept j fun e he => hj e (mem_cons_of_mem _ he)⟩

section Exit

variable [FrameTableOps F]

open FrameTableOps

/-- The calls of `free_frame` in `pagedir_destroy`. -/
def freeFrames (a : Alloc) (t : Nat) : List Nat → F → Option F
  | [], ft => some ft
  | page :: pages, ft =>
    match free a.rehash ft t page with
    | some ft => freeFrames a t pages ft
    | none => none

theorem destroyFrames_some {a : Alloc} {pages : List Nat} (h : destroyFrames a t pages vm = some vm') :
    vm'.procs = vm.procs ∧ vm'.swapTable = vm.swapTable ∧ vm'.swapDev = vm.swapDev ∧
      vm'.fsDev = vm.fsDev ∧ freeFrames a t pages vm.ft = some vm'.ft ∧
      (∀ k, vm'.userPool.used k = true ↔ vm.userPool.used k = true ∧ k ∉ pages) ∧
      ∀ x, (∀ k ∈ pages, x < k ∨ k + 4096 ≤ x) → vm'.mem x = vm.mem x := by
  induction pages generalizing vm with
  | nil =>
    cases h
    simp [freeFrames]
  | cons page pages ih =>
    unfold destroyFrames at h
    split at h
    · next pool ft hpool hft =>
      obtain ⟨hprocs, htable, hswap, hfs, hfree, hused, hmem⟩ := ih h
      obtain ⟨-, hpool⟩ := pallocFreePage_some hpool
      refine ⟨hprocs, htable, hswap, hfs, ?_, fun k => ?_, fun x hx => ?_⟩
      · unfold freeFrames
        rw [hft]
        exact hfree
      · rw [hused k, hpool k, mem_cons]
        simp only [Bool.and_eq_true, Bool.not_eq_true', decide_eq_false_iff_not]
        tauto
      · rw [hmem x fun k hk => hx k (mem_cons_of_mem _ hk)]
        exact Mem.fill_out (hx page mem_cons_self)
    · cases h

theorem exitProc_ok {a : Alloc} (h : exitProc a t vm = .ok vm') :
    Exited vm vm' t ∧
      ∃ pr, vm.procs t = some pr ∧ freeFrames a t (pagedirFrames pr.pagedir) vm.ft = some vm'.ft := by
  unfold exitProc at h
  split at h
  · cases h
  · next pr hpr =>
    split at h
    · cases h
    · next table htable =>
      split at h
      · next vm₁ hfr =>
        cases h
        obtain ⟨hprocs, htab, hswap, hfs, hft, hused, hmem⟩ := destroyFrames_some hfr
        obtain ⟨hcnt, htest, hkept⟩ := supdirDestroy_some htable
        refine
          ⟨{ live := by rw [hpr]; rfl
             procs := hprocs
             used := fun k => ?_
             mem := fun x hx => ?_
             bitCnt := by rw [htab]; exact hcnt
             test := fun j => by rw [htab]; exact htest j
             test_kept := fun j hj => ?_
             swapDev := hswap
             fsDev := hfs }, pr, hpr, hft⟩
        · rw [hused k, mem_pagedirFrames]
          simp only [pte_of_procs hpr]
        · refine hmem x fun k hk => ?_
          obtain ⟨va, -, hp, rfl⟩ := mem_pagedirFrames.mp hk
          have := hx va
          rw [pte_of_procs hpr] at this
          exact this hp
        · rw [htab]
          refine hkept j fun e he hloc => hj e.vaddr e ?_ hloc
          rw [spte_of_procs hpr]
          exact mem_entries_iff.mp he
      · cases h

end Exit

section

variable (h : Exited vm vm' t)
include h

theorem Exited.pte_self (va : Nat) : vm'.pte t va = Pte.zero := by
  unfold Vm.pte
  simp [h.procs]

theorem Exited.spte_self (va : Nat) : vm'.spte t va = none := by
  unfold Vm.spte
  simp [h.procs]

theorem Exited.pte_other {t' : Nat} (ht : t' ≠ t) (va : Nat) : vm'.pte t' va = vm.pte t' va := by
  unfold Vm.pte
  simp [h.procs, ht]

theorem Exited.spte_other {t' : Nat} (ht : t' ≠ t) (va : Nat) : vm'.spte t' va = vm.spte t' va := by
  unfold Vm.spte
  simp [h.procs, ht]

end

/-! ## The kernel's functions -/

section Functions

variable [FrameTableOps F]

theorem setPinned_eq (t p : Nat) (vm : Vm F) :
    setPinned t p vm = { vm with ft := (setPinned t p vm).ft } := by
  unfold setPinned
  split <;> rfl

/-- A frame was obtained for page `p` of `t`, filled and mapped. -/
def FrameLoaded (a : Alloc) (t p : Nat) (vm vm' : Vm F) : Prop :=
  ∃ f vm₁ b, obtainFrame a t p vm = .ok (some f, vm₁) ∧ loadPage a t p f vm₁ = .ok (b, vm')

/-- The ways through `page_in`: no entry, no frame, a stack page, a page with an entry. -/
theorem pageIn_ok {a : Alloc} {addr : Nat} {stackPage : Bool}
    (h : pageIn a t addr stackPage vm = .ok vm') :
    (stackPage = false ∧ vm.spte t (addr / 4096 * 4096) = none ∧ exitProc a t vm = .ok vm') ∨
    ((stackPage || (vm.spte t (addr / 4096 * 4096)).isSome) = true ∧
      ∃ vm₁, obtainFrame a t (addr / 4096 * 4096) vm = .ok (none, vm₁) ∧
        exitProc a t vm₁ = .ok vm') ∨
    (stackPage = true ∧ ∃ f vm₁, obtainFrame a t (addr / 4096 * 4096) vm = .ok (some f, vm₁) ∧
      growStack a t (addr / 4096 * 4096) f vm₁ = .ok vm') ∨
    (stackPage = false ∧ (vm.spte t (addr / 4096 * 4096)).isSome = true ∧
      ∃ vm₂, FrameLoaded a t (addr / 4096 * 4096) vm vm₂ ∧
        vm' = setPinned t (addr / 4096 * 4096) vm₂) := by
  unfold pageIn at h
  simp only at h
  split at h
  · cases h
  · next pr hpr =>
    rw [spte_of_procs hpr]
    split at h
    · next hkill =>
      simp only [Bool.and_eq_true, Bool.not_eq_true', isNone_iff_eq_none] at hkill
      exact .inl ⟨hkill.1, hkill.2, h⟩
    · next hgo =>
      have hneed : (stackPage || (lookupSupPage pr.supdir (addr / 4096 * 4096)).isSome) = true := by
        simpa [or_iff_not_imp_left, isSome_iff_ne_none] using hgo
      split at h
      · cases h
      · next vm₁ hobt => exact .inr (.inl ⟨hneed, vm₁, hobt, h⟩)
      · next f vm₁ hobt =>
        split at h
        · next hstack => exact .inr (.inr (.inl ⟨hstack, f, vm₁, hobt, h⟩))
        · next hstack =>
          have hsp : stackPage = false := by simpa using hstack
          subst hsp
          split at h
          · next b vm₂ hload =>
            cases h
            exact .inr (.inr (.inr ⟨rfl, hneed, vm₂, ⟨f, vm₁, b, hobt, hload⟩, rfl⟩))
          · cases h

theorem startProcess_ok {a : Alloc} {inode : Inode} {phs : List Phdr}
    (h : startProcess a t inode phs vm = .ok vm') :
    exitProc a t (vm.setProc t ⟨pagedirCreate, (loadPhdrs inode phs supdirCreate).2⟩) = .ok vm' ∨
    ((loadPhdrs inode phs supdirCreate).1 = true ∧
      FrameLoaded a t stackAddr (vm.setProc t ⟨pagedirCreate, imageSupdir inode phs⟩) vm') := by
  unfold startProcess setupStack at h
  split at h
  · next himg =>
    split at h
    · cases h
    · cases h
    · next f vm₁ hobt =>
      split at h
      · next b vm₂ hload =>
        cases h
        exact .inr ⟨himg, f, vm₁, b, hobt, hload⟩
      · cases h
  · exact .inl h

end Functions

end Vm

end Pintos
