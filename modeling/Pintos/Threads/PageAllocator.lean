import Mathlib.Data.List.Pairwise
import Pintos.Lib.Runs
import Pintos.Threads.Palloc

/-!
# The page allocator (`threads/palloc.c`)

`palloc_init` cuts the memory above 1 MB into a kernel pool and a user pool, each behind the
pages of its own used map. `palloc_get_multiple` takes a group of contiguous pages from one of
them by first fit, `palloc_free_multiple` gives a group back.

A run is a sequence of calls in which every group that is freed is still held
(`PallocState.step`). The invariant `PallocState.Exact` ties the used maps to the groups held:
a bit is set exactly when its page belongs to a group of that pool.

The lock of a pool is left out: each call is one step. RAM below 1 GB keeps every address below
`2 ^ 32`.
-/

namespace Pintos

open Lib List

/-- `enum palloc_flags`. -/
structure PallocFlags where
  assert : Bool
  zero : Bool
  user : Bool

/-- A pool with the address of its used map. -/
structure PlacedPool extends Pool where
  usedMapAt : Nat

/-- `bitmap_buf_size`: `struct bitmap` has 8 bytes. -/
def bitmapBufSize (bitCnt : Nat) : Nat := 8 + byteCnt bitCnt

/-- `init_pool`; `none` when there are fewer pages than the used map needs. -/
def initPool (base : Nat) (haligned : base % 4096 = 0) (hkernel : physBase ≤ base)
    (pageCnt : Nat) : Option PlacedPool :=
  let bmPages := (bitmapBufSize pageCnt + 4096 - 1) / 4096
  if pageCnt < bmPages then none
  else
    some
      { base := base + bmPages * 4096
        usedMap := bitmapCreate (pageCnt - bmPages)
        usedMapAt := base
        base_aligned := by omega
        base_kernel := by omega }

/-- The two pools, and the memory they manage. -/
structure Palloc where
  kernelPool : PlacedPool
  userPool : PlacedPool
  mem : Mem

open Palloc

/-- The pool that `flags & PAL_USER` selects. -/
def Palloc.pool (p : Palloc) (user : Bool) : PlacedPool := if user then p.userPool else p.kernelPool

/-- `p` with another used map in one of its pools. -/
def Palloc.setMap (p : Palloc) (user : Bool) (map : Bitmap) : Palloc :=
  if user then { p with userPool := { p.userPool with usedMap := map } }
  else { p with kernelPool := { p.kernelPool with usedMap := map } }

/-- `free_start` of `palloc_init`: free memory starts at 1 MB. -/
def freeStart : Nat := physBase + 1024 * 1024

theorem freeStart_aligned : freeStart % 4096 = 0 := by decide

theorem physBase_le_freeStart : physBase ≤ freeStart := by decide

/-- The two calls of `init_pool` in `palloc_init`. -/
def initPools (kernelPages userPages : Nat) (mem : Mem) : Option Palloc :=
  have haligned := freeStart_aligned
  have hkernel := physBase_le_freeStart
  match initPool freeStart haligned hkernel kernelPages,
    initPool (freeStart + kernelPages * 4096) (by omega) (by omega) userPages with
  | some kernel, some user => some ⟨kernel, user, mem⟩
  | _, _ => none

/-- `palloc_init` on a machine with `initRamPages` pages; `none` when a pool is too small. -/
def pallocInit (initRamPages userPageLimit : Nat) (mem : Mem) : Option Palloc :=
  let freeEnd := physBase + initRamPages * 4096
  let freePages := (freeEnd - freeStart) / 4096
  let userPages := min (freePages / 2) userPageLimit
  initPools (freePages - userPages) userPages mem

/-- `palloc_get_multiple`: the group's address or null; `none` is the panic of `PAL_ASSERT`. -/
def pallocGetMultiple (p : Palloc) (flags : PallocFlags) (pageCnt : Nat) :
    Option (Option Nat × Palloc) :=
  if pageCnt = 0 then some (none, p)
  else
    match bitmapScanAndFlip (p.pool flags.user).usedMap 0 pageCnt false with
    | (some idx, map) =>
      let pages := (p.pool flags.user).base + 4096 * idx
      let p := p.setMap flags.user map
      some (some pages,
        if flags.zero then { p with mem := p.mem.fill pages (4096 * pageCnt) 0 } else p)
    | (none, _) => if flags.assert then none else some (none, p)

/-- The part of `palloc_free_multiple` behind the choice of the pool. -/
def pallocFreeFrom (p : Palloc) (user : Bool) (pages pageCnt : Nat) : Option Palloc :=
  let idx := pages / 4096 - (p.pool user).base / 4096
  if bitmapAll (p.pool user).usedMap idx pageCnt then
    let p := p.setMap user (bitmapSetMultiple (p.pool user).usedMap idx pageCnt false)
    some { p with mem := p.mem.fill pages (4096 * pageCnt) 0xcc }
  else none

/-- `palloc_free_multiple` of pages that are not null; `none` is a failed assertion. -/
def pallocFreeMultiple (p : Palloc) (pages pageCnt : Nat) : Option Palloc :=
  if pages % 4096 ≠ 0 then none
  else if pageCnt = 0 then some p
  else if pageFromPool p.kernelPool.toPool pages then pallocFreeFrom p false pages pageCnt
  else if pageFromPool p.userPool.toPool pages then pallocFreeFrom p true pages pageCnt
  else none

/-! ## Groups -/

/-- A group of pages that `palloc_get_multiple` returned. -/
structure PageGroup where
  pages : Nat
  pageCnt : Nat
  user : Bool
deriving DecidableEq

/-- `page` is one of the group's pages. -/
def PageGroup.Has (g : PageGroup) (page : Nat) : Prop := ∃ k < g.pageCnt, page = g.pages + 4096 * k

/-- Two groups have no byte in common. -/
def PageGroup.Apart (g g' : PageGroup) : Prop :=
  g.pages + 4096 * g.pageCnt ≤ g'.pages ∨ g'.pages + 4096 * g'.pageCnt ≤ g.pages

/-- `page` is a page of the pool that the used map has as free. -/
def Palloc.Available (p : Palloc) (user : Bool) (page : Nat) : Prop :=
  ∃ i < (p.pool user).usedMap.bitCnt,
    page = (p.pool user).base + 4096 * i ∧ bitmapTest (p.pool user).usedMap i = false

/-- The allocator and the groups its callers hold. -/
structure PallocState where
  palloc : Palloc
  held : List PageGroup

inductive PallocOp
  | get (flags : PallocFlags) (pageCnt : Nat)
  | free (g : PageGroup)

/-- A call. Only groups that are held are freed, and a panic ends the run. -/
def PallocState.step (s : PallocState) : PallocOp → Option PallocState
  | .get flags pageCnt =>
    match pallocGetMultiple s.palloc flags pageCnt with
    | some (some pages, p) => some ⟨p, ⟨pages, pageCnt, flags.user⟩ :: s.held⟩
    | some (none, p) => some ⟨p, s.held⟩
    | none => none
  | .free g =>
    if g ∈ s.held then
      match pallocFreeMultiple s.palloc g.pages g.pageCnt with
      | some p => some ⟨p, s.held.erase g⟩
      | none => none
    else none

/-! ## The layout of memory -/

/-- The areas of a pool: its used map and its pages. -/
def PlacedPool.spans (p : PlacedPool) : List (Nat × Nat) :=
  [(p.usedMapAt, p.base), (p.base, p.base + 4096 * p.usedMap.bitCnt)]

/-- The kernel pool's areas and then the user pool's. -/
def Palloc.spans (p : Palloc) : List (Nat × Nat) := p.kernelPool.spans ++ p.userPool.spans

variable {p p' : Palloc} {pageCnt : Nat}

theorem initPool_some {base : Nat} {haligned : base % 4096 = 0} {hkernel : physBase ≤ base}
    {p : PlacedPool} (h : initPool base haligned hkernel pageCnt = some p) :
    p.usedMapAt = base ∧ base ≤ p.base ∧ p.base + 4096 * p.usedMap.bitCnt = base + 4096 * pageCnt ∧
      bitmapBufSize p.usedMap.bitCnt ≤ p.base - base ∧
      ∀ i, bitmapTest p.usedMap i = false := by
  simp only [initPool] at h
  split at h
  · cases h
  · next hge =>
    cases h
    simp only [bitmapCreate]
    refine ⟨trivial, by omega, by omega, ?_, fun i => by simp [bitmapTest]⟩
    -- the map was sized for more pages than are left
    unfold bitmapBufSize byteCnt elemCnt
    unfold bitmapBufSize byteCnt elemCnt at hge
    omega

theorem initPools_spans {kernelPages userPages : Nat} {mem : Mem}
    (h : initPools kernelPages userPages mem = some p) :
    p.spans.Pairwise (fun a b => a.2 ≤ b.1) ∧
      (∀ a ∈ p.spans, freeStart ≤ a.1 ∧ a.1 ≤ a.2 ∧
        a.2 ≤ freeStart + 4096 * (kernelPages + userPages)) ∧
      ∀ user, bitmapBufSize (p.pool user).usedMap.bitCnt ≤
        (p.pool user).base - (p.pool user).usedMapAt ∧
        ∀ i, bitmapTest (p.pool user).usedMap i = false := by
  simp only [initPools] at h
  split at h
  · next kernel user hkernel huser =>
    cases h
    obtain ⟨hk₁, hk₂, hk₃, hk₄, hk₅⟩ := initPool_some hkernel
    obtain ⟨hu₁, hu₂, hu₃, hu₄, hu₅⟩ := initPool_some huser
    refine ⟨?_, ?_, ?_⟩
    · simp only [spans, PlacedPool.spans, cons_append, nil_append,
        pairwise_cons, mem_cons, not_mem_nil, or_false, forall_eq_or_imp,
        forall_eq, IsEmpty.forall_iff, implies_true, List.Pairwise.nil, and_true]
      omega
    · simp only [spans, PlacedPool.spans, cons_append, nil_append,
        mem_cons, not_mem_nil, or_false, forall_eq_or_imp, forall_eq]
      omega
    · intro user'
      cases user' with
      | false =>
        rw [← hk₁] at hk₄
        exact ⟨hk₄, hk₅⟩
      | true =>
        rw [← hu₁] at hu₄
        exact ⟨hu₄, hu₅⟩
  · cases h

/-- Everything `palloc_init` sets up lies one behind the other above 1 MB and within RAM, and the
used maps fit in front of their pools. -/
theorem pallocInit_spans {n limit : Nat} {mem : Mem}
    (hlo : 1024 * 1024 < n * 4096) (h : pallocInit n limit mem = some p) :
    p.spans.Pairwise (fun a b => a.2 ≤ b.1) ∧
      (∀ a ∈ p.spans, freeStart ≤ a.1 ∧ a.1 ≤ a.2 ∧ a.2 ≤ physBase + n * 4096) ∧
      ∀ user, bitmapBufSize (p.pool user).usedMap.bitCnt ≤
        (p.pool user).base - (p.pool user).usedMapAt ∧
        ∀ i, bitmapTest (p.pool user).usedMap i = false := by
  obtain ⟨hpw, hin, hmap⟩ := initPools_spans h
  refine ⟨hpw, fun a ha => ?_, hmap⟩
  obtain ⟨hlo', hle, hhi⟩ := hin a ha
  have hstart : freeStart = physBase + 1024 * 1024 := rfl
  exact ⟨hlo', hle, by omega⟩

/-! ## What a call changes -/

/-- The pools of `p` and `p'` lie at the same addresses and have the same sizes. -/
def SameLayout (p p' : Palloc) : Prop :=
  ∀ user, (p'.pool user).base = (p.pool user).base ∧
    (p'.pool user).usedMapAt = (p.pool user).usedMapAt ∧
    (p'.pool user).usedMap.bitCnt = (p.pool user).usedMap.bitCnt

theorem SameLayout.spans (h : SameLayout p p') : p'.spans = p.spans := by
  obtain ⟨hk₁, hk₂, hk₃⟩ := h false
  obtain ⟨hu₁, hu₂, hu₃⟩ := h true
  simp only [Palloc.pool, Bool.false_eq_true, if_true, if_false] at hk₁ hk₂ hk₃ hu₁ hu₂ hu₃
  simp only [Palloc.spans, PlacedPool.spans, hk₁, hk₂, hk₃, hu₁, hu₂, hu₃]

@[simp] theorem Palloc.pool_setMap (p : Palloc) (user user' : Bool) (map : Bitmap) :
    (p.setMap user map).pool user' =
      if user' = user then { p.pool user with usedMap := map } else p.pool user' := by
  cases user <;> cases user' <;> rfl

theorem SameLayout.setMap {user : Bool} {map : Bitmap}
    (h : map.bitCnt = (p.pool user).usedMap.bitCnt) : SameLayout p (p.setMap user map) := by
  intro user'
  rw [pool_setMap]
  split
  · next heq =>
    subst heq
    exact ⟨rfl, rfl, h⟩
  · exact ⟨rfl, rfl, rfl⟩

/-- A group that is handed out was free; its bits are the only ones that change. -/
theorem pallocGetMultiple_some {flags : PallocFlags} {pages : Nat}
    (h : pallocGetMultiple p flags pageCnt = some (some pages, p')) :
    0 < pageCnt ∧ SameLayout p p' ∧ ∃ i, pages = (p.pool flags.user).base + 4096 * i ∧
      i + pageCnt ≤ (p.pool flags.user).usedMap.bitCnt ∧
      (∀ k < pageCnt, bitmapTest (p.pool flags.user).usedMap (i + k) = false) ∧
      ∀ user j, bitmapTest (p'.pool user).usedMap j =
        (decide (user = flags.user ∧ i ≤ j ∧ j < i + pageCnt) ||
          bitmapTest (p.pool user).usedMap j) := by
  unfold pallocGetMultiple at h
  split at h
  · cases h
  · next hne =>
    split at h
    · next idx map hflip =>
      obtain ⟨hin, hcnt, hclear, hafter⟩ := bitmapScanAndFlip_some hflip
      -- zeroing the pages changes no pool
      have hpool : ∀ user, p'.pool user = (p.setMap flags.user map).pool user := by
        simp only [Option.some.injEq, Prod.mk.injEq] at h
        rw [← h.2]
        intro user
        split <;> rfl
      refine ⟨by omega, fun user => ?_, idx, ?_, hin, hclear, fun user j => ?_⟩
      · rw [hpool]
        exact SameLayout.setMap hcnt user
      · simp only [Option.some.injEq, Prod.mk.injEq] at h
        exact h.1.symm
      · rw [hpool, pool_setMap]
        by_cases hu : user = flags.user
        · rw [if_pos hu, hu, hafter]
          simp only [true_and]
        · rw [if_neg hu]
          simp [hu]
    · split at h <;> cases h

theorem pallocGetMultiple_null {flags : PallocFlags}
    (h : pallocGetMultiple p flags pageCnt = some (none, p')) :
    p' = p ∧ (pageCnt = 0 ∨ ∀ i, i + pageCnt ≤ (p.pool flags.user).usedMap.bitCnt →
      ∃ k < pageCnt, bitmapTest (p.pool flags.user).usedMap (i + k) = true) := by
  unfold pallocGetMultiple at h
  split at h
  · next hzero =>
    cases h
    exact ⟨rfl, .inl hzero⟩
  · split at h
    · cases h
    · next hflip =>
      have hscan : bitmapScan (p.pool flags.user).usedMap 0 pageCnt false = none := by
        unfold bitmapScanAndFlip at hflip
        split at hflip
        · cases hflip
        · next hscan => exact hscan
      split at h
      · cases h
      · cases h
        exact ⟨rfl, .inr fun i hi => bitmapScan_none hscan hi⟩

theorem pallocFreeFrom_some {user : Bool} {i : Nat}
    (hset : ∀ k < pageCnt, bitmapTest (p.pool user).usedMap (i + k) = true) :
    ∃ p', pallocFreeFrom p user ((p.pool user).base + 4096 * i) pageCnt = some p' ∧
      SameLayout p p' ∧ ∀ user' j, bitmapTest (p'.pool user').usedMap j =
        (!decide (user' = user ∧ i ≤ j ∧ j < i + pageCnt) &&
          bitmapTest (p.pool user').usedMap j) := by
  have hidx : ((p.pool user).base + 4096 * i) / 4096 - (p.pool user).base / 4096 = i := by
    have := (p.pool user).base_aligned
    omega
  have hall : bitmapAll (p.pool user).usedMap i pageCnt = true := by
    rw [bitmapAll, Bool.not_eq_true', bitmapContains_eq_false]
    exact hset
  have hfree : pallocFreeFrom p user ((p.pool user).base + 4096 * i) pageCnt =
      some { p.setMap user (bitmapSetMultiple (p.pool user).usedMap i pageCnt false) with
        mem := (p.setMap user (bitmapSetMultiple (p.pool user).usedMap i pageCnt false)).mem.fill
          ((p.pool user).base + 4096 * i) (4096 * pageCnt) 0xcc } := by
    simp only [pallocFreeFrom, hidx, hall, if_true]
  refine ⟨_, hfree, ?_, fun user' j => ?_⟩
  · exact SameLayout.setMap (bitmapSetMultiple_bitCnt ..)
  · show bitmapTest ((p.setMap user _).pool user').usedMap j = _
    rw [pool_setMap]
    by_cases hu : user' = user
    · subst hu
      rw [if_pos rfl, bitmapTest_setMultiple]
      by_cases hj : i ≤ j ∧ j < i + pageCnt
      · simp [hj]
      · simp [hj]
    · simp [hu]

/-! ## The groups held and the used maps -/

/-- The used maps have exactly the pages of the groups held. -/
structure PallocState.Exact (s : PallocState) : Prop where
  layout : s.palloc.spans.Pairwise fun a b => a.2 ≤ b.1
  placed : ∀ g ∈ s.held, 0 < g.pageCnt ∧ ∃ i, g.pages = (s.palloc.pool g.user).base + 4096 * i ∧
    i + g.pageCnt ≤ (s.palloc.pool g.user).usedMap.bitCnt
  used_iff : ∀ user, ∀ i < (s.palloc.pool user).usedMap.bitCnt,
    (bitmapTest (s.palloc.pool user).usedMap i = true ↔
      ∃ g ∈ s.held, g.user = user ∧ g.Has ((s.palloc.pool user).base + 4096 * i))
  apart : s.held.Pairwise PageGroup.Apart

theorem Palloc.pools_apart (h : p.spans.Pairwise fun a b => a.2 ≤ b.1) :
    p.kernelPool.base + 4096 * p.kernelPool.usedMap.bitCnt ≤ p.userPool.base := by
  simp only [spans, PlacedPool.spans, cons_append, nil_append,
    pairwise_cons, mem_cons, not_mem_nil, or_false, forall_eq_or_imp, forall_eq] at h
  exact h.2.1.2

theorem PageGroup.has_iff {g : PageGroup} {base i j : Nat} (h : g.pages = base + 4096 * i) :
    g.Has (base + 4096 * j) ↔ i ≤ j ∧ j < i + g.pageCnt := by
  constructor
  · rintro ⟨k, hk, heq⟩
    omega
  · intro hj
    exact ⟨j - i, by omega, by omega⟩

instance : Std.Symm PageGroup.Apart := ⟨fun _ _ h => h.symm⟩

namespace PallocState.Exact

variable {s : PallocState}

theorem init {n limit : Nat} {mem : Mem} {p : Palloc} (hlo : 1024 * 1024 < n * 4096)
    (h : pallocInit n limit mem = some p) : PallocState.Exact ⟨p, []⟩ := by
  obtain ⟨hpw, -, hmap⟩ := pallocInit_spans hlo h
  refine ⟨hpw, nofun, fun user i _ => ?_, List.Pairwise.nil⟩
  rw [(hmap user).2 i]
  simp

section

variable (h : s.Exact)
include h

/-- Groups of different pools are apart, and groups of one pool when their pages are. -/
theorem apart_of {g g' : PageGroup} {i i' : Nat}
    (hg : g.pages = (s.palloc.pool g.user).base + 4096 * i)
    (hin : i + g.pageCnt ≤ (s.palloc.pool g.user).usedMap.bitCnt)
    (hg' : g'.pages = (s.palloc.pool g'.user).base + 4096 * i')
    (hin' : i' + g'.pageCnt ≤ (s.palloc.pool g'.user).usedMap.bitCnt)
    (hsame : g.user = g'.user → i + g.pageCnt ≤ i' ∨ i' + g'.pageCnt ≤ i) : g.Apart g' := by
  have hpools := pools_apart h.layout
  unfold PageGroup.Apart
  by_cases hu : g.user = g'.user
  · rw [hg, hg', hu]
    have := hsame hu
    omega
  · rw [hg, hg']
    cases hgu : g.user <;> cases hgu' : g'.user <;> rw [hgu] at hin <;> rw [hgu'] at hin'
    · exact absurd (hgu.trans hgu'.symm) hu
    · left
      show s.palloc.kernelPool.base + 4096 * i + 4096 * g.pageCnt ≤
        s.palloc.userPool.base + 4096 * i'
      have : i + g.pageCnt ≤ s.palloc.kernelPool.usedMap.bitCnt := hin
      omega
    · right
      show s.palloc.kernelPool.base + 4096 * i' + 4096 * g'.pageCnt ≤
        s.palloc.userPool.base + 4096 * i
      have : i' + g'.pageCnt ≤ s.palloc.kernelPool.usedMap.bitCnt := hin'
      omega
    · exact absurd (hgu.trans hgu'.symm) hu

/-- A new group has no page in common with those held: its bits were clear. -/
theorem get {flags : PallocFlags} {pageCnt pages : Nat} {p' : Palloc}
    (hget : pallocGetMultiple s.palloc flags pageCnt = some (some pages, p')) :
    PallocState.Exact ⟨p', ⟨pages, pageCnt, flags.user⟩ :: s.held⟩ := by
  obtain ⟨hpos, hlay, i, hpages, hin, hclear, hafter⟩ := pallocGetMultiple_some hget
  have hbase : ∀ user, (p'.pool user).base = (s.palloc.pool user).base := fun user => (hlay user).1
  have hcnt : ∀ user, (p'.pool user).usedMap.bitCnt = (s.palloc.pool user).usedMap.bitCnt :=
    fun user => (hlay user).2.2
  refine ⟨?_, ?_, ?_, ?_⟩
  · show p'.spans.Pairwise _
    rw [hlay.spans]
    exact h.layout
  · intro g hg
    simp only [hbase, hcnt]
    rcases mem_cons.mp hg with rfl | hg
    · exact ⟨hpos, i, hpages, hin⟩
    · exact h.placed g hg
  · intro user j hj
    simp only [hbase, hcnt] at hj ⊢
    rw [hafter, Bool.or_eq_true, decide_eq_true_iff, h.used_iff user j hj]
    simp only [mem_cons, exists_eq_or_imp]
    refine or_congr ?_ Iff.rfl
    constructor
    · rintro ⟨rfl, hrange⟩
      exact ⟨rfl, (PageGroup.has_iff hpages).mpr hrange⟩
    · rintro ⟨rfl, hhas⟩
      exact ⟨rfl, (PageGroup.has_iff hpages).mp hhas⟩
  · refine List.Pairwise.cons (fun g hg => ?_) h.apart
    obtain ⟨hgpos, i', hg', hin'⟩ := h.placed g hg
    refine h.apart_of hpages hin hg' hin' fun hu => ?_
    by_contra hover
    -- a page of both groups would be clear and set
    obtain ⟨j, hj, hj'⟩ : ∃ j, (i ≤ j ∧ j < i + pageCnt) ∧ i' ≤ j ∧ j < i' + g.pageCnt :=
      ⟨max i i', by simp only at hover; omega, by simp only at hover; omega⟩
    have hu : flags.user = g.user := hu
    have hset : bitmapTest (s.palloc.pool flags.user).usedMap j = true := by
      rw [hu, h.used_iff g.user j (by omega)]
      exact ⟨g, hg, rfl, (PageGroup.has_iff hg').mpr hj'⟩
    have := hclear (j - i) (by omega)
    rw [Nat.add_sub_cancel' hj.1, hset] at this
    cases this

theorem nodup : s.held.Nodup := by
  refine List.Pairwise.imp_of_mem ?_ h.apart
  rintro g g' hg - hap rfl
  have := (h.placed g hg).1
  unfold PageGroup.Apart at hap
  omega

theorem free_held {g : PageGroup} (hg : g ∈ s.held) :
    ∃ p', pallocFreeMultiple s.palloc g.pages g.pageCnt = some p' ∧ SameLayout s.palloc p' ∧
      ∃ i, g.pages = (s.palloc.pool g.user).base + 4096 * i ∧
        i + g.pageCnt ≤ (s.palloc.pool g.user).usedMap.bitCnt ∧
        ∀ user j, bitmapTest (p'.pool user).usedMap j =
          (!decide (user = g.user ∧ i ≤ j ∧ j < i + g.pageCnt) &&
            bitmapTest (s.palloc.pool user).usedMap j) := by
  obtain ⟨hpos, i, hpages, hin⟩ := h.placed g hg
  have hset : ∀ k < g.pageCnt, bitmapTest (s.palloc.pool g.user).usedMap (i + k) = true := by
    intro k hk
    rw [h.used_iff g.user (i + k) (by omega)]
    exact ⟨g, hg, rfl, (PageGroup.has_iff hpages).mpr (by omega)⟩
  obtain ⟨p', hfree, hlay, hafter⟩ := pallocFreeFrom_some hset
  have hal := (s.palloc.pool g.user).base_aligned
  refine ⟨p', ?_, hlay, i, hpages, hin, hafter⟩
  rw [← hpages] at hfree
  rw [pallocFreeMultiple, if_neg (by omega), if_neg (by omega)]
  -- the pool is found by the address of the first page
  have hpools := pools_apart h.layout
  cases hu : g.user with
  | false =>
    rw [hu] at hfree hpages hin hal
    have hpages : g.pages = s.palloc.kernelPool.base + 4096 * i := hpages
    have hin : i + g.pageCnt ≤ s.palloc.kernelPool.usedMap.bitCnt := hin
    rw [if_pos]
    · exact hfree
    · simp only [pageFromPool, Bool.and_eq_true, decide_eq_true_eq]
      omega
  | true =>
    rw [hu] at hfree hpages hin hal
    have hpages : g.pages = s.palloc.userPool.base + 4096 * i := hpages
    have hin : i + g.pageCnt ≤ s.palloc.userPool.usedMap.bitCnt := hin
    have hal : s.palloc.userPool.base % 4096 = 0 := hal
    have hal' := s.palloc.kernelPool.base_aligned
    rw [if_neg, if_pos]
    · exact hfree
    · simp only [pageFromPool, Bool.and_eq_true, decide_eq_true_eq]
      omega
    · simp only [pageFromPool, Bool.and_eq_true, decide_eq_true_eq]
      omega

theorem free {g : PageGroup} {p' : Palloc} (hg : g ∈ s.held)
    (hfree : pallocFreeMultiple s.palloc g.pages g.pageCnt = some p') :
    PallocState.Exact ⟨p', s.held.erase g⟩ ∧ SameLayout s.palloc p' := by
  obtain ⟨q, hq, hlay, i, hpages, hin, hafter⟩ := h.free_held hg
  rw [hfree] at hq
  cases hq
  have hbase : ∀ user, (p'.pool user).base = (s.palloc.pool user).base := fun user => (hlay user).1
  have hcnt : ∀ user, (p'.pool user).usedMap.bitCnt = (s.palloc.pool user).usedMap.bitCnt :=
    fun user => (hlay user).2.2
  have hmem : ∀ g', g' ∈ s.held.erase g ↔ g' ≠ g ∧ g' ∈ s.held := fun g' =>
    h.nodup.mem_erase_iff
  refine ⟨⟨?_, ?_, ?_, h.apart.sublist erase_sublist⟩, hlay⟩
  · show p'.spans.Pairwise _
    rw [hlay.spans]
    exact h.layout
  · intro g' hg'
    simp only [hbase, hcnt]
    exact h.placed g' ((hmem g').mp hg').2
  · intro user j hj
    simp only [hbase, hcnt] at hj ⊢
    rw [hafter, Bool.and_eq_true, Bool.not_eq_true', decide_eq_false_iff_not, h.used_iff user j hj]
    constructor
    · rintro ⟨hout, g', hg', rfl, hhas⟩
      refine ⟨g', (hmem g').mpr ⟨?_, hg'⟩, rfl, hhas⟩
      rintro rfl
      exact hout ⟨rfl, (PageGroup.has_iff hpages).mp hhas⟩
    · rintro ⟨g', hg', rfl, hhas⟩
      obtain ⟨hne, hg'⟩ := (hmem g').mp hg'
      refine ⟨?_, g', hg', rfl, hhas⟩
      rintro ⟨hu, hj'⟩
      -- the page would belong to two groups
      have hap := h.apart.forall hg' hg hne
      obtain ⟨-, i', hpages', -⟩ := h.placed g' hg'
      have hj'' := (PageGroup.has_iff hpages').mp hhas
      rw [← hu] at hpages
      unfold PageGroup.Apart at hap
      omega

theorem step {op : PallocOp} {s' : PallocState} (hstep : s.step op = some s') :
    s'.Exact ∧ SameLayout s.palloc s'.palloc := by
  cases op with
  | get flags pageCnt =>
    simp only [PallocState.step] at hstep
    split at hstep
    · next pages p hget =>
      cases hstep
      exact ⟨h.get hget, (pallocGetMultiple_some hget).2.1⟩
    · next p hget =>
      cases hstep
      rw [(pallocGetMultiple_null hget).1]
      exact ⟨h, fun _ => ⟨rfl, rfl, rfl⟩⟩
    · cases hstep
  | free g =>
    simp only [PallocState.step] at hstep
    split at hstep
    · next hg =>
      split at hstep
      · next p hfree =>
        cases hstep
        exact h.free hg hfree
      · cases hstep
    · cases hstep

end

end PallocState.Exact

/-! ## Runs -/

/-- The calls `ops`, one after another, lead from `s` to `s'`. -/
abbrev PallocRuns (s : PallocState) (ops : List PallocOp) (s' : PallocState) : Prop :=
  Runs (fun s op s' => s.step op = some s') (fun _ _ => True) s ops s'

theorem PallocState.Exact.runs {s s' : PallocState} {ops : List PallocOp} (h : s.Exact)
    (hruns : PallocRuns s ops s') : s'.Exact ∧ SameLayout s.palloc s'.palloc := by
  refine hruns.invariant (I := fun t => t.Exact ∧ SameLayout s.palloc t.palloc) ?_
    ⟨h, fun _ => ⟨rfl, rfl, rfl⟩⟩
  rintro t op t' ⟨ht, hlay⟩ - hstep
  obtain ⟨ht', hlay'⟩ := ht.step hstep
  refine ⟨ht', fun user => ?_⟩
  obtain ⟨h₁, h₂, h₃⟩ := hlay user
  obtain ⟨h₁', h₂', h₃'⟩ := hlay' user
  exact ⟨h₁'.trans h₁, h₂'.trans h₂, h₃'.trans h₃⟩

theorem PallocState.Exact.available_free {s : PallocState} {g : PageGroup} (h : s.Exact)
    (hg : g ∈ s.held) : ∃ p', pallocFreeMultiple s.palloc g.pages g.pageCnt = some p' ∧
      ∀ user page, p'.Available user page ↔
        s.palloc.Available user page ∨ (g.user = user ∧ g.Has page) := by
  obtain ⟨p', hfree, hlay, i, hpages, hin, hafter⟩ := h.free_held hg
  refine ⟨p', hfree, fun user page => ?_⟩
  obtain ⟨hbase, -, hcnt⟩ := hlay user
  simp only [Palloc.Available, hbase, hcnt, hafter, Bool.and_eq_false_iff, Bool.not_eq_false',
    decide_eq_true_eq]
  constructor
  · rintro ⟨j, hj, rfl, ⟨rfl, hrange⟩ | hclear⟩
    · exact .inr ⟨rfl, (PageGroup.has_iff hpages).mpr hrange⟩
    · exact .inl ⟨j, hj, rfl, hclear⟩
  · rintro (⟨j, hj, rfl, hclear⟩ | ⟨rfl, k, hk, rfl⟩)
    · exact ⟨j, hj, rfl, .inr hclear⟩
    · exact ⟨i + k, by omega, by omega, .inl ⟨rfl, by omega, by omega⟩⟩

theorem available_of_null {p p' : Palloc} {flags : PallocFlags} {pageCnt : Nat}
    (h : pallocGetMultiple p flags pageCnt = some (none, p')) :
    pageCnt = 0 ∨ ¬ ∃ start, ∀ k < pageCnt, p.Available flags.user (start + 4096 * k) := by
  refine (pallocGetMultiple_null h).2.imp id fun hrun => ?_
  rintro ⟨start, hall⟩
  by_cases hpos : 0 < pageCnt
  · obtain ⟨i, -, hstart, -⟩ := hall 0 hpos
    obtain ⟨j, hj, hlast, -⟩ := hall (pageCnt - 1) (by omega)
    obtain ⟨k, hk, hset⟩ := hrun i (by omega)
    obtain ⟨m, -, hm, hclear⟩ := hall k hk
    have : m = i + k := by omega
    rw [this, hset] at hclear
    cases hclear
  · obtain ⟨k, hk, -⟩ := hrun 0 (by omega)
    omega

/-- **The page allocator never hands out a page twice.** After `palloc_init` the used maps and the
pools lie apart within RAM above 1 MB. In every state that calls lead to, the groups held are
apart, page-aligned and inside the pool their flags asked for; freeing one of them succeeds and
makes its pages available again and no others; and a get of at least one page that returns null
found no run of that many free pages. -/
theorem palloc_groups_exclusive {n limit : Nat} {mem : Mem} {p₀ : Palloc}
    (hlo : 1024 * 1024 < n * 4096) (hhi : n * 4096 < 1024 * 1024 * 1024)
    (hinit : pallocInit n limit mem = some p₀) :
    p₀.spans.Pairwise (fun a b => a.2 ≤ b.1) ∧
      (∀ a ∈ p₀.spans, physBase + 1024 * 1024 ≤ a.1 ∧ a.1 ≤ a.2 ∧ a.2 ≤ physBase + n * 4096 ∧
        a.2 < 2 ^ 32) ∧
      (∀ user, bitmapBufSize (p₀.pool user).usedMap.bitCnt ≤
        (p₀.pool user).base - (p₀.pool user).usedMapAt) ∧
      ∀ ops s, PallocRuns ⟨p₀, []⟩ ops s →
        s.palloc.spans = p₀.spans ∧ s.held.Pairwise PageGroup.Apart ∧
        (∀ g ∈ s.held, g.pages % 4096 = 0 ∧ (s.palloc.pool g.user).base ≤ g.pages ∧
          g.pages + 4096 * g.pageCnt ≤ (s.palloc.pool g.user).base +
            4096 * (s.palloc.pool g.user).usedMap.bitCnt ∧
          ∃ p', pallocFreeMultiple s.palloc g.pages g.pageCnt = some p' ∧
            ∀ user page, p'.Available user page ↔
              s.palloc.Available user page ∨ (g.user = user ∧ g.Has page)) ∧
        ∀ flags pageCnt p', pallocGetMultiple s.palloc flags pageCnt = some (none, p') →
          pageCnt = 0 ∨
            ¬ ∃ start, ∀ k < pageCnt, s.palloc.Available flags.user (start + 4096 * k) := by
  obtain ⟨hpw, hin, hmap⟩ := pallocInit_spans hlo hinit
  have hexact := PallocState.Exact.init hlo hinit
  refine ⟨hpw, fun a ha => ?_, fun user => (hmap user).1, fun ops s hruns => ?_⟩
  · obtain ⟨hstart, hle, hend⟩ := hin a ha
    have hbase : physBase = 3221225472 := rfl
    exact ⟨hstart, hle, hend, by omega⟩
  · obtain ⟨hs, hlay⟩ := hexact.runs hruns
    refine ⟨hlay.spans, hs.apart, fun g hg => ?_, fun flags pageCnt p' => available_of_null⟩
    obtain ⟨-, i, hpages, hfit⟩ := hs.placed g hg
    have hal := (s.palloc.pool g.user).base_aligned
    exact ⟨by omega, by omega, by omega, hs.available_free hg⟩

/-- A get of no pages returns null although every run of no pages is free. -/
theorem get_no_pages :
    ∃ p, pallocInit 512 128 (fun _ => 0) = some p ∧
      pallocGetMultiple p ⟨false, false, false⟩ 0 = some (none, p) ∧
      ∃ start, ∀ k < 0, p.Available false (start + 4096 * k) := by
  have hsome : (pallocInit 512 128 fun _ => 0).isSome = true := by decide +kernel
  obtain ⟨p, hp⟩ := Option.isSome_iff_exists.mp hsome
  exact ⟨p, hp, rfl, 0, fun k hk => absurd hk (Nat.not_lt_zero k)⟩

/-- Two kernel and three user pages are taken. -/
def fiveTaken : List PallocOp := [.get ⟨false, false, false⟩ 2, .get ⟨false, false, true⟩ 3]

/-- Two megabytes of RAM with at most 128 user pages. -/
theorem palloc_groups_exclusive_2mb :
    ∃ p s, pallocInit 512 128 (fun _ => 0) = some p ∧ PallocRuns ⟨p, []⟩ fiveTaken s ∧
      s.held.length = 2 ∧ s.held.Pairwise PageGroup.Apart := by
  have hsome : (pallocInit 512 128 fun _ => 0).any (fun p =>
      allows PallocState.step (fun _ _ => true) ⟨p, []⟩ fiveTaken &&
        (fiveTaken.foldl (after PallocState.step) ⟨p, []⟩).held.length == 2) = true := by
    decide +kernel
  cases hp : pallocInit 512 128 fun _ => 0 with
  | none =>
    rw [hp] at hsome
    cases hsome
  | some p =>
    rw [hp, Option.any_some, Bool.and_eq_true, beq_iff_eq] at hsome
    have hruns : PallocRuns ⟨p, []⟩ fiveTaken _ :=
      runs_of_allows _ (fun _ _ _ => trivial) hsome.1
    exact ⟨p, _, rfl, hruns, hsome.2,
      ((palloc_groups_exclusive (by omega) (by omega) hp).2.2.2 _ _ hruns).2.1⟩

end Pintos
