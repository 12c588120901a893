import Pintos.Lib.Flags
import Pintos.Lib.Runs

/-!
# Page tables in memory (`userprog/pagedir.c`, `threads/pte.h`, `threads/vaddr.h`)

The functions on page directories as they work on memory: a page directory is a page of 1024 words, each
of which is zero or points to a page of 1024 page table entries, and an entry is a physical address
packed with flags. A pointer to a word is the address of its page with its index. `none` is a failed
assertion.
-/

namespace Pintos.PageTable

open Lib Function BitVec

abbrev Word := BitVec 32

/-! ## Addresses and entries -/

/-- `PHYS_BASE`. -/
def physBase : Word := 0xc0000000

/-- `PGMASK`, which is `PTE_FLAGS` too. -/
def pgMask : Word := 0xfff

/-- `PTMASK`. -/
def ptMask : Word := 0x3ff000

/-- `PTE_ADDR`. -/
def pteAddr : Word := 0xfffff000

/-- `PTE_P`. -/
def pteP : Word := 0x1

/-- `PTE_W`. -/
def pteW : Word := 0x2

/-- `PTE_U`. -/
def pteU : Word := 0x4

/-- `PTE_A`. -/
def pteA : Word := 0x20

/-- `PTE_D`. -/
def pteD : Word := 0x40

def pgOfs (va : Word) : Word := va &&& pgMask

def pgNo (va : Word) : Nat := (va >>> 12).toNat

def ptNo (va : Word) : Nat := ((va &&& ptMask) >>> 12).toNat

def pdNo (va : Word) : Nat := (va >>> 22).toNat

def ptov (paddr : Word) : Option Word := if paddr < physBase then some (paddr + physBase) else none

def vtop (vaddr : Word) : Option Word := if physBase ≤ vaddr then some (vaddr - physBase) else none

def pdeCreate (pt : Word) : Option Word :=
  if pgOfs pt = 0#32 then do
    let paddr ← vtop pt
    return paddr ||| pteU ||| pteP ||| pteW
  else none

def pdeGetPt (pde : Word) : Option Word :=
  if pde &&& pteP ≠ 0#32 then ptov (pde &&& pteAddr) else none

def pteCreateKernel (page : Word) (writable : Bool) : Option Word :=
  if pgOfs page = 0#32 then do
    let paddr ← vtop page
    return paddr ||| pteP ||| (if writable then pteW else 0#32)
  else none

def pteCreateUser (page : Word) (writable : Bool) : Option Word := do
  let pte ← pteCreateKernel page writable
  return pte ||| pteU

def pteGetPage (pte : Word) : Option Word := ptov (pte &&& pteAddr)

/-! ## Page directories -/

/-- Memory: the words of the page at a kernel address. -/
abbrev Tables := Word → Nat → Word

/-- `page[i] = x`. -/
def Tables.set (m : Tables) (page : Word) (i : Nat) (x : Word) : Tables :=
  update m page (update (m page) i x)

/-- `init_page_dir` and `init_ram_pages`. -/
structure Machine where
  initPageDir : Word
  initRamPages : Word

/-- `pagedir_create`, which has got the page `pd`. -/
def pagedirCreate (mc : Machine) (m : Tables) (pd : Word) : Tables :=
  update m pd (m mc.initPageDir)

/-- `lookup_page`; `page` is the answer of `palloc_get_page (PAL_ZERO)`. -/
def lookupPage (m : Tables) (pd vaddr : Word) (create : Bool) (page : Option Word) :
    Option (Option (Word × Nat) × Tables) :=
  if pd ≠ 0#32 ∧ (create = false ∨ vaddr < physBase) then
    if m pd (pdNo vaddr) = 0#32 then
      match create, page with
      | true, some pt => do
          let pde ← pdeCreate pt
          let m := Tables.set (update m pt fun _ => 0#32) pd (pdNo vaddr) pde
          let pt ← pdeGetPt (m pd (pdNo vaddr))
          return (some (pt, ptNo vaddr), m)
      | _, _ => some (none, m)
    else do
      let pt ← pdeGetPt (m pd (pdNo vaddr))
      return (some (pt, ptNo vaddr), m)
  else none

/-- `pagedir_set_page`. -/
def pagedirSetPage (mc : Machine) (m : Tables) (pd upage kpage : Word) (writable : Bool)
    (page : Option Word) : Option (Bool × Tables) :=
  if pgOfs upage = 0#32 ∧ pgOfs kpage = 0#32 ∧ upage < physBase then do
    let paddr ← vtop kpage
    if paddr >>> 12 < mc.initRamPages ∧ pd ≠ mc.initPageDir then
      let (pte, m) ← lookupPage m pd upage true page
      match pte with
      | some (pt, i) =>
        if m pt i &&& pteP = 0#32 then
          let x ← pteCreateUser kpage writable
          return (true, m.set pt i x)
        else none
      | none => return (false, m)
    else none
  else none

/-- `pagedir_get_page`. -/
def pagedirGetPage (m : Tables) (pd uaddr : Word) : Option (Option Word) :=
  if uaddr < physBase then do
    let (pte, m) ← lookupPage m pd uaddr false none
    match pte with
    | some (pt, i) =>
      if m pt i &&& pteP ≠ 0#32 then
        let page ← pteGetPage (m pt i)
        return some (page + pgOfs uaddr)
      else return none
    | none => return none
  else none

/-- `pagedir_clear_page`. -/
def pagedirClearPage (m : Tables) (pd upage : Word) : Option Tables :=
  if pgOfs upage = 0#32 ∧ upage < physBase then do
    let (pte, m) ← lookupPage m pd upage false none
    match pte with
    | some (pt, i) => return if m pt i &&& pteP ≠ 0#32 then m.set pt i (m pt i &&& ~~~pteP) else m
    | none => return m
  else none

/-- A flag of the entry of a page. -/
def isSet (flag : Word) (m : Tables) (pd vpage : Word) : Option Bool := do
  let (pte, m) ← lookupPage m pd vpage false none
  match pte with
  | some (pt, i) => return m pt i &&& flag ≠ 0#32
  | none => return false

/-- The flag of the entry of a page is set or cleared. -/
def setFlag (flag : Word) (m : Tables) (pd vpage : Word) (value : Bool) : Option Tables := do
  let (pte, m) ← lookupPage m pd vpage false none
  match pte with
  | some (pt, i) => return m.set pt i (if value then m pt i ||| flag else m pt i &&& ~~~flag)
  | none => return m

/-- `pagedir_is_dirty`. -/
def pagedirIsDirty : Tables → Word → Word → Option Bool := isSet pteD

/-- `pagedir_set_dirty`. -/
def pagedirSetDirty : Tables → Word → Word → Bool → Option Tables := setFlag pteD

/-- `pagedir_is_accessed`. -/
def pagedirIsAccessed : Tables → Word → Word → Option Bool := isSet pteA

/-- `pagedir_set_accessed`. -/
def pagedirSetAccessed : Tables → Word → Word → Bool → Option Tables := setFlag pteA

/-! ## Indices -/

variable {m m' : Tables} {pd va va' pt : Word} {i j : Nat}

theorem pgNo_eq (va : Word) : pgNo va = va.toNat / 4096 := by
  unfold pgNo
  rw [toNat_ushiftRight, Nat.shiftRight_eq_div_pow]

theorem pdNo_eq (va : Word) : pdNo va = va.toNat / 4194304 := by
  unfold pdNo
  rw [toNat_ushiftRight, Nat.shiftRight_eq_div_pow]

theorem ptNo_eq (va : Word) : ptNo va = va.toNat / 4096 % 1024 := by
  have hmask : (ptMask >>> 12).toNat = 2 ^ 10 - 1 := by decide
  unfold ptNo
  rw [ushiftRight_and_distrib, toNat_and, hmask, Nat.and_two_pow_sub_one_eq_mod,
    toNat_ushiftRight, Nat.shiftRight_eq_div_pow]

theorem pdNo_lt (va : Word) : pdNo va < 1024 := by
  have hlt := va.isLt
  rw [pdNo_eq]
  omega

theorem pgNo_eq_iff : pgNo va' = pgNo va ↔ pdNo va' = pdNo va ∧ ptNo va' = ptNo va := by
  rw [pgNo_eq, pgNo_eq, pdNo_eq, pdNo_eq, ptNo_eq, ptNo_eq]
  omega

/-! ## Well-formed directories -/

/-- The page table that an entry of a directory points to. -/
def tableOf (pde : Word) : Word := (pde &&& pteAddr) + physBase

/-- The page tables of a directory are pages of their own. -/
structure Wf (m : Tables) (pd : Word) : Prop where
  pd_ne : pd ≠ 0#32
  present : ∀ {i}, i < 1024 → m pd i ≠ 0#32 → m pd i &&& pteP ≠ 0#32
  physical : ∀ {i}, i < 1024 → m pd i ≠ 0#32 → m pd i &&& pteAddr < physBase
  apart : ∀ {i}, i < 1024 → m pd i ≠ 0#32 → tableOf (m pd i) ≠ pd
  distinct : ∀ {i j}, i < 1024 → j < 1024 → m pd i ≠ 0#32 → m pd j ≠ 0#32 →
    tableOf (m pd i) = tableOf (m pd j) → i = j

/-- The entry of the page of `va`, zero if there is no page table. -/
def pte (m : Tables) (pd va : Word) : Word :=
  if m pd (pdNo va) = 0#32 then 0#32 else m (tableOf (m pd (pdNo va))) (ptNo va)

/-- A page that `palloc_get_page` may return: it is not one of the directory's. -/
structure Fresh (m : Tables) (pd pt : Word) : Prop where
  aligned : pgOfs pt = 0#32
  kernel : physBase ≤ pt
  pd_ne : pt ≠ pd
  table_ne : ∀ {i}, i < 1024 → m pd i ≠ 0#32 → tableOf (m pd i) ≠ pt

theorem lookupPage_missing (hwf : Wf m pd) (hpde : m pd (pdNo va) = 0#32) {create : Bool}
    (hcreate : create = false ∨ va < physBase) :
    lookupPage m pd va create none = some (none, m) := by
  unfold lookupPage
  rw [if_pos ⟨hwf.pd_ne, hcreate⟩, if_pos hpde]
  cases create <;> rfl

theorem pdeGetPt_eq (hwf : Wf m pd) (hi : i < 1024) (hpde : m pd i ≠ 0#32) :
    pdeGetPt (m pd i) = some (tableOf (m pd i)) := by
  unfold pdeGetPt ptov
  rw [if_pos (hwf.present hi hpde), if_pos (hwf.physical hi hpde)]
  rfl

theorem lookupPage_found (hwf : Wf m pd) (hpde : m pd (pdNo va) ≠ 0#32) {create : Bool}
    {page : Option Word} (hcreate : create = false ∨ va < physBase) :
    lookupPage m pd va create page = some (some (tableOf (m pd (pdNo va)), ptNo va), m) := by
  unfold lookupPage
  rw [if_pos ⟨hwf.pd_ne, hcreate⟩, if_neg hpde, pdeGetPt_eq hwf (pdNo_lt va) hpde]
  rfl

/-! ## Writing an entry -/

theorem set_other {page page' : Word} {x : Word} (h : page' ≠ page) : m.set page i x page' = m page' :=
  update_of_ne h ..

theorem set_self {page : Word} {x : Word} : m.set page i x page = update (m page) i x :=
  update_self ..

theorem set_pd (hwf : Wf m pd) (hpde : m pd (pdNo va) ≠ 0#32) (x : Word) :
    m.set (tableOf (m pd (pdNo va))) (ptNo va) x pd = m pd :=
  set_other (hwf.apart (pdNo_lt va) hpde).symm

theorem Wf.congr (hwf : Wf m pd) (h : m' pd = m pd) : Wf m' pd := by
  refine ⟨hwf.pd_ne, ?_, ?_, ?_, ?_⟩ <;> rw [h]
  · exact hwf.present
  · exact hwf.physical
  · exact hwf.apart
  · exact hwf.distinct

theorem pte_set (hwf : Wf m pd) (hpde : m pd (pdNo va) ≠ 0#32) (x : Word) :
    pte (m.set (tableOf (m pd (pdNo va))) (ptNo va) x) pd va' =
      if pgNo va' = pgNo va then x else pte m pd va' := by
  unfold pte
  rw [set_pd hwf hpde]
  by_cases hpd : pdNo va' = pdNo va
  · rw [hpd, if_neg hpde, if_neg hpde, set_self]
    by_cases hpt : ptNo va' = ptNo va
    · rw [hpt, update_self, if_pos (pgNo_eq_iff.mpr ⟨hpd, hpt⟩)]
    · rw [update_of_ne hpt, if_neg fun h => hpt (pgNo_eq_iff.mp h).2]
  · rw [if_neg fun h => hpd (pgNo_eq_iff.mp h).1]
    by_cases hpde' : m pd (pdNo va') = 0#32
    · rw [if_pos hpde', if_pos hpde']
    · rw [if_neg hpde', if_neg hpde', set_other fun h =>
        hpd (hwf.distinct (pdNo_lt va') (pdNo_lt va) hpde' hpde h)]

/-! ## A new page table -/

theorem pgOfs_toNat (va : Word) : (pgOfs va).toNat = va.toNat % 4096 := by
  have hmask : pgMask.toNat = 2 ^ 12 - 1 := by decide
  unfold pgOfs
  rw [toNat_and, hmask, Nat.and_two_pow_sub_one_eq_mod]

theorem aligned_iff {x : Word} : pgOfs x = 0#32 ↔ x.toNat % 4096 = 0 := by
  rw [toNat_eq, pgOfs_toNat]
  rfl

theorem physBase_toNat : physBase.toNat = 3221225472 := rfl

theorem vtop_page {kpage : Word} (hofs : pgOfs kpage = 0#32) (hkernel : physBase ≤ kpage) :
    vtop kpage = some (kpage - physBase) ∧ pgOfs (kpage - physBase) = 0#32 ∧
      kpage - physBase < physBase := by
  have hlt := kpage.isLt
  have hsub := toNat_sub_of_le hkernel
  have hle := le_def.mp hkernel
  rw [aligned_iff] at hofs
  rw [physBase_toNat] at hsub hle
  refine ⟨if_pos hkernel, aligned_iff.mpr (by omega), ?_⟩
  rw [lt_def, hsub, physBase_toNat]
  omega

theorem field_addr {x flags : Word} (hx : pgOfs x = 0#32) (hflags : flags &&& pteAddr = 0#32) :
    (x ||| flags) &&& pteAddr = x := by
  rw [or_and_other hflags]
  exact and_not_of_aligned hx

theorem field_flag {x flags c : Word} (hx : pgOfs x = 0#32) (hc : pgMask &&& c = c) :
    (x ||| flags) &&& c = flags &&& c := by
  rw [and_or_distrib_right, and_flag_of_aligned hx hc, zero_or]

/-- The entry of a directory for the page table `pt`. -/
def pdeOf (pt : Word) : Word := (pt - physBase) ||| (pteU ||| pteP ||| pteW)

section

variable (hofs : pgOfs pt = 0#32) (hkernel : physBase ≤ pt)
include hofs hkernel

theorem pdeCreate_eq : pdeCreate pt = some (pdeOf pt) := by
  unfold pdeCreate pdeOf
  rw [if_pos hofs, (vtop_page hofs hkernel).1]
  show some (_ ||| pteU ||| pteP ||| pteW) = _
  rw [BitVec.or_assoc, BitVec.or_assoc, ← BitVec.or_assoc pteU]

theorem pdeOf_present : pdeOf pt &&& pteP ≠ 0#32 := by
  unfold pdeOf
  rw [field_flag (vtop_page hofs hkernel).2.1 (by decide)]
  decide

theorem pdeOf_ne_zero : pdeOf pt ≠ 0#32 := by
  intro hzero
  refine pdeOf_present hofs hkernel ?_
  rw [hzero]
  decide

theorem pdeOf_addr : pdeOf pt &&& pteAddr = pt - physBase :=
  field_addr (vtop_page hofs hkernel).2.1 (by decide)

theorem tableOf_pdeOf : tableOf (pdeOf pt) = pt := by
  unfold tableOf
  rw [pdeOf_addr hofs hkernel, sub_add_cancel]

end

/-- Memory with a new page table for `va`. -/
def newTable (m : Tables) (pd va pt : Word) : Tables :=
  Tables.set (update m pt fun _ => 0#32) pd (pdNo va) (pdeOf pt)

theorem newTable_pd (hfresh : Fresh m pd pt) :
    newTable m pd va pt pd = update (m pd) (pdNo va) (pdeOf pt) := by
  unfold newTable
  rw [set_self, update_of_ne hfresh.pd_ne.symm]

theorem newTable_pde (hfresh : Fresh m pd pt) : newTable m pd va pt pd (pdNo va) = pdeOf pt := by
  rw [newTable_pd hfresh, update_self]

theorem newTable_pt (hfresh : Fresh m pd pt) : newTable m pd va pt pt = fun _ => 0#32 := by
  unfold newTable
  rw [set_other hfresh.pd_ne, update_self]

theorem newTable_other {page : Word} (hpd : page ≠ pd) (hpt : page ≠ pt) :
    newTable m pd va pt page = m page := by
  unfold newTable
  rw [set_other hpd, update_of_ne hpt]

theorem lookupPage_create (hwf : Wf m pd) (hpde : m pd (pdNo va) = 0#32) (huser : va < physBase)
    (hfresh : Fresh m pd pt) :
    lookupPage m pd va true (some pt) = some (some (pt, ptNo va), newTable m pd va pt) := by
  have hget : pdeGetPt (newTable m pd va pt pd (pdNo va)) = some pt := by
    have htable := tableOf_pdeOf hfresh.aligned hfresh.kernel
    unfold tableOf at htable
    unfold pdeGetPt ptov
    rw [newTable_pde hfresh, if_pos (pdeOf_present hfresh.aligned hfresh.kernel), htable,
      pdeOf_addr hfresh.aligned hfresh.kernel, if_pos (vtop_page hfresh.aligned hfresh.kernel).2.2]
  unfold lookupPage
  rw [if_pos ⟨hwf.pd_ne, .inr huser⟩, if_pos hpde]
  simp only [pdeCreate_eq hfresh.aligned hfresh.kernel, Option.bind_eq_bind, Option.bind_some]
  exact Option.bind_eq_some_iff.mpr ⟨pt, hget, rfl⟩

theorem Wf.newTable (hwf : Wf m pd) (hfresh : Fresh m pd pt) : Wf (newTable m pd va pt) pd := by
  have hpde : ∀ {i}, PageTable.newTable m pd va pt pd i ≠ 0#32 →
      i = pdNo va ∧ PageTable.newTable m pd va pt pd i = pdeOf pt ∨
      i ≠ pdNo va ∧ PageTable.newTable m pd va pt pd i = m pd i ∧ m pd i ≠ 0#32 := by
    intro i hne
    rw [newTable_pd hfresh] at hne ⊢
    by_cases hi : i = pdNo va
    · subst hi
      exact .inl ⟨rfl, update_self ..⟩
    · rw [update_of_ne hi] at hne ⊢
      exact .inr ⟨hi, rfl, hne⟩
  have htable := tableOf_pdeOf hfresh.aligned hfresh.kernel
  refine ⟨hwf.pd_ne, fun hi hne => ?_, fun hi hne => ?_, fun hi hne => ?_,
    fun {i j} hi hj hne hne' heq => ?_⟩
  · rcases hpde hne with ⟨-, h⟩ | ⟨-, h, hold⟩
    · rw [h]
      exact pdeOf_present hfresh.aligned hfresh.kernel
    · rw [h]
      exact hwf.present hi hold
  · rcases hpde hne with ⟨-, h⟩ | ⟨-, h, hold⟩
    · rw [h, pdeOf_addr hfresh.aligned hfresh.kernel]
      exact (vtop_page hfresh.aligned hfresh.kernel).2.2
    · rw [h]
      exact hwf.physical hi hold
  · rcases hpde hne with ⟨-, h⟩ | ⟨-, h, hold⟩
    · rw [h, htable]
      exact hfresh.pd_ne
    · rw [h]
      exact hwf.apart hi hold
  · rcases hpde hne with ⟨hi', h⟩ | ⟨-, h, hold⟩ <;> rcases hpde hne' with ⟨hj', h'⟩ | ⟨-, h', hold'⟩
    · exact hi'.trans hj'.symm
    · rw [h, h', htable] at heq
      exact absurd heq.symm (hfresh.table_ne hj hold')
    · rw [h, h', htable] at heq
      exact absurd heq (hfresh.table_ne hi hold)
    · rw [h, h'] at heq
      exact hwf.distinct hi hj hold hold' heq

theorem pte_newTable (hwf : Wf m pd) (hpde : m pd (pdNo va) = 0#32) (hfresh : Fresh m pd pt) :
    pte (newTable m pd va pt) pd va' = pte m pd va' := by
  unfold pte
  rw [newTable_pd hfresh]
  by_cases hpd : pdNo va' = pdNo va
  · rw [hpd, update_self, if_neg (pdeOf_ne_zero hfresh.aligned hfresh.kernel), if_pos hpde,
      tableOf_pdeOf hfresh.aligned hfresh.kernel, newTable_pt hfresh]
  · rw [update_of_ne hpd]
    by_cases hpde' : m pd (pdNo va') = 0#32
    · rw [if_pos hpde', if_pos hpde']
    · rw [if_neg hpde', if_neg hpde', newTable_other (hwf.apart (pdNo_lt va') hpde')
        (hfresh.table_ne (pdNo_lt va') hpde')]

end Pintos.PageTable
