import Pintos.Threads.Palloc

/-!
# Page directories (`userprog/pagedir.c`, `threads/pte.h`)

A page directory has 768 user entries; an entry that is not zero points to a page
table of 1024 page table entries. The kernel's part of the directory never changes and
is left out. A page table entry is kept as its fields (present, writable, dirty and the
frame it points to), the zero word being `Pte.zero`.

`lookupPage` is the C function with `create = false`. `Pagedir.pte` is the same reading
without the difference between a missing page table and a zero entry, which only
`supdir_destroy` looks at; `pte_setPte` says that an update changes one page.
-/

namespace Pintos

open Function List

/-- A page table entry: `PTE_P`, `PTE_W`, `PTE_D` and `pte_get_page`. -/
structure Pte where
  present : Bool
  writable : Bool
  dirty : Bool
  frame : Nat
  deriving DecidableEq, Repr

def Pte.zero : Pte := ⟨false, false, false, 0⟩

/-- `pte_create_user`. -/
def pteCreateUser (kpage : Nat) (writable : Bool) : Pte := ⟨true, writable, false, kpage⟩

/-- The user half of a page directory. -/
structure Pagedir where
  pde : Nat → Option (Nat → Pte)

def pdNo (va : Nat) : Nat := va / 4194304

def ptNo (va : Nat) : Nat := va / 4096 % 1024

/-- `pagedir_create`: no user mapping. -/
def pagedirCreate : Pagedir := ⟨fun _ => none⟩

/-- `lookup_page (pd, vaddr, false)`. -/
def lookupPage (pd : Pagedir) (va : Nat) : Option Pte := (pd.pde (pdNo va)).map fun pt => pt (ptNo va)

/-- The entry of the page of `va`, zero when there is no page table for it. -/
def Pagedir.pte (pd : Pagedir) (va : Nat) : Pte := (lookupPage pd va).getD Pte.zero

/-- `*lookup_page (pd, va, true) = x`, the page table being there or allocated (and zeroed). -/
def Pagedir.setPte (pd : Pagedir) (va : Nat) (x : Pte) : Pagedir :=
  { pde := update pd.pde (pdNo va)
      (some (update ((pd.pde (pdNo va)).getD fun _ => Pte.zero) (ptNo va) x)) }

/-- `pagedir_set_page`. `ptAlloc` is whether `palloc_get_page` finds a page for a missing page
table; without it the function returns false and maps nothing. `none` is a failed assertion. -/
def pagedirSetPage (ptAlloc : Bool) (pd : Pagedir) (upage kpage : Nat) (writable : Bool) :
    Option (Bool × Pagedir) :=
  if upage % 4096 = 0 ∧ kpage % 4096 = 0 ∧ upage < physBase then
    if (pd.pde (pdNo upage)).isSome || ptAlloc then
      if (pd.pte upage).present then none
      else some (true, pd.setPte upage (pteCreateUser kpage writable))
    else some (false, pd)
  else none

/-- `pagedir_get_page`. -/
def pagedirGetPage (pd : Pagedir) (uaddr : Nat) : Option Nat :=
  if (pd.pte uaddr).present then some ((pd.pte uaddr).frame + uaddr % 4096) else none

/-- `pagedir_clear_page`: only `PTE_P` is cleared. -/
def pagedirClearPage (pd : Pagedir) (upage : Nat) : Pagedir :=
  if (pd.pte upage).present then pd.setPte upage { pd.pte upage with present := false } else pd

def pagedirIsDirty (pd : Pagedir) (vpage : Nat) : Bool := (pd.pte vpage).dirty

/-- The present pages, in the order in which the two loops of `pagedir_destroy` find them. -/
def pagedirPages (pd : Pagedir) : List Nat :=
  (List.range (pdNo physBase)).flatMap fun i =>
    match pd.pde i with
    | some pt =>
      ((List.range 1024).filter fun j => (pt j).present).map fun j => i * 4194304 + j * 4096
    | none => []

/-- The frames that `pagedir_destroy` frees. -/
def pagedirFrames (pd : Pagedir) : List Nat := (pagedirPages pd).map fun va => (pd.pte va).frame

/-! ## Reading an entry after an update -/

theorem page_eq_iff {va vb : Nat} : va / 4096 = vb / 4096 ↔ pdNo va = pdNo vb ∧ ptNo va = ptNo vb := by
  unfold pdNo ptNo
  omega

@[simp] theorem pte_create (va : Nat) : pagedirCreate.pte va = Pte.zero := rfl

theorem pte_setPte (pd : Pagedir) (va vb : Nat) (x : Pte) :
    (pd.setPte va x).pte vb = if va / 4096 = vb / 4096 then x else pd.pte vb := by
  unfold Pagedir.pte Pagedir.setPte lookupPage
  by_cases hpd : pdNo vb = pdNo va
  · simp only [hpd, update_self, Option.map_some, Option.getD_some]
    by_cases hpt : ptNo vb = ptNo va
    · rw [hpt, update_self, if_pos (page_eq_iff.mpr ⟨hpd.symm, hpt.symm⟩)]
    · rw [update_of_ne hpt, if_neg fun h => hpt (page_eq_iff.mp h).2.symm]
      cases pd.pde (pdNo va) <;> rfl
  · simp only [update_of_ne hpd]
    rw [if_neg fun h => hpd (page_eq_iff.mp h).1.symm]

theorem pte_congr (pd : Pagedir) {va vb : Nat} (h : va / 4096 = vb / 4096) : pd.pte va = pd.pte vb := by
  obtain ⟨h₁, h₂⟩ := page_eq_iff.mp h
  unfold Pagedir.pte lookupPage
  rw [h₁, h₂]

theorem pte_clearPage (pd : Pagedir) (va vb : Nat) :
    (pagedirClearPage pd va).pte vb =
      if va / 4096 = vb / 4096 then { pd.pte vb with present := false } else pd.pte vb := by
  unfold pagedirClearPage
  split
  · rw [pte_setPte]
    split
    · next h => rw [pte_congr pd h]
    · rfl
  · next hp =>
    split
    · next h =>
      rw [pte_congr pd h] at hp
      cases hpte : pd.pte vb with
      | mk p w d f =>
        rw [hpte] at hp
        simp only [Bool.not_eq_true] at hp
        rw [hp]
    · rfl

/-- What a `pagedir_set_page` that returns does: it maps the page, which was not present, or it
found no page table and changed nothing. -/
theorem pagedirSetPage_some {ptAlloc ok w : Bool} {pd pd' : Pagedir} {u k : Nat}
    (h : pagedirSetPage ptAlloc pd u k w = some (ok, pd')) :
    u < physBase ∧ u % 4096 = 0 ∧
      ((ok = true ∧ (pd.pte u).present = false ∧ pd' = pd.setPte u (pteCreateUser k w)) ∨
        (ok = false ∧ pd' = pd)) := by
  unfold pagedirSetPage at h
  split at h
  · next hu =>
    refine ⟨hu.2.2, hu.1, ?_⟩
    split at h
    · split at h
      · cases h
      · next hp =>
        cases h
        exact .inl ⟨rfl, by simpa using hp, rfl⟩
    · cases h
      exact .inr ⟨rfl, rfl⟩
  · cases h

theorem pagedirSetPage_present {ok w : Bool} {pd pd' : Pagedir} {u k : Nat}
    (h : pagedirSetPage true pd u k w = some (ok, pd')) : (pd'.pte u).present = true := by
  unfold pagedirSetPage at h
  rw [Bool.or_true, if_pos rfl] at h
  split at h
  · split at h
    · cases h
    · cases h
      rw [pte_setPte, if_pos rfl]
      rfl
  · cases h

/-! ## The frames of a directory -/

theorem pdNo_page {i j : Nat} (hj : j < 1024) : pdNo (i * 4194304 + j * 4096) = i := by
  unfold pdNo
  omega

theorem ptNo_page {i j : Nat} (hj : j < 1024) : ptNo (i * 4194304 + j * 4096) = j := by
  unfold ptNo
  omega

theorem mem_pagedirPages {pd : Pagedir} {va : Nat} :
    va ∈ pagedirPages pd ↔ va % 4096 = 0 ∧ va < physBase ∧ (pd.pte va).present = true := by
  unfold pagedirPages
  rw [mem_flatMap]
  constructor
  · rintro ⟨i, hi, hva⟩
    rw [mem_range] at hi
    split at hva
    · next pt hpt =>
      rw [mem_map] at hva
      obtain ⟨j, hj, rfl⟩ := hva
      rw [mem_filter, mem_range] at hj
      refine ⟨by omega, ?_, ?_⟩
      · simp only [pdNo, physBase] at hi ⊢
        omega
      · simp only [Pagedir.pte, lookupPage, pdNo_page hj.1, ptNo_page hj.1, hpt]
        exact hj.2
    · cases hva
  · rintro ⟨hal, hva, hp⟩
    have hlt : pdNo va < pdNo physBase := by
      simp only [pdNo, physBase] at hva ⊢
      omega
    refine ⟨pdNo va, mem_range.mpr hlt, ?_⟩
    unfold Pagedir.pte lookupPage at hp
    cases hpt : pd.pde (pdNo va) with
    | none => rw [hpt] at hp; cases hp
    | some pt =>
      rw [hpt] at hp
      simp only [mem_map, mem_filter, mem_range]
      refine ⟨ptNo va, ⟨Nat.mod_lt _ (by decide), hp⟩, ?_⟩
      unfold pdNo ptNo
      omega

theorem mem_pagedirFrames {pd : Pagedir} {f : Nat} :
    f ∈ pagedirFrames pd ↔ ∃ va < physBase, (pd.pte va).present = true ∧ (pd.pte va).frame = f := by
  unfold pagedirFrames
  simp only [mem_map, mem_pagedirPages]
  constructor
  · rintro ⟨va, ⟨-, hva, hp⟩, rfl⟩
    exact ⟨va, hva, hp, rfl⟩
  · rintro ⟨va, hva, hp, rfl⟩
    have hpage : pd.pte (va / 4096 * 4096) = pd.pte va := pte_congr pd (by omega)
    exact ⟨va / 4096 * 4096, ⟨by omega, by omega, by rw [hpage, hp]⟩, by rw [hpage]⟩

theorem pagedirPages_nodup (pd : Pagedir) : (pagedirPages pd).Nodup := by
  unfold pagedirPages
  rw [nodup_flatMap]
  constructor
  · intro i _
    split
    · refine (List.Nodup.filter _ nodup_range).map_on fun j hj k hk h => ?_
      omega
    · exact nodup_nil
  · refine nodup_range.imp fun {i i'} hne => ?_
    -- Pages of different page tables are different.
    have hdir : ∀ {i va : Nat}, va ∈ (match pd.pde i with
        | some pt =>
          ((List.range 1024).filter fun j => (pt j).present).map fun j => i * 4194304 + j * 4096
        | none => []) → pdNo va = i := by
      intro i va hva
      split at hva
      · obtain ⟨j, hj, rfl⟩ := mem_map.mp hva
        exact pdNo_page (mem_range.mp (mem_of_mem_filter hj))
      · cases hva
    exact fun va hva hva' => hne ((hdir hva).symm.trans (hdir hva'))

end Pintos
