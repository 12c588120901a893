import Pintos.Userprog.PageTable

/-!
# The page table as a map

What a page directory is for: a map from user pages to frames, each with its flags. The directory in
memory shows the map that its callers have recorded, whatever the order of the calls and whichever of
the allocations of page tables fail.
-/

namespace Pintos

namespace PageTable

open Lib Function Option BitVec

/-! ## The map -/

/-- A mapping since it was made: its frame, whether it is still there, and its flags. -/
structure Mapping where
  frame : Word
  present : Bool
  dirty : Bool
  accessed : Bool
  deriving DecidableEq

/-- The mappings of the user pages, by page number. -/
abbrev PageMap := Nat → Option Mapping

def PageMap.modify (a : PageMap) (va : Word) (f : Mapping → Mapping) : PageMap :=
  update a (pgNo va) ((a (pgNo va)).map f)

/-- The calls that change a directory; `page` is the page for a page table, if there is one. -/
inductive PageCall where
  | setPage (upage kpage : Word) (writable : Bool) (page : Option Word)
  | clearPage (upage : Word)
  | setDirty (vpage : Word) (dirty : Bool)
  | setAccessed (vpage : Word) (accessed : Bool)

/-- The page that a call is about. -/
def PageCall.vpage : PageCall → Word
  | .setPage upage _ _ _ => upage
  | .clearPage upage => upage
  | .setDirty vpage _ => vpage
  | .setAccessed vpage _ => vpage

/-- The map after a call that has returned `r`. -/
def record (a : PageMap) : PageCall × Bool → PageMap
  | (.setPage upage kpage _ _, true) =>
    update a (pgNo upage) (some ⟨kpage, true, false, false⟩)
  | (.setPage .., false) => a
  | (.clearPage upage, _) => a.modify upage fun e => { e with present := false }
  | (.setDirty vpage dirty, _) => a.modify vpage fun e => { e with dirty := dirty }
  | (.setAccessed vpage accessed, _) => a.modify vpage fun e => { e with accessed := accessed }

/-! ## The calls -/

/-- A call and what it returns, which is true for those that return nothing. -/
def call (mc : Machine) (pd : Word) (m : Tables) : PageCall → Option (Bool × Tables)
  | .setPage upage kpage writable page => pagedirSetPage mc m pd upage kpage writable page
  | .clearPage upage => (pagedirClearPage m pd upage).map fun m' => (true, m')
  | .setDirty vpage dirty => (pagedirSetDirty m pd vpage dirty).map fun m' => (true, m')
  | .setAccessed vpage accessed => (pagedirSetAccessed m pd vpage accessed).map fun m' => (true, m')

/-- What the callers have to keep to: pages for pages, a frame in memory for a page that is not present,
and new page tables from `palloc_get_page`. -/
def Allows (mc : Machine) (pd : Word) (m : Tables) : PageCall → Prop
  | .setPage upage kpage _ page =>
    pgOfs upage = 0#32 ∧ upage < physBase ∧ pgOfs kpage = 0#32 ∧ physBase ≤ kpage ∧
      (kpage - physBase) >>> 12 < mc.initRamPages ∧ pagedirGetPage m pd upage = some none ∧
      ∀ pt, page = some pt → Fresh m pd pt
  | .clearPage upage => pgOfs upage = 0#32 ∧ upage < physBase
  | .setDirty .. => True
  | .setAccessed .. => True

/-- Calls one after another, with what they returned. -/
abbrev Calls (mc : Machine) (pd : Word) : Tables → List (PageCall × Bool) → Tables → Prop :=
  Runs (fun m e m' => call mc pd m e.1 = some (e.2, m')) fun m e => Allows mc pd m e.1

variable {mc : Machine} {m m' m₀ : Tables} {pd va va' : Word} {a : PageMap} {w flag : Word}

/-! ## Reading an entry -/

theorem pte_missing (hpde : m pd (pdNo va) = 0#32) : pte m pd va = 0#32 := if_pos hpde

theorem pte_found (hpde : m pd (pdNo va) ≠ 0#32) :
    m (tableOf (m pd (pdNo va))) (ptNo va) = pte m pd va := (if_neg hpde).symm

theorem pde_of_present (hp : pte m pd va &&& pteP ≠ 0#32) : m pd (pdNo va) ≠ 0#32 := by
  intro hzero
  rw [pte_missing hzero] at hp
  exact hp zero_and

theorem pte_congr_page (h : pgNo va' = pgNo va) : pte m pd va' = pte m pd va := by
  obtain ⟨hpd, hpt⟩ := pgNo_eq_iff.mp h
  unfold pte
  rw [hpd, hpt]

theorem user_of_page (h : pgNo va' = pgNo va) (huser : va' < physBase) : va < physBase := by
  rw [pgNo_eq, pgNo_eq] at h
  rw [lt_def, physBase_toNat] at huser ⊢
  omega

theorem isSet_eq (hwf : Wf m pd) :
    isSet flag m pd va = some (decide (pte m pd va &&& flag ≠ 0#32)) := by
  unfold isSet
  by_cases hpde : m pd (pdNo va) = 0#32
  · rw [lookupPage_missing hwf hpde (.inl rfl), pte_missing hpde]
    simp
  · rw [lookupPage_found hwf hpde (.inl rfl), ← pte_found hpde]
    rfl

theorem setFlag_eq (hwf : Wf m pd) (value : Bool) :
    setFlag flag m pd va value = some (if m pd (pdNo va) = 0#32 then m else
      m.set (tableOf (m pd (pdNo va))) (ptNo va) (assign (pte m pd va) flag value)) := by
  unfold setFlag
  by_cases hpde : m pd (pdNo va) = 0#32
  · rw [lookupPage_missing hwf hpde (.inl rfl), if_pos hpde]
    rfl
  · rw [lookupPage_found hwf hpde (.inl rfl), if_neg hpde, ← pte_found hpde]
    rfl

theorem pagedirClearPage_eq (hwf : Wf m pd) (hofs : pgOfs va = 0#32) (huser : va < physBase) :
    pagedirClearPage m pd va = some (if pte m pd va &&& pteP = 0#32 then m else
      m.set (tableOf (m pd (pdNo va))) (ptNo va) (assign (pte m pd va) pteP false)) := by
  unfold pagedirClearPage
  rw [if_pos ⟨hofs, huser⟩]
  by_cases hpde : m pd (pdNo va) = 0#32
  · rw [lookupPage_missing hwf hpde (.inl rfl), pte_missing hpde, if_pos zero_and]
    rfl
  · rw [lookupPage_found hwf hpde (.inl rfl), ← pte_found hpde]
    by_cases hp : m (tableOf (m pd (pdNo va))) (ptNo va) &&& pteP = 0#32
    · simp [hp]
    · simp [hp, assign]

theorem pagedirGetPage_absent (hwf : Wf m pd) (huser : va < physBase)
    (hp : pte m pd va &&& pteP = 0#32) : pagedirGetPage m pd va = some none := by
  unfold pagedirGetPage
  rw [if_pos huser]
  by_cases hpde : m pd (pdNo va) = 0#32
  · rw [lookupPage_missing hwf hpde (.inl rfl)]
    rfl
  · rw [← pte_found hpde] at hp
    rw [lookupPage_found hwf hpde (.inl rfl)]
    simp [hp]

theorem pagedirGetPage_present (hwf : Wf m pd) (huser : va < physBase)
    (hp : pte m pd va &&& pteP ≠ 0#32) (haddr : pte m pd va &&& pteAddr < physBase) :
    pagedirGetPage m pd va = some (some ((pte m pd va &&& pteAddr) + physBase + pgOfs va)) := by
  have hpde := pde_of_present hp
  unfold pagedirGetPage
  rw [if_pos huser, lookupPage_found hwf hpde (.inl rfl)]
  rw [← pte_found hpde] at hp haddr ⊢
  simp [hp, pteGetPage, ptov, haddr]

/-! ## Entries and mappings -/

/-- The entry of a page shows its mapping; before there is one, only that it is not present. -/
def Entry (w : Word) : Option Mapping → Prop
  | none => w &&& pteP = 0#32
  | some e => e.present = decide (w &&& pteP ≠ 0#32) ∧ e.dirty = decide (w &&& pteD ≠ 0#32) ∧
      e.accessed = decide (w &&& pteA ≠ 0#32) ∧ w &&& pteAddr = e.frame - physBase ∧
      e.frame - physBase < physBase

/-- The entry that `pte_create_user` makes. -/
def pteOf (kpage : Word) (writable : Bool) : Word :=
  (kpage - physBase) ||| (pteP ||| (if writable then pteW else 0#32) ||| pteU)

variable {e : Option Mapping} {kpage upage : Word} {page : Option Word} {writable : Bool}

theorem pteCreateUser_eq (hofs : pgOfs kpage = 0#32) (hkernel : physBase ≤ kpage)
    (writable : Bool) : pteCreateUser kpage writable = some (pteOf kpage writable) := by
  unfold pteCreateUser pteCreateKernel pteOf
  rw [if_pos hofs, (vtop_page hofs hkernel).1]
  show some (_ ||| pteP ||| _ ||| pteU) = _
  rw [BitVec.or_assoc, BitVec.or_assoc, ← BitVec.or_assoc pteP]

theorem Entry.pteOf (hofs : pgOfs kpage = 0#32) (hkernel : physBase ≤ kpage)
    (writable : Bool) :
    Entry (pteOf kpage writable) (some ⟨kpage, true, false, false⟩) := by
  obtain ⟨-, haligned, hphys⟩ := vtop_page hofs hkernel
  unfold PageTable.pteOf
  refine ⟨?_, ?_, ?_, field_addr haligned ?_, hphys⟩
  · rw [field_flag haligned (by decide)]
    cases writable <;> rfl
  · rw [field_flag haligned (by decide)]
    cases writable <;> rfl
  · rw [field_flag haligned (by decide)]
    cases writable <;> rfl
  · cases writable <;> decide

theorem Entry.clear (h : Entry w e) :
    Entry (assign w pteP false) (e.map fun e => { e with present := false }) := by
  cases e with
  | none => exact clear_and_same ..
  | some e =>
    obtain ⟨-, hd, ha, haddr, hphys⟩ := h
    refine ⟨(assign_and_same w (by decide) false).symm, ?_, ?_, ?_, hphys⟩
    · rw [assign_and_other w (by decide)]
      exact hd
    · rw [assign_and_other w (by decide)]
      exact ha
    · rw [assign_and_other w (by decide)]
      exact haddr

theorem Entry.setDirty (h : Entry w e) (dirty : Bool) :
    Entry (assign w pteD dirty) (e.map fun e => { e with dirty := dirty }) := by
  cases e with
  | none => exact (assign_and_other w (by decide) dirty).trans h
  | some e =>
    obtain ⟨hp, -, ha, haddr, hphys⟩ := h
    refine ⟨?_, (assign_and_same w (by decide) dirty).symm, ?_, ?_, hphys⟩
    · rw [assign_and_other w (by decide)]
      exact hp
    · rw [assign_and_other w (by decide)]
      exact ha
    · rw [assign_and_other w (by decide)]
      exact haddr

theorem Entry.setAccessed (h : Entry w e) (accessed : Bool) :
    Entry (assign w pteA accessed) (e.map fun e => { e with accessed := accessed }) := by
  cases e with
  | none => exact (assign_and_other w (by decide) accessed).trans h
  | some e =>
    obtain ⟨hp, hd, -, haddr, hphys⟩ := h
    refine ⟨?_, ?_, (assign_and_same w (by decide) accessed).symm, ?_, hphys⟩
    · rw [assign_and_other w (by decide)]
      exact hp
    · rw [assign_and_other w (by decide)]
      exact hd
    · rw [assign_and_other w (by decide)]
      exact haddr

/-! ## The directory and the map -/

/-- What an entry says apart from the flags that the processor sets as well. -/
def lasting : Word := ~~~(pteA ||| pteD)

/-- The directory shows the map `a`, and its kernel half is that of `m₀`. -/
structure Shows (pd : Word) (m₀ m : Tables) (a : PageMap) : Prop where
  wf : Wf m pd
  table : ∀ {va}, va < physBase → a (pgNo va) ≠ none → m pd (pdNo va) ≠ 0#32
  entry : ∀ {va}, va < physBase → Entry (pte m pd va) (a (pgNo va))
  kernel : ∀ {va}, physBase ≤ va → pte m pd va &&& lasting = pte m₀ pd va &&& lasting

section

variable (h : Shows pd m₀ m a)
include h

theorem Shows.getPage (huser : va < physBase) :
    pagedirGetPage m pd va =
      some ((a (pgNo va)).bind fun e => if e.present then some (e.frame + pgOfs va) else none) := by
  have hentry := h.entry huser
  cases ha : a (pgNo va) with
  | none =>
    rw [ha] at hentry
    exact pagedirGetPage_absent h.wf huser hentry
  | some e =>
    rw [ha] at hentry
    obtain ⟨hp, -, -, haddr, hphys⟩ := hentry
    rw [bind_some, hp]
    by_cases hbit : pte m pd va &&& pteP = 0#32
    · rw [pagedirGetPage_absent h.wf huser hbit]
      simp [hbit]
    · rw [pagedirGetPage_present h.wf huser hbit (haddr ▸ hphys), haddr, sub_add_cancel]
      simp [hbit]

theorem Shows.physical (huser : va < physBase) (hbit : pte m pd va &&& pteP ≠ 0#32) :
    pte m pd va &&& pteAddr < physBase := by
  have hentry := h.entry huser
  cases ha : a (pgNo va) with
  | none =>
    rw [ha] at hentry
    exact absurd hentry hbit
  | some e =>
    rw [ha] at hentry
    obtain ⟨-, -, -, haddr, hphys⟩ := hentry
    exact haddr ▸ hphys

theorem Shows.absent (huser : va < physBase) (hget : pagedirGetPage m pd va = some none) :
    pte m pd va &&& pteP = 0#32 := by
  by_contra hbit
  rw [pagedirGetPage_present h.wf huser hbit (h.physical huser hbit)] at hget
  cases hget

theorem Shows.write (hpde : m pd (pdNo va) ≠ 0#32) {x : Word} (hentry : va < physBase → Entry x e)
    (hkernel : x &&& lasting = pte m pd va &&& lasting ∨ va < physBase) :
    Shows pd m₀ (m.set (tableOf (m pd (pdNo va))) (ptNo va) x) (update a (pgNo va) e) := by
  have hpd := set_pd h.wf hpde x
  refine ⟨h.wf.congr hpd, fun {u} huser hne => ?_, fun {u} huser => ?_, fun {u} hu => ?_⟩
  · rw [hpd]
    by_cases hpage : pgNo u = pgNo va
    · rw [(pgNo_eq_iff.mp hpage).1]
      exact hpde
    · rw [update_of_ne hpage] at hne
      exact h.table huser hne
  · rw [pte_set h.wf hpde]
    by_cases hpage : pgNo u = pgNo va
    · rw [if_pos hpage, hpage, update_self]
      exact hentry (user_of_page hpage huser)
    · rw [if_neg hpage, update_of_ne hpage]
      exact h.entry huser
  · rw [pte_set h.wf hpde]
    by_cases hpage : pgNo u = pgNo va
    · rw [if_pos hpage, ← h.kernel hu, pte_congr_page hpage]
      rcases hkernel with hkernel | huser
      · exact hkernel
      · exact absurd (user_of_page hpage.symm huser) (BitVec.not_lt.mpr hu)
    · rw [if_neg hpage]
      exact h.kernel hu

theorem Shows.newTable {pt : Word} (hpde : m pd (pdNo va) = 0#32) (hfresh : Fresh m pd pt) :
    Shows pd m₀ (newTable m pd va pt) a := by
  refine ⟨h.wf.newTable hfresh, fun {u} huser hne => ?_, fun {u} huser => ?_, fun {u} hu => ?_⟩
  · rw [newTable_pd hfresh]
    by_cases hpd : pdNo u = pdNo va
    · rw [hpd, update_self]
      exact pdeOf_ne_zero hfresh.aligned hfresh.kernel
    · rw [update_of_ne hpd]
      exact h.table huser hne
  · rw [pte_newTable h.wf hpde hfresh]
    exact h.entry huser
  · rw [pte_newTable h.wf hpde hfresh]
    exact h.kernel hu

end

/-! ## The calls, one by one -/

/-- A call that returns, keeps the directory and the map together and changes no other page; if it
returns false it changes no page. -/
def Keeps (mc : Machine) (pd : Word) (m₀ m : Tables) (a : PageMap) (c : PageCall) : Prop :=
  ∃ r m', call mc pd m c = some (r, m') ∧ Shows pd m₀ m' (record a (c, r)) ∧
    ∀ va, pgNo va ≠ pgNo c.vpage ∨ r = false → pte m' pd va = pte m pd va

theorem Shows.modify_missing (h : Shows pd m₀ m a) (hpde : m pd (pdNo va) = 0#32)
    (f : Mapping → Mapping) : Shows pd m₀ m (a.modify va f) := by
  have hsame : ∀ {u}, u < physBase → a.modify va f (pgNo u) = a (pgNo u) := by
    intro u huser
    unfold PageMap.modify
    by_cases hpage : pgNo u = pgNo va
    · have hnone : a (pgNo u) = none := by
        by_contra hne
        refine h.table huser hne ?_
        rw [(pgNo_eq_iff.mp hpage).1]
        exact hpde
      rw [← hpage, update_self, hnone]
      rfl
    · exact update_of_ne hpage ..
  refine ⟨h.wf, fun huser hne => h.table huser (hsame huser ▸ hne), fun huser => ?_, h.kernel⟩
  rw [hsame huser]
  exact h.entry huser

theorem pte_set_other (hwf : Wf m pd) (hpde : m pd (pdNo va) ≠ 0#32) (x : Word)
    (hpage : pgNo va' ≠ pgNo va) :
    pte (m.set (tableOf (m pd (pdNo va))) (ptNo va) x) pd va' = pte m pd va' := by
  rw [pte_set hwf hpde, if_neg hpage]

theorem Shows.setFlag (h : Shows pd m₀ m a) {c : PageCall} {value : Bool} {f : Mapping → Mapping}
    (hlasting : flag &&& lasting = 0#32)
    (hf : ∀ {w e}, Entry w e → Entry (assign w flag value) (e.map f))
    (hcall : call mc pd m c = (setFlag flag m pd c.vpage value).map fun m' => (true, m'))
    (hrecord : record a (c, true) = a.modify c.vpage f) : Keeps mc pd m₀ m a c := by
  rw [setFlag_eq h.wf value] at hcall
  refine ⟨true, _, hcall, ?_⟩
  rw [hrecord]
  by_cases hpde : m pd (pdNo c.vpage) = 0#32
  · rw [if_pos hpde]
    exact ⟨h.modify_missing hpde f, fun _ _ => rfl⟩
  · rw [if_neg hpde]
    refine ⟨h.write hpde (fun huser => hf (h.entry huser)) (.inl ?_), fun va hva => ?_⟩
    · exact assign_and_other _ hlasting value
    · exact pte_set_other h.wf hpde _ (hva.resolve_right (by decide))

theorem Entry.clear_absent (h : Entry w e) (hp : w &&& pteP = 0#32) :
    (e.map fun e => { e with present := false }) = e := by
  cases e with
  | none => rfl
  | some e =>
    have hpresent : e.present = false := by
      rw [h.1]
      simp [hp]
    rw [map_some, ← hpresent]

theorem Shows.clearPage (h : Shows pd m₀ m a) (hofs : pgOfs upage = 0#32)
    (huser : upage < physBase) : Keeps mc pd m₀ m a (.clearPage upage) := by
  have hclear := pagedirClearPage_eq h.wf hofs huser
  have hentry := h.entry huser
  have hcall : ∀ {m'}, pagedirClearPage m pd upage = some m' →
      call mc pd m (.clearPage upage) = some (true, m') := by
    intro m' hm'
    show (pagedirClearPage m pd upage).map _ = _
    rw [hm']
    rfl
  by_cases hp : pte m pd upage &&& pteP = 0#32
  · rw [if_pos hp] at hclear
    refine ⟨true, m, hcall hclear, ?_, fun _ _ => rfl⟩
    show Shows pd m₀ m (update a (pgNo upage) _)
    rw [hentry.clear_absent hp, update_eq_self]
    exact h
  · rw [if_neg hp] at hclear
    have hpde := pde_of_present hp
    refine ⟨true, _, hcall hclear, h.write hpde (fun _ => hentry.clear) (.inr huser), ?_⟩
    intro va hva
    exact pte_set_other h.wf hpde _ (hva.resolve_right (by decide))

theorem pagedirSetPage_eq
    (hpd : pd ≠ mc.initPageDir) (hallows : Allows mc pd m (.setPage upage kpage writable page)) :
    pagedirSetPage mc m pd upage kpage writable page =
      (lookupPage m pd upage true page).bind fun (entry, m') =>
        match entry with
        | some (pt, i) =>
          if m' pt i &&& pteP = 0#32 then some (true, m'.set pt i (pteOf kpage writable)) else none
        | none => some (false, m') := by
  obtain ⟨hofs, huser, hkofs, hkernel, hram, -, -⟩ := hallows
  unfold pagedirSetPage
  rw [if_pos ⟨hofs, hkofs, huser⟩, (vtop_page hkofs hkernel).1]
  simp only [bind_eq_bind, bind_some]
  rw [if_pos ⟨hram, hpd⟩, pteCreateUser_eq hkofs hkernel]
  rfl

theorem Shows.setPage_found
    (h : Shows pd m₀ m' a) (hpde : m' pd (pdNo upage) ≠ 0#32) (hpd : pd ≠ mc.initPageDir)
    (hallows : Allows mc pd m (.setPage upage kpage writable page))
    (hlookup : lookupPage m pd upage true page =
      some (some (tableOf (m' pd (pdNo upage)), ptNo upage), m'))
    (hsame : ∀ va, pte m' pd va = pte m pd va) (hp : pte m pd upage &&& pteP = 0#32) :
    Keeps mc pd m₀ m a (.setPage upage kpage writable page) := by
  have hset := pagedirSetPage_eq hpd hallows
  rw [hlookup, bind_some] at hset
  dsimp only at hset
  rw [pte_found hpde, hsame, if_pos hp] at hset
  obtain ⟨-, huser, hkofs, hkernel, -⟩ := hallows
  refine ⟨true, _, hset, h.write hpde (fun _ => .pteOf hkofs hkernel writable) (.inr huser), ?_⟩
  intro va hva
  rw [pte_set_other h.wf hpde _ (hva.resolve_right (by decide)), hsame]

theorem Shows.setPage
    (h : Shows pd m₀ m a) (hpd : pd ≠ mc.initPageDir)
    (hallows : Allows mc pd m (.setPage upage kpage writable page)) :
    Keeps mc pd m₀ m a (.setPage upage kpage writable page) := by
  obtain ⟨-, huser, -, -, -, hget, hfresh⟩ := id hallows
  have hp := h.absent huser hget
  by_cases hpde : m pd (pdNo upage) = 0#32
  · cases page with
    | none =>
      have hset := pagedirSetPage_eq hpd hallows
      rw [lookupPage_missing h.wf hpde (.inr huser)] at hset
      exact ⟨false, m, hset, h, fun _ _ => rfl⟩
    | some pt =>
      have hfresh := hfresh pt rfl
      refine (h.newTable hpde hfresh).setPage_found ?_ hpd hallows ?_
        (fun va => pte_newTable h.wf hpde hfresh) hp
      · rw [newTable_pde hfresh]
        exact pdeOf_ne_zero hfresh.aligned hfresh.kernel
      · rw [newTable_pde hfresh, tableOf_pdeOf hfresh.aligned hfresh.kernel]
        exact lookupPage_create h.wf hpde huser hfresh
  · exact h.setPage_found hpde hpd hallows (lookupPage_found h.wf hpde (.inr huser)) (fun _ => rfl) hp

theorem Shows.call (h : Shows pd m₀ m a) (hpd : pd ≠ mc.initPageDir) :
    ∀ {c}, Allows mc pd m c → Keeps mc pd m₀ m a c
  | .setPage .., hallows => h.setPage hpd hallows
  | .clearPage _, hallows => h.clearPage hallows.1 hallows.2
  | .setDirty _ dirty, _ => h.setFlag (by decide) (Entry.setDirty · dirty) rfl rfl
  | .setAccessed _ accessed, _ => h.setFlag (by decide) (Entry.setAccessed · accessed) rfl rfl

/-! ## Runs -/

/-- The directory that `paging_init` leaves: no user mappings. -/
structure Booted (mc : Machine) (m : Tables) : Prop where
  wf : Wf m mc.initPageDir
  user : ∀ {i}, i < pdNo physBase → m mc.initPageDir i = 0#32

theorem pdNo_user (huser : va < physBase) : pdNo va < pdNo physBase := by
  rw [lt_def, physBase_toNat] at huser
  rw [pdNo_eq, pdNo_eq, physBase_toNat]
  omega

theorem pagedirCreate_pd : pagedirCreate mc m pd pd = m mc.initPageDir := update_self ..

theorem pte_pagedirCreate (hfresh : Fresh m mc.initPageDir pd) :
    pte (pagedirCreate mc m pd) pd va = pte m mc.initPageDir va := by
  unfold pte
  rw [pagedirCreate_pd]
  by_cases hpde : m mc.initPageDir (pdNo va) = 0#32
  · rw [if_pos hpde, if_pos hpde]
  · rw [if_neg hpde, if_neg hpde, pagedirCreate, update_of_ne (hfresh.table_ne (pdNo_lt va) hpde)]

theorem Booted.shows (hboot : Booted mc m) (hfresh : Fresh m mc.initPageDir pd) :
    Shows pd (pagedirCreate mc m pd) (pagedirCreate mc m pd) fun _ => none := by
  have hne : pd ≠ 0#32 := by
    intro hzero
    have hkernel := hfresh.kernel
    rw [hzero] at hkernel
    exact absurd hkernel (by decide)
  refine ⟨⟨hne, ?_, ?_, ?_, ?_⟩, fun _ h => absurd rfl h, fun {va} huser => ?_, fun _ => rfl⟩
  · rw [pagedirCreate_pd]
    exact hboot.wf.present
  · rw [pagedirCreate_pd]
    exact hboot.wf.physical
  · rw [pagedirCreate_pd]
    exact hfresh.table_ne
  · rw [pagedirCreate_pd]
    exact hboot.wf.distinct
  · rw [pte_pagedirCreate hfresh, pte_missing (hboot.user (pdNo_user huser))]
    exact zero_and

/-- All functions that read a directory return the same for `va`. -/
structure SameReads (pd : Word) (m m' : Tables) (va : Word) : Prop where
  entry : pte m' pd va = pte m pd va
  page : pagedirGetPage m' pd va = pagedirGetPage m pd va
  dirty : pagedirIsDirty m' pd va = pagedirIsDirty m pd va
  accessed : pagedirIsAccessed m' pd va = pagedirIsAccessed m pd va

theorem Shows.sameReads (h : Shows pd m₀ m a) (hwf : Wf m' pd) (hpte : pte m' pd va = pte m pd va) :
    SameReads pd m m' va := by
  refine ⟨hpte, ?_, ?_, ?_⟩
  · by_cases huser : va < physBase
    · by_cases hbit : pte m pd va &&& pteP = 0#32
      · rw [pagedirGetPage_absent h.wf huser hbit]
        exact pagedirGetPage_absent hwf huser (hpte ▸ hbit)
      · have hphys := h.physical huser hbit
        rw [pagedirGetPage_present h.wf huser hbit hphys, ← hpte]
        exact pagedirGetPage_present hwf huser (hpte ▸ hbit) (hpte ▸ hphys)
    · unfold pagedirGetPage
      rw [if_neg huser, if_neg huser]
  · unfold pagedirIsDirty
    rw [isSet_eq h.wf, isSet_eq hwf, hpte]
  · unfold pagedirIsAccessed
    rw [isSet_eq h.wf, isSet_eq hwf, hpte]

theorem Shows.calls {es : List (PageCall × Bool)} (h : Shows pd m₀ m a) (hpd : pd ≠ mc.initPageDir)
    (hcalls : Calls mc pd m es m') : Shows pd m₀ m' (es.foldl record a) := by
  refine hcalls.simulate (R := Shows pd m₀) ?_ h
  intro m a e m' hshows hallows hcall
  obtain ⟨r, m'', hcall', hkeeps, -⟩ := hshows.call hpd hallows
  rw [hcall'] at hcall
  cases hcall
  exact hkeeps

end PageTable

open PageTable Function

/-- After any allowed calls on a directory from `pagedir_create`, whichever page tables could not be
allocated: every user address is found in the frame last set for its page unless the page has been
cleared since; the flags are those last set since the mapping was made; the kernel's mappings are those
of `init_page_dir`; and a further call changes nothing about other pages, or about any page if it
returns false. -/
theorem page_table_is_map {mc : Machine} {m m' : Tables} {pd : Word} {es : List (PageCall × Bool)}
    (hboot : Booted mc m) (hfresh : Fresh m mc.initPageDir pd)
    (hcalls : Calls mc pd (PageTable.pagedirCreate mc m pd) es m') :
    (∀ va, va < PageTable.physBase → PageTable.pagedirGetPage m' pd va =
      some ((es.foldl record (fun _ => none) (pgNo va)).bind fun e =>
        if e.present then some (e.frame + pgOfs va) else none)) ∧
    (∀ va e, va < PageTable.physBase → es.foldl record (fun _ => none) (pgNo va) = some e →
      PageTable.pagedirIsDirty m' pd va = some e.dirty ∧ pagedirIsAccessed m' pd va = some e.accessed) ∧
    (∀ va, PageTable.physBase ≤ va → pte m' pd va &&& lasting = pte m mc.initPageDir va &&& lasting) ∧
    ∀ c, Allows mc pd m' c → ∃ r m'', PageTable.call mc pd m' c = some (r, m'') ∧
      ∀ va, pgNo va ≠ pgNo c.vpage ∨ r = false → SameReads pd m' m'' va := by
  have hshows := (hboot.shows hfresh).calls hfresh.pd_ne hcalls
  refine ⟨fun va huser => hshows.getPage huser, fun va e huser he => ?_, fun va hkernel => ?_,
    fun c hallows => ?_⟩
  · have hentry := hshows.entry huser
    rw [he] at hentry
    obtain ⟨-, hdirty, haccessed, -⟩ := hentry
    rw [hdirty, haccessed]
    exact ⟨isSet_eq hshows.wf, isSet_eq hshows.wf⟩
  · rw [hshows.kernel hkernel, pte_pagedirCreate hfresh]
  · obtain ⟨r, m'', hcall, hshows', hother⟩ := hshows.call hfresh.pd_ne hallows
    exact ⟨r, m'', hcall, fun va hva => hshows.sameReads hshows'.wf (hother va hva)⟩

namespace PageTable

/-- A machine with `init_page_dir` in the second megabyte. -/
def smallMachine : Machine := ⟨0xc0100000#32, 0x1000#32⟩

/-- Its memory, with a page table for the first of the kernel's pages. -/
def smallMemory : Tables := newTable (fun _ _ => 0#32) 0xc0100000#32 0xc0000000#32 0xc0101000#32

theorem smallMemory_dir :
    smallMemory 0xc0100000#32 = update (fun _ => 0#32) 768 (pdeOf 0xc0101000#32) :=
  newTable_pd ⟨by decide, by decide, by decide, fun _ h => absurd rfl h⟩

theorem smallMemory_booted : Booted smallMachine smallMemory := by
  constructor
  · refine Wf.newTable ⟨by decide, ?_, ?_, ?_, ?_⟩ ⟨by decide, by decide, by decide, ?_⟩
    · exact fun _ h => absurd rfl h
    · exact fun _ h => absurd rfl h
    · exact fun _ h => absurd rfl h
    · exact fun _ _ h => absurd rfl h
    · exact fun _ h => absurd rfl h
  · intro i hi
    have hlt : i < 768 := hi
    show smallMemory 0xc0100000#32 i = 0#32
    rw [smallMemory_dir, update_of_ne (by omega)]

theorem smallMemory_fresh {m : Tables} {pd pt : Word} (hdir : m pd = smallMemory 0xc0100000#32)
    (hofs : pgOfs pt = 0#32) (hkernel : physBase ≤ pt) (hpd : pt ≠ pd) (hne : 0xc0101000#32 ≠ pt) :
    Fresh m pd pt := by
  refine ⟨hofs, hkernel, hpd, fun {i} _ hpde => ?_⟩
  rw [hdir, smallMemory_dir] at hpde ⊢
  by_cases hi : i = 768
  · subst hi
    rw [update_self]
    exact hne
  · rw [update_of_ne hi] at hpde
    exact absurd rfl hpde

end PageTable

/-- A page that is set, made dirty and read in a new directory. -/
theorem page_table_is_map_dirty :
    ∃ m', Calls smallMachine 0xc0102000#32
        (PageTable.pagedirCreate smallMachine smallMemory 0xc0102000#32)
        [(.setPage 0x8048000#32 0xc0200000#32 true (some 0xc0103000#32), true),
          (.setDirty 0x8048000#32 true, true)] m' ∧
      PageTable.pagedirGetPage m' 0xc0102000#32 0x8048123#32 = some (some 0xc0200123#32) ∧
      PageTable.pagedirIsDirty m' 0xc0102000#32 0x8048123#32 = some true := by
  have hfresh : Fresh smallMemory smallMachine.initPageDir 0xc0102000#32 :=
    smallMemory_fresh rfl (by decide) (by decide) (by decide) (by decide)
  have hshows := smallMemory_booted.shows hfresh
  obtain ⟨m', hcalls⟩ : ∃ m', Calls smallMachine 0xc0102000#32
      (PageTable.pagedirCreate smallMachine smallMemory 0xc0102000#32)
      [(.setPage 0x8048000#32 0xc0200000#32 true (some 0xc0103000#32), true),
        (.setDirty 0x8048000#32 true, true)] m' := by
    refine ⟨_, .cons ⟨by decide, by decide, by decide, by decide, by decide,
      hshows.getPage (by decide), fun pt hpt => ?_⟩ rfl (.cons trivial rfl (.nil _))⟩
    cases hpt
    exact smallMemory_fresh pagedirCreate_pd (by decide) (by decide) (by decide) (by decide)
  obtain ⟨hget, hflags, -⟩ := page_table_is_map smallMemory_booted hfresh hcalls
  exact ⟨m', hcalls, hget 0x8048123#32 (by decide), (hflags 0x8048123#32 _ (by decide) rfl).1⟩

end Pintos
