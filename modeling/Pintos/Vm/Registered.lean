import Pintos.Vm.Steps

/-!
# Which evictable pages have a supplemental entry

`evict_page` reads `spte->location` of the page it has chosen. Pages enter the frame table by
`load`, by faults and by stack growth, and stack growth alone registers no entry.
-/

namespace Pintos

open Lib LawfulFrameTable

/-- The operation has read through a null `spte`. -/
def isNullSpte {α : Type} : Except Crash α → Bool
  | .error .nullSpte => true
  | _ => false

namespace Vm

variable {F : Type} {vm vm' : Vm F}

variable [FrameTableOps F]

open FrameTableOps

/-- Every page of a process that is mapped or in the frame table has a supplemental entry. -/
structure Registered (vm : Vm F) : Prop where
  wf : ∀ t va e, vm.spte t va = some e → e.Wf
  mapped : ∀ t p, p % 4096 = 0 → (vm.pte t p).present = true → (vm.spte t p).isSome = true
  inTable : ∀ t va, (t, va) ∈ keys vm.ft → (vm.procs t).isSome = true →
    (vm.spte t va).isSome = true

/-- Stack growth meets a page with an entry; a process starts where the frame table has no entry of
an earlier thread. -/
def registers (vm : Vm F) (e : Event) : Bool :=
  match e with
  | .load _ t _ _ => (keys vm.ft).all fun k => k.1 != t
  | e =>
    match vm.pageInOf e with
    | some (_, t, p, stackPage) => !stackPage || (vm.spte t p).isSome
    | none => true

theorem Registered.mapped_page {t p f : Nat} {w : Bool} {src : Nat → UInt8} (hr : Registered vm)
    (he : (vm.spte t p).isSome = true) (h : Mapped vm vm' t p f w src) (hft : vm'.ft = vm.ft) :
    Registered vm' where
  wf t' va e := by
    rw [h.spte]
    exact hr.wf t' va e
  mapped t' q hq hp := by
    rw [h.spte]
    rcases h.pte_cases t' q with ⟨⟨rfl, hqp⟩, -, -⟩ | hpte
    · have hqp : q = p := by
        have := h.aligned
        omega
      rw [hqp]
      exact he
    · rw [hpte] at hp
      exact hr.mapped t' q hq hp
  inTable t' va hk hlive := by
    rw [hft] at hk
    rw [h.procs] at hlive
    rw [h.spte]
    exact hr.inTable t' va hk hlive

theorem Registered.setProc {t : Nat} {s : Supdir} (hr : Registered vm) (hs : s.Registered)
    (hkeys : ∀ k ∈ keys vm.ft, k.1 ≠ t) : Registered (vm.setProc t ⟨pagedirCreate, s⟩) where
  wf _ _ _ he := wf_setProc hs he hr.wf
  mapped t' q hq hp := by
    rw [pte_setProc_create] at hp
    rw [spte_setProc]
    split at hp
    · cases hp
    · next hne =>
      rw [if_neg hne]
      exact hr.mapped t' q hq hp
  inTable t' va hk hlive := by
    have hne : t' ≠ t := hkeys _ hk
    rw [spte_setProc, if_neg hne]
    refine hr.inTable t' va hk ?_
    simpa [Vm.setProc, hne] using hlive

theorem Boot.registered (h : Boot vm) : Registered vm where
  wf := h.inv.wf
  mapped t p _ hp := by
    simp only [pte, h.procs] at hp
    cases hp
  inTable t va hk := by
    rw [h.keys] at hk
    cases hk

variable [LawfulFrameTable F]

variable {a : Alloc} {p t : Nat}

theorem Registered.obtainFrame {r : Option Nat} (hr : Registered vm)
    (he : (vm.spte t p).isSome = true) (h : obtainFrame a t p vm = .ok (r, vm')) :
    Registered vm' ∧ (vm'.spte t p).isSome = true := by
  rcases obtainFrame_ok h with ⟨f, rfl, hfresh, hft⟩ | ⟨-, hevict⟩
  · refine ⟨⟨fun t' va e => ?_, fun t' q => ?_, fun t' va hk hlive => ?_⟩, by rw [hfresh.spte, he]⟩
    · rw [hfresh.spte]
      exact hr.wf t' va e
    · rw [hfresh.spte, hfresh.pte]
      exact hr.mapped t' q
    · rw [hft] at hk
      rw [hfresh.procs] at hlive
      rw [hfresh.spte]
      rcases insert_keys hk with hkey | hk
      · cases hkey
        exact he
      · exact hr.inTable t' va hk hlive
  · obtain ⟨s, ft, hsel, hkey, hev, -⟩ := evictPage_ok hevict
    refine ⟨⟨hev.wf hr.wf, fun t' q hq hp => ?_, fun t' va hk hlive => ?_⟩,
      by rw [hev.spte_isSome, he]⟩
    · obtain ⟨-, hpte⟩ := hev.present hp
      rw [hpte] at hp
      rw [hev.spte_isSome]
      exact hr.mapped t' q hq hp
    · rw [hev.procs] at hlive
      rw [hev.spte_isSome]
      rcases evict_keys hsel hkey hk with hnew | hk
      · cases hnew
        exact he
      · exact hr.inTable t' va hk hlive

theorem Registered.frameLoaded (hr : Registered vm)
    (he : (vm.spte t p).isSome = true) (h : FrameLoaded a t p vm vm') : Registered vm' := by
  obtain ⟨f, vm₁, b, hobt, hload⟩ := h
  obtain ⟨hr₁, he₁⟩ := hr.obtainFrame he hobt
  obtain ⟨e, hse⟩ := Option.isSome_iff_exists.mp he₁
  obtain ⟨hmap, hft, -⟩ := loadPage_ok hse (hr₁.wf t p e hse) hload
  exact hr₁.mapped_page he₁ hmap hft

theorem Registered.setPinned (hr : Registered vm) : Registered (setPinned t p vm) := by
  unfold Vm.setPinned
  split
  · refine ⟨hr.wf, hr.mapped, fun t' va hk => hr.inTable t' va ?_⟩
    exact tryDown_keys (up_keys hk)
  · exact hr

theorem freeFrames_keys {pages : List Nat} {ft ft' : F} {k : Nat × Nat}
    (h : freeFrames a t pages ft = some ft') (hk : k ∈ keys ft') : k ∈ keys ft := by
  induction pages generalizing ft with
  | nil =>
    cases h
    exact hk
  | cons page pages ih =>
    unfold freeFrames at h
    split at h
    · next hfree => exact free_keys hfree (ih h)
    · cases h

theorem Registered.exitProc (hr : Registered vm)
    (h : exitProc a t vm = .ok vm') : Registered vm' := by
  obtain ⟨hx, pr, -, hfree⟩ := exitProc_ok h
  refine ⟨fun t' va e he => ?_, fun t' q hq hp => ?_, fun t' va hk hlive => ?_⟩
  · rw [hx.spte_other (hx.ne_of_spte he)] at he
    exact hr.wf t' va e he
  · have hne := hx.ne_of_present hp
    rw [hx.pte_other hne] at hp
    rw [hx.spte_other hne]
    exact hr.mapped t' q hq hp
  · have hne : t' ≠ t := fun ht => by
      rw [hx.procs, ht, Function.update_self] at hlive
      cases hlive
    rw [hx.procs, Function.update_of_ne hne] at hlive
    rw [hx.spte_other hne]
    exact hr.inTable t' va (freeFrames_keys hfree hk) hlive

theorem Registered.pageIn {addr : Nat} {stackPage : Bool} (hr : Registered vm)
    (hok : stackPage = true → (vm.spte t (addr / 4096 * 4096)).isSome = true)
    (h : pageIn a t addr stackPage vm = .ok vm') : Registered vm' := by
  rcases pageIn_ok h with ⟨-, -, hexit⟩ | ⟨hn, vm₁, hobt, hexit⟩ | ⟨hsp, f, vm₁, hobt, hgr⟩ |
    ⟨-, hs, vm₂, hload, rfl⟩
  · exact hr.exitProc hexit
  · have he : (vm.spte t (addr / 4096 * 4096)).isSome = true := by
      cases stackPage with
      | true => exact hok rfl
      | false => exact hn
    exact (hr.obtainFrame he hobt).1.exitProc hexit
  · obtain ⟨hr₁, he₁⟩ := hr.obtainFrame (hok hsp) hobt
    obtain ⟨hmap, -, hft⟩ := growStack_ok hgr
    exact hr₁.mapped_page he₁ hmap hft
  · exact (hr.frameLoaded hs hload).setPinned

theorem Registered.step {e : Event} (hr : Registered vm) (hok : vm.registers e = true)
    (h : Step vm e vm') : Registered vm' := by
  obtain ⟨hen, happ⟩ := h
  cases e with
  | load a t inode phs =>
    have hkeys : ∀ k ∈ keys vm.ft, k.1 ≠ t := by simpa [registers] using hok
    change startProcess a t inode phs vm = .ok vm' at happ
    rcases startProcess_ok happ with hexit | ⟨-, hload⟩
    · exact (hr.setProc (loadPhdrs_registered registered_create) hkeys).exitProc hexit
    · refine (hr.setProc (imageSupdir_registered inode phs) hkeys).frameLoaded ?_ hload
      rw [spte_setProc, if_pos rfl, imageSupdir, lookup_setPage, if_pos rfl]
      rfl
  | fault a t addr esp =>
    refine hr.pageIn (fun hsp => ?_) happ
    simpa [registers, pageInOf, hsp] using hok
  | validate a t pt esp allow =>
    change isPtValid a t pt esp allow vm = .ok vm' at happ
    unfold isPtValid at happ
    split at happ
    · exact hr.exitProc happ
    · next hpt =>
      split at happ
      · cases happ
        exact hr
      · next hp =>
        refine hr.pageIn (fun hsp => ?_) happ
        simpa [registers, pageInOf, hpt, hp, hsp] using hok
  | store t va b =>
    obtain ⟨hst, hft⟩ := storeByte_ok (show storeByte t va b vm = .ok vm' from happ)
    refine ⟨fun t' vb e => ?_, fun t' q hq hp => ?_, fun t' vb hk hlive => ?_⟩
    · rw [hst.spte]
      exact hr.wf t' vb e
    · rw [(hst.present t' q).1] at hp
      rw [hst.spte]
      exact hr.mapped t' q hq hp
    · rw [hft] at hk
      rw [hst.procs] at hlive
      rw [hst.spte]
      exact hr.inTable t' vb hk hlive
  | exit a t => exact hr.exitProc (show Vm.exitProc a t vm = .ok vm' from happ)

/-! ## `evict_page` and null entries -/

/-- `evict_page` reads through a null `spte` only if the page it chose has no entry. -/
theorem evictPage_nullSpte {new : Nat}
    (h : evictPage a t new vm = .error .nullSpte) :
    ∃ v p, (v, p) ∈ keys vm.ft ∧ (vm.procs v).isSome = true ∧ vm.spte v p = none := by
  unfold evictPage at h
  split at h
  · cases h
  · next s ft hsel =>
    simp only at h
    split at h
    · next cur pr hcur hpr =>
      refine ⟨_, _, select_mem hsel, by rw [hpr]; rfl, ?_⟩
      rw [spte_of_procs hpr]
      split at h
      · split at h
        · cases h
        · next c hout =>
          cases h
          unfold swapOut at hout
          split at hout
          · exact absurd hout (writeOut_ne_nullSpte cur pr _ _ vm)
          · split at hout
            · next hnone => exact hnone
            · split at hout
              · exact absurd hout (writeOut_ne_nullSpte cur pr _ _ vm)
              · cases hout
        · cases h
      · cases h
    · cases h

omit [LawfulFrameTable F] in
theorem exitProc_ne_nullSpte (a : Alloc) (t : Nat) (vm : Vm F) :
    exitProc a t vm ≠ .error .nullSpte := by
  unfold exitProc
  split
  · simp
  · split
    · simp
    · split <;> simp

omit [FrameTableOps F] [LawfulFrameTable F] in
theorem loadPage_ne_nullSpte (a : Alloc) (t p f : Nat) (vm : Vm F) :
    loadPage a t p f vm ≠ .error .nullSpte := by
  unfold loadPage
  split
  · simp
  · split
    · simp
    · split <;> simp

omit [FrameTableOps F] [LawfulFrameTable F] in
theorem growStack_ne_nullSpte (a : Alloc) (t p f : Nat) (vm : Vm F) :
    growStack a t p f vm ≠ .error .nullSpte := by
  unfold growStack
  split
  · simp
  · split <;> simp

theorem Registered.obtainFrame_ne_nullSpte (hr : Registered vm) (a : Alloc) (t p : Nat) :
    Vm.obtainFrame a t p vm ≠ .error .nullSpte := by
  intro h
  have hev : evictPage a t p vm = .error .nullSpte := by
    unfold Vm.obtainFrame getUserPage at h
    split at h
    · cases h
    · next hget =>
      split at hget
      · cases hget
      · cases hget
        exact h
  obtain ⟨v, q, hk, hlive, hnone⟩ := evictPage_nullSpte hev
  have := hr.inTable v q hk hlive
  rw [hnone] at this
  cases this

theorem Registered.pageIn_ne_nullSpte (hr : Registered vm) (a : Alloc) (t addr : Nat)
    (stackPage : Bool) : Vm.pageIn a t addr stackPage vm ≠ .error .nullSpte := by
  intro h
  unfold Vm.pageIn at h
  simp only at h
  split at h
  · cases h
  · split at h
    · exact exitProc_ne_nullSpte _ _ _ h
    · split at h
      · next hobt =>
        cases h
        exact hr.obtainFrame_ne_nullSpte _ _ _ hobt
      · exact exitProc_ne_nullSpte _ _ _ h
      · split at h
        · exact growStack_ne_nullSpte _ _ _ _ _ h
        · split at h
          · cases h
          · next hload =>
            cases h
            exact loadPage_ne_nullSpte _ _ _ _ _ hload

theorem Registered.startProcess_ne_nullSpte {t : Nat} (hr : Registered vm)
    (hkeys : ∀ k ∈ keys vm.ft, k.1 ≠ t) (a : Alloc) (inode : Inode) (phs : List Phdr) :
    startProcess a t inode phs vm ≠ .error .nullSpte := by
  intro h
  unfold startProcess setupStack at h
  split at h
  · split at h
    · next hobt =>
      cases h
      have hr₀ := hr.setProc (imageSupdir_registered inode phs) hkeys
      exact hr₀.obtainFrame_ne_nullSpte _ _ _ hobt
    · cases h
    · split at h
      · cases h
      · next hload =>
        cases h
        exact loadPage_ne_nullSpte _ _ _ _ _ hload
  · exact exitProc_ne_nullSpte _ _ _ h

theorem Registered.apply_ne_nullSpte {e : Event} (hr : Registered vm) (hok : vm.registers e = true) :
    vm.apply e ≠ .error .nullSpte := by
  cases e with
  | load a t inode phs =>
    exact hr.startProcess_ne_nullSpte (by simpa [registers] using hok) a inode phs
  | fault a t addr esp => exact hr.pageIn_ne_nullSpte a t addr _
  | validate a t pt esp allow =>
    show isPtValid a t pt esp allow vm ≠ _
    unfold isPtValid
    split
    · exact exitProc_ne_nullSpte _ _ _
    · split
      · simp
      · exact hr.pageIn_ne_nullSpte a t pt _
  | store t va b =>
    show storeByte t va b vm ≠ _
    unfold storeByte
    split <;> simp
  | exit a t => exact exitProc_ne_nullSpte a t vm

/-- **Where every evictable page has an entry.** In every run whose steps all meet `registers`, a page
of the frame table that is mapped has a supplemental entry, `evict_page` reads no null `spte`, and
`supdir_set_swap` finds the entry of the page that `evict_page` would choose. -/
theorem entries_registered {vm₀ : Vm F} {es : List Event} (hboot : Boot vm₀)
    (hrun : Runs Step (fun vm e => vm.registers e = true) vm₀ es vm) :
    (∀ t p, (t, p) ∈ keys vm.ft → (vm.pte t p).present = true → (vm.spte t p).isSome = true) ∧
    (∀ e, vm.registers e = true → vm.apply e ≠ .error .nullSpte) ∧
    ∀ v p pr sector, vm.victim = some (v, p) → vm.procs v = some pr →
      (supdirSetSwap pr.supdir p sector).1 = true := by
  have hr : Registered vm := Runs.invariant Registered.step hrun hboot.registered
  refine ⟨fun t p hk hp => hr.inTable t p hk (isSome_of_present hp),
    fun e hok => hr.apply_ne_nullSpte hok, fun v p pr sector hvic hpr => ?_⟩
  unfold victim at hvic
  split at hvic
  · next s ft hsel =>
    cases hvic
    have hs := hr.inTable _ _ (select_mem hsel) (by rw [hpr]; rfl)
    rwa [spte_of_procs hpr] at hs
  · cases hvic

/-- A process whose text has been brought in. -/
def textFetched : List Event :=
  [loadText 0xc0100000, .fault ⟨true, true⟩ 0xc0100000 0x8048000 0xbffffff0]

theorem entries_registered_text :
    (∀ t p, (t, p) ∈ keys (textFetched.foldl next (bootWith 2 16 textDisk)).ft →
      ((textFetched.foldl next (bootWith 2 16 textDisk)).pte t p).present = true →
      ((textFetched.foldl next (bootWith 2 16 textDisk)).spte t p).isSome = true) ∧
    (∀ e, (textFetched.foldl next (bootWith 2 16 textDisk)).registers e = true →
      (textFetched.foldl next (bootWith 2 16 textDisk)).apply e ≠ .error .nullSpte) ∧
    ∀ v p pr sector, (textFetched.foldl next (bootWith 2 16 textDisk)).victim = some (v, p) →
      (textFetched.foldl next (bootWith 2 16 textDisk)).procs v = some pr →
      (supdirSetSwap pr.supdir p sector).1 = true :=
  entries_registered (boot_bootWith 2 16 textDisk)
    (runs_of_allowed (fun vm e => vm.registers e) (fun _ _ h => h) (by decide +kernel))

/-- A process grows its stack by a page, and then has both frames in use. -/
def stackGrown : List Event :=
  [loadText 0xc0100000, .fault ⟨true, true⟩ 0xc0100000 0xbfffeff0 0xbfffeff0]

/-- The grown page is mapped and in the frame table without an entry, and the next fault, which has
to evict it, crashes the kernel. -/
theorem grown_page_unregistered :
    Runs Step (fun _ _ => True) (bootWith 2 16 textDisk) stackGrown
      (stackGrown.foldl next (bootWith 2 16 textDisk)) ∧
    (0xc0100000, 0xbfffe000) ∈ keys (stackGrown.foldl next (bootWith 2 16 textDisk)).ft ∧
    ((stackGrown.foldl next (bootWith 2 16 textDisk)).pte 0xc0100000 0xbfffe000).present = true ∧
    (stackGrown.foldl next (bootWith 2 16 textDisk)).spte 0xc0100000 0xbfffe000 = none ∧
    (stackGrown.foldl next (bootWith 2 16 textDisk)).enabled
      (.fault ⟨true, true⟩ 0xc0100000 0x8048000 0xbffffff0) = true ∧
    isNullSpte ((stackGrown.foldl next (bootWith 2 16 textDisk)).apply
      (.fault ⟨true, true⟩ 0xc0100000 0x8048000 0xbffffff0)) = true := by
  refine ⟨runs_of_allowed (fun _ _ => true) (fun _ _ _ => trivial) (by decide +kernel),
    by decide +kernel, by decide +kernel, by decide +kernel, by decide +kernel, by decide +kernel⟩

end Vm

end Pintos
