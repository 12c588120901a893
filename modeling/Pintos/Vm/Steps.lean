import Pintos.Lib.Runs
import Pintos.Vm.Consistent

/-!
# Steps that keep the invariant

Which events evict a page, which make `page_in` grow the stack, and what a step does to the
invariant and to the values of pages when its eviction, if it has one, takes out a page that is
in memory and finds a slot:

* `Outcome`: a step brings a page in, grows the stack, ends a process, starts one, stores a byte
  or does nothing, and says what that does to the values;
* `step_outcome`: every such step keeps the invariant and has one of these outcomes.
-/

namespace Pintos

open Lib

/-- The process whose event it is. -/
def Event.thread : Event → Nat
  | .load _ t _ _ => t
  | .fault _ t _ _ => t
  | .validate _ t _ _ _ => t
  | .store t _ _ => t
  | .exit _ t => t

/-- Neither a process starts nor a byte is stored. -/
def Event.quiet : Event → Bool
  | .load .. => false
  | .store .. => false
  | _ => true

namespace Vm

variable {F : Type} {vm vm' : Vm F}

/-- The call of `page_in` that an event makes: process, page and `stack_page`. -/
def pageInOf (vm : Vm F) : Event → Option (Alloc × Nat × Nat × Bool)
  | .fault a t addr esp => some (a, t, addr / 4096 * 4096, isStackPage addr esp)
  | .validate a t pt esp allow =>
    if pt = 0 ∨ physBase ≤ pt then none
    else if (vm.pte t pt).present then none
    else some (a, t, pt / 4096 * 4096, allow && isStackPage pt esp)
  | _ => none

theorem pageInOf_aligned {e : Event} {a : Alloc} {t p : Nat} {stackPage : Bool}
    (h : vm.pageInOf e = some (a, t, p, stackPage)) : p % 4096 = 0 := by
  unfold pageInOf at h
  split at h
  · cases h
    exact Nat.mul_mod_left _ _
  · split at h
    · cases h
    · split at h
      · cases h
      · cases h
        exact Nat.mul_mod_left _ _
  · cases h

theorem quiet_of_pageInOf {e : Event} {c : Alloc × Nat × Nat × Bool}
    (h : vm.pageInOf e = some c) : e.quiet = true := by
  cases e with
  | fault => rfl
  | validate => rfl
  | load | store | exit => simp [pageInOf] at h

/-- The event calls `get_user_page`. -/
def needsFrame (vm : Vm F) (e : Event) : Bool :=
  match e with
  | .load _ _ inode phs => (loadPhdrs inode phs supdirCreate).1
  | e =>
    match vm.pageInOf e with
    | some (_, t, p, stackPage) => stackPage || (vm.spte t p).isSome
    | none => false

/-- The event calls `evict_page`: there is no free page. -/
def evicts (vm : Vm F) (e : Event) : Bool :=
  vm.needsFrame e && (pallocGetPage vm.userPool).1.isNone

/-- The event makes `page_in` grow the stack at a page that has an entry. -/
def growsOverEntry (vm : Vm F) (e : Event) : Bool :=
  match vm.pageInOf e with
  | some (_, t, p, stackPage) => stackPage && (vm.spte t p).isSome
  | none => false

theorem inv_ft (hi : Inv vm) (ft : F) : Inv { vm with ft := ft } :=
  ⟨hi.used, hi.inj, hi.wf, hi.held, hi.disj, hi.clean⟩

theorem keeps_ft {X : Nat → Nat → Prop} {vm₁ : Vm F} (h : Keeps X vm vm₁) (ft : F) :
    Keeps X vm { vm₁ with ft := ft } :=
  ⟨h.fsDev, h.procs, h.entry, h.value, h.grown, h.zero⟩

section Table

variable [FrameTableOps F]

open FrameTableOps

/-- The process and the page that `evict_page` would choose. -/
def victim (vm : Vm F) : Option (Nat × Nat) :=
  match select vm.ft with
  | some (s, ft) => some (thread ft s.chosen, vaddr ft s.chosen)
  | none => none

/-- The page that `evict_page` would choose is in memory, and `swap_write` finds a slot if the page is
written out. -/
def victimSwaps (vm : Vm F) : Bool :=
  match vm.victim with
  | some (v, p) => (vm.pte v p).present && (!vm.writesOut v p || vm.hasSlot)
  | none => true

/-- An eviction takes out a page that is in memory, and finds a slot for it if it needs one. -/
def swapsOut (vm : Vm F) (e : Event) : Bool := !vm.evicts e || vm.victimSwaps

theorem victimSwaps_iff : vm.victimSwaps = true ↔ ∀ {v p}, vm.victim = some (v, p) →
    (vm.pte v p).present = true ∧ (vm.writesOut v p = true → vm.hasSlot = true) := by
  unfold victimSwaps
  cases vm.victim with
  | none => simp
  | some vp =>
    have hslot : (!vm.writesOut vp.1 vp.2 || vm.hasSlot) = true ↔
        (vm.writesOut vp.1 vp.2 = true → vm.hasSlot = true) := by
      cases vm.writesOut vp.1 vp.2 <;> simp
    rw [Bool.and_eq_true, hslot]
    exact ⟨fun h v p hv => by cases hv; exact h, fun h => h rfl⟩

variable {a : Alloc} {e : Event} {p t t' : Nat} {r : Option Nat}

theorem evictPage_victim {new : Nat}
    (h : evictPage a t new vm = .ok (r, vm')) :
    ∃ v p, vm.victim = some (v, p) ∧ Evicted vm vm' v p ∧
      r = if (vm.pte v p).present then some (vm.pte v p).frame else none := by
  obtain ⟨s, ft, hsel, -, hev, hr⟩ := evictPage_ok h
  refine ⟨_, _, ?_, hev, hr⟩
  unfold victim
  rw [hsel]

/-- A frame from `get_user_page` or `evict_page` is mapped nowhere, and no page with an entry has
lost its value for it. -/
theorem obtainFrame_kept (hi : Inv vm)
    (hok : (pallocGetPage vm.userPool).1 = none → vm.victimSwaps = true)
    (h : obtainFrame a t p vm = .ok (r, vm')) :
    ∃ f, r = some f ∧ Inv vm' ∧ FreeFrame vm' f ∧ ∀ X, Keeps X vm vm' := by
  rcases obtainFrame_ok h with ⟨f, rfl, hfresh, -⟩ | ⟨hnone, hevict⟩
  · exact ⟨f, rfl, hfresh.inv hi, hfresh.freeFrame hi, fun X => hfresh.keeps hi⟩
  · obtain ⟨v, q, hvic, hev, rfl⟩ := evictPage_victim hevict
    obtain ⟨hp, hslot⟩ := victimSwaps_iff.mp (hok hnone) hvic
    refine ⟨(vm.pte v q).frame, by rw [if_pos hp], hev.inv hi hslot, hev.freeFrame hi hp, ?_⟩
    exact fun X => hev.keeps hi hslot hp

theorem FrameLoaded.kept (hi : Inv vm)
    (hok : (pallocGetPage vm.userPool).1 = none → vm.victimSwaps = true)
    (he : (vm.spte t p).isSome = true) (h : FrameLoaded a t p vm vm') :
    Inv vm' ∧ (∀ X, Keeps X vm vm') ∧ (a.pageTable = true → (vm'.pte t p).present = true) := by
  obtain ⟨f, vm₁, b, hobt, hload⟩ := h
  obtain ⟨f', hf', hi₁, hfree, hk₁⟩ := obtainFrame_kept hi hok hobt
  cases hf'
  have he₁ : (vm₁.spte t p).isSome = true := by rw [(hk₁ fun _ _ => False).spte_isSome, he]
  obtain ⟨e, he₁⟩ := Option.isSome_iff_exists.mp he₁
  obtain ⟨hmap, -, hpres⟩ := loadPage_ok he₁ (hi₁.wf t p e he₁) hload
  have hsrc : ∀ e', vm₁.spte t p = some e' →
      e.writable = e'.writable ∧
        backing vm₁.fsDev vm₁.swapDev e = backing vm₁.fsDev vm₁.swapDev e' := by
    intro e' he'
    rw [he₁] at he'
    cases he'
    exact ⟨rfl, rfl⟩
  refine ⟨hmap.inv hi₁ hfree hsrc, fun X => (hk₁ X).trans ?_, hpres⟩
  exact hmap.keeps hi₁ hfree hsrc fun hn => by rw [he₁] at hn; cases hn

/-- The page of zeros that stack growth maps. -/
def zeroPage : PageVal := ⟨fun _ => 0, true⟩

/-- A page without an entry that `page_in` grows: the other pages keep their values, and this one
is a page of zeros or there was no memory for its page table. -/
theorem growStack_kept {f : Nat} {vm₁ : Vm F} {X : Nat → Nat → Prop} (hi : Inv vm)
    (hok : (pallocGetPage vm.userPool).1 = none → vm.victimSwaps = true)
    (he : vm.spte t p = none) (hobt : obtainFrame a t p vm = .ok (some f, vm₁))
    (h : growStack a t p f vm₁ = .ok vm') (hX : X t p) :
    Inv vm' ∧ Keeps X vm vm' ∧
      ((vm'.pte t p).present = true → vm'.value t p = some zeroPage ∨
        (vm.pte t p).present = true) ∧
      ((vm'.pte t p).present = false → vm.pte t p = Pte.zero → vm'.pte t p = Pte.zero) := by
  obtain ⟨f', hf', hi₁, hfree, hk₁⟩ := obtainFrame_kept hi hok hobt
  cases hf'
  have he₁ : vm₁.spte t p = none := ((hk₁ X).spte_none t p).mpr he
  obtain ⟨hmap, -⟩ := growStack_ok h
  have hsrc : ∀ e, vm₁.spte t p = some e →
      true = e.writable ∧ (fun _ => 0) = backing vm₁.fsDev vm₁.swapDev e := by
    intro e he'
    rw [he₁] at he'
    cases he'
  refine ⟨hmap.inv hi₁ hfree hsrc, (hk₁ X).trans (hmap.keeps hi₁ hfree hsrc fun _ => hX), ?_, ?_⟩
  · intro hp
    rcases hmap.pte_cases t p with ⟨-, hpte, -⟩ | hpte
    · left
      rw [value_present hp, hpte, hmap.mem, shown_write_self]
      rfl
    · right
      rw [hpte] at hp
      exact ((hk₁ fun _ _ => False).grown t p hmap.aligned he id hp).1
  · intro hp hz
    rcases hmap.pte_cases t p with ⟨-, hpte, -⟩ | hpte
    · rw [hpte] at hp
      cases hp
    · rw [hpte]
      exact ((hk₁ fun _ _ => False).zero t p hmap.aligned he id).mpr hz

/-- What a step has done. -/
inductive Outcome (vm : Vm F) : Event → Vm F → Prop
  /-- `page_in` has brought in a page with an entry. -/
  | pagedIn {e : Event} {vm' : Vm F} {a : Alloc} {t p : Nat} :
      vm.pageInOf e = some (a, t, p, false) → (vm.spte t p).isSome = true →
      (∀ X, Keeps X vm vm') → (a.pageTable = true → (vm'.pte t p).present = true) →
      Outcome vm e vm'
  /-- `page_in` has grown the stack by a page without an entry. -/
  | grown {e : Event} {vm' : Vm F} {a : Alloc} {t p : Nat} :
      vm.pageInOf e = some (a, t, p, true) → vm.spte t p = none →
      Keeps (fun t' q => t' = t ∧ q = p) vm vm' →
      ((vm'.pte t p).present = true → vm'.value t p = some zeroPage ∨
        (vm.pte t p).present = true) →
      ((vm'.pte t p).present = false → vm.pte t p = Pte.zero → vm'.pte t p = Pte.zero) →
      Outcome vm e vm'
  /-- A process has ended. -/
  | exited {e : Event} {vm' : Vm F} {t : Nat} :
      e.quiet = true →
      (∀ a t' p, vm.pageInOf e = some (a, t', p, false) → vm.spte t' p = none) →
      (∀ a t' p, vm.pageInOf e ≠ some (a, t', p, true)) →
      Exited vm vm' t → Outcome vm e vm'
  /-- A process has started, and its stack page has been brought in. -/
  | started {vm' : Vm F} {a : Alloc} {t : Nat} {inode : Inode} {phs : List Phdr} :
      vm.procs t = none →
      (∀ X, Keeps X (vm.setProc t ⟨pagedirCreate, imageSupdir inode phs⟩) vm') →
      Outcome vm (.load a t inode phs) vm'
  /-- A process has failed to load. -/
  | failed {vm' : Vm F} {a : Alloc} {t : Nat} {inode : Inode} {phs : List Phdr} {s : Supdir} :
      vm.procs t = none → Exited (vm.setProc t ⟨pagedirCreate, s⟩) vm' t →
      Inv (vm.setProc t ⟨pagedirCreate, s⟩) → Outcome vm (.load a t inode phs) vm'
  | stored {vm' : Vm F} {t va : Nat} {b : UInt8} :
      (vm.pte t va).present = true → Stored vm vm' t va b → Outcome vm (.store t va b) vm'
  /-- A system call has found its pointer mapped. -/
  | nothing {e : Event} : e.quiet = true → vm.pageInOf e = none → Outcome vm e vm

theorem imageSupdir_registered (inode : Inode) (phs : List Phdr) :
    (imageSupdir inode phs).Registered := by
  refine (loadPhdrs_registered registered_create).setPage ?_
  refine ⟨⟨by decide, by decide, ?_, ?_, fun _ => rfl⟩, by decide, ?_⟩ <;> simp

theorem pageIn_outcome {addr : Nat} {stackPage : Bool} (hi : Inv vm)
    (hcall : vm.pageInOf e = some (a, t, addr / 4096 * 4096, stackPage))
    (hneed : vm.needsFrame e = (stackPage || (vm.spte t (addr / 4096 * 4096)).isSome))
    (hswap : vm.swapsOut e = true) (hgrow : vm.growsOverEntry e = false)
    (h : pageIn a t addr stackPage vm = .ok vm') : Inv vm' ∧ Outcome vm e vm' := by
  have hok : vm.needsFrame e = true → (pallocGetPage vm.userPool).1 = none →
      vm.victimSwaps = true := by
    intro hn hnone
    unfold swapsOut evicts at hswap
    rw [hn, hnone] at hswap
    simpa using hswap
  unfold growsOverEntry at hgrow
  rw [hcall] at hgrow
  simp only at hgrow
  rcases pageIn_ok h with ⟨rfl, hn, hexit⟩ | ⟨hn, vm₁, hobt, -⟩ | ⟨rfl, f, vm₁, hobt, hgr⟩ |
    ⟨rfl, hs, vm₂, hload, rfl⟩
  · obtain ⟨hex, -⟩ := exitProc_ok hexit
    refine ⟨hex.inv hi, .exited (quiet_of_pageInOf hcall) (fun a' t' p hc => ?_)
      (fun a' t' p hc => ?_) hex⟩
    · rw [hcall] at hc
      cases hc
      exact hn
    · rw [hcall] at hc
      cases hc
  · -- With a free page or a mapped victim `evict_page` does not return null.
    obtain ⟨f, hf, -⟩ := obtainFrame_kept hi (hok (hneed.trans hn)) hobt
    cases hf
  · have hnone : vm.spte t (addr / 4096 * 4096) = none := by simpa using hgrow
    obtain ⟨hinv, hk, hval, habs⟩ :=
      growStack_kept hi (hok (by rw [hneed]; rfl)) hnone hobt hgr
        (X := fun t' q => t' = t ∧ q = addr / 4096 * 4096) ⟨rfl, rfl⟩
    exact ⟨hinv, .grown hcall hnone hk hval habs⟩
  · obtain ⟨hinv, hk, hpres⟩ := hload.kept hi (hok (by rw [hneed, hs]; rfl)) hs
    rw [setPinned_eq]
    exact ⟨inv_ft hinv _, .pagedIn hcall hs (fun X => keeps_ft (hk X) _) hpres⟩

theorem victim_ne {v : Nat} (ht : vm.procs t = none) (hm : vm.victimSwaps = true)
    (hv : vm.victim = some (v, p)) : v ≠ t := by
  rintro rfl
  have hlive := isSome_of_present (victimSwaps_iff.mp hm hv).1
  rw [ht] at hlive
  cases hlive

theorem victimSwaps_setProc {s : Supdir} (ht : vm.procs t = none)
    (hm : vm.victimSwaps = true) : (vm.setProc t ⟨pagedirCreate, s⟩).victimSwaps = true := by
  refine victimSwaps_iff.mpr fun {v q} (hv : vm.victim = some (v, q)) => ?_
  have hne := victim_ne ht hm hv
  have hout : (vm.setProc t ⟨pagedirCreate, s⟩).writesOut v q = vm.writesOut v q := by
    simp only [writesOut, pte_setProc_create, spte_setProc, if_neg hne]
  rw [hout, pte_setProc_create, if_neg hne]
  exact victimSwaps_iff.mp hm hv

/-- A process that starts: its pages are what `load` registered, and bringing in the stack page
changes no value. -/
theorem startProcess_outcome {inode : Inode} {phs : List Phdr} (hi : Inv vm)
    (ht : vm.procs t = none) (hswap : vm.swapsOut (.load a t inode phs) = true)
    (h : startProcess a t inode phs vm = .ok vm') :
    Inv vm' ∧ Outcome vm (.load a t inode phs) vm' := by
  rcases startProcess_ok h with hexit | ⟨hload, hfr⟩
  · have hi₀ : Inv (vm.setProc t ⟨pagedirCreate, (loadPhdrs inode phs supdirCreate).2⟩) :=
      inv_setProc hi (loadPhdrs_registered registered_create)
    obtain ⟨hex, -⟩ := exitProc_ok hexit
    exact ⟨hex.inv hi₀, .failed ht hex hi₀⟩
  · have hi₀ : Inv (vm.setProc t ⟨pagedirCreate, imageSupdir inode phs⟩) :=
      inv_setProc hi (imageSupdir_registered inode phs)
    have hok : (pallocGetPage vm.userPool).1 = none →
        (vm.setProc t ⟨pagedirCreate, imageSupdir inode phs⟩).victimSwaps = true := by
      intro hnone
      refine victimSwaps_setProc ht ?_
      simpa [swapsOut, evicts, needsFrame, hload, hnone] using hswap
    have hs : ((vm.setProc t ⟨pagedirCreate, imageSupdir inode phs⟩).spte t stackAddr).isSome := by
      rw [spte_setProc, if_pos rfl, imageSupdir, lookup_setPage, if_pos rfl]
      rfl
    obtain ⟨hinv, hk, -⟩ := hfr.kept hi₀ hok hs
    exact ⟨hinv, .started ht hk⟩

/-- Every step whose eviction takes out a page in memory and finds a slot, and that does not grow
the stack over an entry, keeps the invariant. -/
theorem step_outcome (hi : Inv vm) (hswap : vm.swapsOut e = true)
    (hgrow : vm.growsOverEntry e = false) (h : Step vm e vm') : Inv vm' ∧ Outcome vm e vm' := by
  obtain ⟨hen, happ⟩ := h
  cases e with
  | load a t inode phs =>
    exact startProcess_outcome hi (by simpa [enabled] using hen) hswap happ
  | fault a t addr esp => exact pageIn_outcome hi rfl rfl hswap hgrow happ
  | validate a t pt esp allow =>
    change isPtValid a t pt esp allow vm = .ok vm' at happ
    unfold isPtValid at happ
    split at happ
    · next hpt =>
      have hcall : vm.pageInOf (.validate a t pt esp allow) = none := if_pos hpt
      obtain ⟨hex, -⟩ := exitProc_ok happ
      refine ⟨hex.inv hi, .exited rfl (fun a' t' p hc => ?_) (fun a' t' p hc => ?_) hex⟩
      all_goals
        rw [hcall] at hc
        cases hc
    · next hpt =>
      split at happ
      · next hp =>
        cases happ
        exact ⟨hi, .nothing rfl ((if_neg hpt).trans (if_pos hp))⟩
      · next hp =>
        have hcall : vm.pageInOf (.validate a t pt esp allow) =
            some (a, t, pt / 4096 * 4096, allow && isStackPage pt esp) :=
          (if_neg hpt).trans (if_neg hp)
        refine pageIn_outcome hi hcall ?_ hswap hgrow happ
        simp only [needsFrame, hcall]
  | store t va b =>
    have hp : (vm.pte t va).present = true := by
      simp only [enabled, Bool.and_eq_true] at hen
      exact hen.1.1
    change storeByte t va b vm = .ok vm' at happ
    obtain ⟨hst, -⟩ := storeByte_ok happ
    exact ⟨hst.inv hi hp, .stored hp hst⟩
  | exit a t =>
    change exitProc a t vm = .ok vm' at happ
    obtain ⟨hex, -⟩ := exitProc_ok happ
    refine ⟨hex.inv hi, .exited rfl (fun a' t' p hc => ?_) (fun a' t' p hc => ?_) hex⟩
    all_goals simp [pageInOf] at hc

/-! ## A step starts or ends only the process of its event -/

theorem obtainFrame_procs
    (h : obtainFrame a t p vm = .ok (r, vm')) (t' : Nat) :
    (vm'.procs t').isSome = (vm.procs t').isSome := by
  rcases obtainFrame_ok h with ⟨f, -, hfresh, -⟩ | ⟨-, hevict⟩
  · rw [hfresh.procs]
  · obtain ⟨s, ft, -, -, hev, -⟩ := evictPage_ok hevict
    exact hev.procs t'

theorem exitProc_procs (ht : t' ≠ t) (h : exitProc a t vm = .ok vm') :
    (vm'.procs t').isSome = (vm.procs t').isSome := by
  rw [(exitProc_ok h).1.procs, Function.update_of_ne ht]

theorem FrameLoaded.procs (h : FrameLoaded a t p vm vm') (t' : Nat) :
    (vm'.procs t').isSome = (vm.procs t').isSome := by
  obtain ⟨f, vm₁, b, hobt, hload⟩ := h
  rw [← obtainFrame_procs hobt]
  exact loadPage_procs hload t'

theorem pageIn_procs {addr : Nat} {stackPage : Bool} (ht : t' ≠ t)
    (h : pageIn a t addr stackPage vm = .ok vm') :
    (vm'.procs t').isSome = (vm.procs t').isSome := by
  rcases pageIn_ok h with ⟨-, -, hexit⟩ | ⟨-, vm₁, hobt, hexit⟩ | ⟨-, f, vm₁, hobt, hgr⟩ |
    ⟨-, -, vm₂, hload, rfl⟩
  · exact exitProc_procs ht hexit
  · rw [exitProc_procs ht hexit, obtainFrame_procs hobt]
  · rw [(growStack_ok hgr).1.procs, obtainFrame_procs hobt]
  · rw [setPinned_eq]
    exact hload.procs t'

theorem Step.procs_other (h : Step vm e vm') (ht : t' ≠ e.thread) :
    (vm'.procs t').isSome = (vm.procs t').isSome := by
  obtain ⟨-, happ⟩ := h
  cases e with
  | load a t inode phs =>
    change t' ≠ t at ht
    change startProcess a t inode phs vm = .ok vm' at happ
    rcases startProcess_ok happ with hexit | ⟨-, hload⟩
    · rw [exitProc_procs ht hexit]
      simp [setProc, ht]
    · rw [hload.procs]
      simp [setProc, ht]
  | fault a t addr esp => exact pageIn_procs ht happ
  | validate a t pt esp allow =>
    change isPtValid a t pt esp allow vm = .ok vm' at happ
    unfold isPtValid at happ
    split at happ
    · exact exitProc_procs ht happ
    · split at happ
      · cases happ
        rfl
      · exact pageIn_procs ht happ
  | store t va b =>
    change storeByte t va b vm = .ok vm' at happ
    exact (storeByte_ok happ).1.procs t'
  | exit a t => exact exitProc_procs ht (show exitProc a t vm = .ok vm' from happ)

theorem procs_of_run {P : Vm F → Event → Prop} {es : List Event}
    (h : Runs Step P vm es vm') (hes : ∀ e ∈ es, e.thread = t) (ht : t' ≠ t)
    (hnone : vm.procs t' = none) : vm'.procs t' = none := by
  induction h with
  | nil s => exact hnone
  | @cons s s' s'' e es _ hstep _ ih =>
    refine ih (fun e' he' => hes e' (List.mem_cons_of_mem _ he')) ?_
    have hne : t' ≠ e.thread := by rwa [hes e List.mem_cons_self]
    have := hstep.procs_other hne
    rw [hnone] at this
    simpa using this

theorem Boot.inv (h : Boot vm) : Inv vm := by
  have hpte : ∀ t va, vm.pte t va = Pte.zero := fun t va => by
    unfold pte
    rw [h.procs]
  have hspte : ∀ t va, vm.spte t va = none := fun t va => by
    unfold spte
    rw [h.procs]
  exact
    { used := fun t va hp => by rw [hpte] at hp; cases hp
      inj := fun t va t' va' hp => by rw [hpte] at hp; cases hp
      wf := fun t va e he => by rw [hspte] at he; cases he
      held := fun t va e he => by rw [hspte] at he; cases he
      disj := fun t va e t' va' e' he => by rw [hspte] at he; cases he
      clean := fun t p e he => by rw [hspte] at he; cases he }

/-! ## Running the machine -/

/-- The state after an event that does not crash. -/
def next (vm : Vm F) (e : Event) : Vm F :=
  match vm.apply e with
  | .ok vm' => vm'
  | .error _ => vm

/-- The events can happen one after another, each meeting `ok`, and none crashes. -/
def allowed (ok : Vm F → Event → Bool) : Vm F → List Event → Bool
  | _, [] => true
  | vm, e :: es => ok vm e && vm.enabled e && (vm.apply e).isOk && allowed ok (vm.next e) es

theorem step_next (hen : vm.enabled e = true) (h : (vm.apply e).isOk = true) :
    Step vm e (vm.next e) := by
  refine ⟨hen, ?_⟩
  unfold next
  cases happ : vm.apply e with
  | ok vm' => rfl
  | error c =>
    rw [happ] at h
    cases h

theorem runs_of_allowed {P : Vm F → Event → Prop} (ok : Vm F → Event → Bool)
    (hok : ∀ vm e, ok vm e = true → P vm e) {vm : Vm F} {es : List Event}
    (h : allowed ok vm es = true) : Runs Step P vm es (es.foldl next vm) := by
  induction es generalizing vm with
  | nil => exact .nil vm
  | cons e es ih =>
    simp only [allowed, Bool.and_eq_true] at h
    obtain ⟨⟨⟨hp, hen⟩, hisOk⟩, hrest⟩ := h
    exact .cons (hok vm e hp) (step_next hen hisOk) (ih hrest)

end Table

/-- A machine that has booted with a user pool of `frames` pages, `sectors` sectors of swap space
and the file system `fsDev`. -/
def bootWith (frames sectors : Nat) (fsDev : Block) : Vm FrameTable where
  procs _ := none
  ft := frameTableInit
  userPool := ⟨0xc0400000, bitmapCreate frames, by decide, by decide⟩
  swapTable := bitmapCreate sectors
  mem _ := 0
  swapDev := ⟨sectors, fun _ _ => 0⟩
  fsDev := fsDev

/-- An executable with one page of text: 4096 file bytes at 0x8048000, read-only. -/
def textPhdr : Phdr := ⟨.load, 0, 0x8048000, 4096, 4096, false⟩

/-- The file system that holds it, from sector 0 on. -/
def textDisk : Block := ⟨8, fun _ _ => 0x90⟩

/-- A thread loads it, and all allocations succeed. -/
def loadText (t : Nat) : Event := .load ⟨true, true⟩ t ⟨0, 4096⟩ [textPhdr]

theorem boot_bootWith (frames sectors : Nat) (fsDev : Block) : Boot (bootWith frames sectors fsDev) :=
  ⟨fun _ => rfl, rfl, fun i => bitmapTest_create sectors i⟩

end Vm

end Pintos
