import Pintos.Vm.Steps

/-!
# Stack growth and the pages a process already has

`page_fault` and `is_pt_valid` call an address a stack address when it is not more than 32 bytes
below `esp`, and `page_in` then maps a page of zeros without looking whether the process already has
a page there. So that a run can be asked what a page last was, it carries what each process was last
*seen* to have (`Observed`).
-/

namespace Pintos

open Lib

namespace Vm

variable {F : Type} {vm vm' : Vm F}

/-- A machine, and the contents and writability that each page of each process was last seen to have:
in memory, or, before it was first touched, where its entry says. -/
structure Observed (F : Type) where
  vm : Vm F
  seen : Nat → Nat → Option PageVal

/-- What is known of the pages once `vm` is reached. -/
def observe (vm : Vm F) (seen : Nat → Nat → Option PageVal) (t p : Nat) : Option PageVal :=
  if (vm.procs t).isNone then none
  else if (vm.pte t p).present then vm.value t p
  else (seen t p).or (vm.value t p)

/-- The process has, or had, page `p`: there is an entry for it or it was mapped before. -/
def had (vm : Vm F) (t p : Nat) : Bool := (vm.spte t p).isSome || vm.pte t p != Pte.zero

/-- `page_in` is called for a stack page only if the process never had the page, and for a page the
process had only if it has an entry. -/
def growsFresh (vm : Vm F) (e : Event) : Bool :=
  match vm.pageInOf e with
  | some (_, t, p, stackPage) => !vm.had t p || (!stackPage && (vm.spte t p).isSome)
  | none => true

/-- What a run knows about the pages is true. -/
structure Recalls (o : Observed F) : Prop where
  inv : Inv o.vm
  dead : ∀ t p, o.vm.procs t = none → o.seen t p = none
  entry : ∀ t p, (o.vm.spte t p).isSome = true → o.seen t p = o.vm.value t p
  fresh : ∀ t p, p % 4096 = 0 → o.vm.spte t p = none → o.vm.pte t p = Pte.zero → o.seen t p = none

theorem growsOverEntry_of_growsFresh {e : Event} (h : vm.growsFresh e = true) :
    vm.growsOverEntry e = false := by
  unfold growsFresh at h
  unfold growsOverEntry
  split
  · next a t p stackPage hc =>
    rw [hc] at h
    cases stackPage with
    | false => rfl
    | true =>
      have hnew : vm.spte t p = none ∧ vm.pte t p = Pte.zero := by simpa [had] using h
      rw [hnew.1]
      rfl
  · rfl

/-- The two facts that an observation has to preserve, for a page whose process is alive. -/
theorem recalls_observe {seen : Nat → Nat → Option PageVal} (hi : Inv vm')
    (hentry : ∀ t p, (vm'.spte t p).isSome = true → (vm'.pte t p).present = false →
      seen t p = none ∨ seen t p = vm'.value t p)
    (hfresh : ∀ t p, p % 4096 = 0 → (vm'.procs t).isSome = true → vm'.spte t p = none →
      vm'.pte t p = Pte.zero → seen t p = none) :
    Recalls ⟨vm', observe vm' seen⟩ where
  inv := hi
  dead t p ht := by
    show observe vm' seen t p = none
    unfold observe
    rw [if_pos (by rw [ht]; rfl)]
  entry t p he := by
    show observe vm' seen t p = vm'.value t p
    have hlive : (vm'.procs t).isNone = false := by
      unfold spte at he
      cases hpr : vm'.procs t with
      | none => rw [hpr] at he; cases he
      | some pr => rfl
    unfold observe
    rw [hlive]
    simp only [Bool.false_eq_true, if_false]
    split
    · rfl
    · next hp =>
      rcases hentry t p he (by simpa using hp) with hn | hv
      · rw [hn, Option.none_or]
      · rw [hv, Option.or_self]
  fresh t p hal hs hz := by
    show observe vm' seen t p = none
    have hp : (vm'.pte t p).present = false := by rw [hz]; rfl
    unfold observe
    cases hlive : vm'.procs t with
    | none => rfl
    | some pr =>
      have hseen := hfresh t p hal (by rw [hlive]; rfl) hs hz
      simp [hp, hseen, value_absent hp, hs]

section Steps

variable [FrameTableOps F]

/-- A step, with what is seen after it. -/
def ObsStep (o : Observed F) (e : Event) (o' : Observed F) : Prop :=
  Step o.vm e o'.vm ∧ o'.seen = observe o'.vm o.seen

/-- The steps in which stack growth does no harm: those that `growsFresh` allows, with an eviction,
if any, of a page in memory, for which there is a slot. -/
def FreshGrowth (o : Observed F) (e : Event) : Prop :=
  o.vm.swapsOut e = true ∧ o.vm.growsFresh e = true

theorem Recalls.step {o o' : Observed F} {e : Event} (hr : Recalls o) (hok : FreshGrowth o e)
    (h : ObsStep o e o') : Recalls o' := by
  obtain ⟨vm, seen⟩ := o
  obtain ⟨vm', seen'⟩ := o'
  obtain ⟨hstep, hseen⟩ := h
  simp only at hseen hstep
  subst hseen
  obtain ⟨hi', hout⟩ := step_outcome hr.inv hok.1 (growsOverEntry_of_growsFresh hok.2) hstep
  cases hout with
  | pagedIn _ _ hk _ =>
    have hk := hk fun _ _ => False
    refine recalls_observe hi' (fun t p he _ => .inr ?_) fun t p hal hlive hs hz => ?_
    · rw [hk.spte_isSome] at he
      rw [hk.value t p he]
      exact hr.entry t p he
    · have hs₀ := (hk.spte_none t p).mp hs
      exact hr.fresh t p hal hs₀ ((hk.zero t p hal hs₀ id).mp hz)
  | @grown _ _ a t₀ p₀ hcall hnone hk _ _ =>
    refine recalls_observe hi' (fun t p he _ => .inr ?_) fun t p hal hlive hs hz => ?_
    · rw [hk.spte_isSome] at he
      rw [hk.value t p he]
      exact hr.entry t p he
    · have hs₀ := (hk.spte_none t p).mp hs
      refine hr.fresh t p hal hs₀ ?_
      by_cases hx : t = t₀ ∧ p = p₀
      · obtain ⟨rfl, rfl⟩ := hx
        have hg := hok.2
        simp only [growsFresh, hcall] at hg
        simpa [had, hs₀] using hg
      · exact (hk.zero t p hal hs₀ hx).mp hz
  | exited _ _ _ hx =>
    refine recalls_observe hi' (fun t p he _ => .inr ?_) fun t p hal hlive hs hz => ?_
    · obtain ⟨e, he⟩ := Option.isSome_iff_exists.mp he
      have hne := hx.ne_of_spte he
      rw [hx.value_other hr.inv hne]
      rw [hx.spte_other hne] at he
      exact hr.entry t p (by show (vm.spte t p).isSome = true; rw [he]; rfl)
    · have hne : t ≠ _ := fun ht => by
        rw [hx.procs, ht, Function.update_self] at hlive
        cases hlive
      rw [hx.spte_other hne] at hs
      rw [hx.pte_other hne] at hz
      exact hr.fresh t p hal hs hz
  | @started _ a t₀ inode phs ht₀ hk =>
    have hk := hk fun _ _ => False
    refine recalls_observe hi' (fun t p he _ => ?_) fun t p hal hlive hs hz => ?_
    · by_cases ht : t = t₀
      · exact .inl (hr.dead t p (ht ▸ ht₀))
      · right
        rw [hk.spte_isSome] at he
        rw [hk.value t p he, value_setProc, if_neg ht]
        rw [spte_setProc, if_neg ht] at he
        exact hr.entry t p he
    · by_cases ht : t = t₀
      · exact hr.dead t p (ht ▸ ht₀)
      · have hs₀ := (hk.spte_none t p).mp hs
        have hz₀ := (hk.zero t p hal hs₀ id).mp hz
        rw [spte_setProc, if_neg ht] at hs₀
        rw [pte_setProc_create, if_neg ht] at hz₀
        exact hr.fresh t p hal hs₀ hz₀
  | @failed _ a t₀ inode phs s ht₀ hx hi₀ =>
    refine recalls_observe hi' (fun t p he _ => .inr ?_) fun t p hal hlive hs hz => ?_
    · obtain ⟨e, he⟩ := Option.isSome_iff_exists.mp he
      have hne := hx.ne_of_spte he
      rw [hx.value_other hi₀ hne, value_setProc, if_neg hne]
      rw [hx.spte_other hne, spte_setProc, if_neg hne] at he
      exact hr.entry t p (by show (vm.spte t p).isSome = true; rw [he]; rfl)
    · by_cases ht : t = t₀
      · exact hr.dead t p (ht ▸ ht₀)
      · rw [hx.spte_other ht, spte_setProc, if_neg ht] at hs
        rw [hx.pte_other ht, pte_setProc_create, if_neg ht] at hz
        exact hr.fresh t p hal hs hz
  | @stored _ t₀ va b hp₀ hst =>
    refine recalls_observe hi' (fun t p he hp => .inr ?_) fun t p hal hlive hs hz => ?_
    · rw [hst.spte] at he
      rw [(hst.present t p).1] at hp
      have hne : ¬ (t = t₀ ∧ p / 4096 = va / 4096) := by
        rintro ⟨rfl, hpg⟩
        rw [pte_page vm t hpg, hp₀] at hp
        cases hp
      rw [hst.value hr.inv hp₀, if_neg hne]
      exact hr.entry t p he
    · rw [hst.spte] at hs
      rw [hst.pte] at hz
      split at hz
      · exact absurd (congrArg Pte.dirty hz) (by simp [Pte.zero])
      · exact hr.fresh t p hal hs hz
  | nothing _ _ =>
    refine recalls_observe hi' (fun t p he _ => .inr (hr.entry t p he)) fun t p hal hlive hs hz => ?_
    exact hr.fresh t p hal hs hz

theorem Boot.recalls (h : Boot vm) : Recalls ⟨vm, fun _ _ => none⟩ where
  inv := h.inv
  dead _ _ _ := rfl
  entry t p he := by
    simp only [spte, h.procs] at he
    cases he
  fresh _ _ _ _ _ := rfl

/-- **Where stack growth destroys no page.** In every run whose steps all meet `FreshGrowth`, `page_in`
brings a page the process was seen to have back as it was last seen, and a page it maps that was
not seen before is a writable page of zeros. -/
theorem pageIn_restores {vm₀ : Vm F} {es : List Event} {o : Observed F} (hboot : Boot vm₀)
    (hrun : Runs ObsStep FreshGrowth ⟨vm₀, fun _ _ => none⟩ es o) {e : Event}
    (hok : FreshGrowth o e) (hstep : Step o.vm e vm') {a : Alloc} {t p : Nat} {stackPage : Bool}
    (hcall : o.vm.pageInOf e = some (a, t, p, stackPage)) :
    (∀ v, o.seen t p = some v → (vm'.procs t).isSome = true ∧ vm'.value t p = some v ∧
      (a.pageTable = true → (vm'.pte t p).present = true)) ∧
    (o.seen t p = none → (vm'.pte t p).present = true → vm'.value t p = some zeroPage) := by
  have hr : Recalls o := Runs.invariant Recalls.step hrun hboot.recalls
  obtain ⟨-, hout⟩ := step_outcome hr.inv hok.1 (growsOverEntry_of_growsFresh hok.2) hstep
  have hal := pageInOf_aligned hcall
  have hgrow := hok.2
  simp only [growsFresh, hcall, Bool.or_eq_true, Bool.and_eq_true, Bool.not_eq_true'] at hgrow
  rcases hgrow with hnew | ⟨rfl, hs⟩
  · -- A page the process never had.
    have hnew : o.vm.spte t p = none ∧ o.vm.pte t p = Pte.zero := by simpa [had] using hnew
    have hseen : o.seen t p = none := hr.fresh t p hal hnew.1 hnew.2
    have habs : (o.vm.pte t p).present = false := by rw [hnew.2]; rfl
    refine ⟨fun v hv => absurd hv (by rw [hseen]; simp), fun _ hp => ?_⟩
    cases hout with
    | pagedIn hc hs _ _ =>
      rw [hcall] at hc
      cases hc
      rw [hnew.1] at hs
      cases hs
    | grown hc _ _ hval _ =>
      rw [hcall] at hc
      cases hc
      exact (hval hp).resolve_right (by rw [habs]; simp)
    | exited _ _ _ hx =>
      have hne := hx.ne_of_present hp
      rw [hx.pte_other hne, habs] at hp
      cases hp
    | started | failed | stored => cases hcall
    | nothing _ hc =>
      rw [hcall] at hc
      cases hc
  · -- A page with an entry, brought in by `load_page`.
    have hval : o.seen t p = o.vm.value t p := hr.entry t p hs
    have hsome := value_isSome hs
    have hlive : (o.vm.procs t).isSome = true := by
      unfold spte at hs
      split at hs
      · next hpr => rw [hpr]; rfl
      · cases hs
    refine ⟨fun v hv => ?_, fun hn => absurd hsome (by rw [← hval, hn]; simp)⟩
    cases hout with
    | pagedIn hc _ hk hpres =>
      rw [hcall] at hc
      cases hc
      have hk := hk fun _ _ => False
      refine ⟨by rw [hk.procs, hlive], ?_, hpres⟩
      rw [hk.value t p hs, ← hval, hv]
    | grown hc _ _ _ _ =>
      rw [hcall] at hc
      cases hc
    | exited _ hn _ _ =>
      rw [hn a t p hcall] at hs
      cases hs
    | started | failed | stored => cases hcall
    | nothing _ hc =>
      rw [hcall] at hc
      cases hc

/-! ## Runs on concrete machines -/

/-- The observation after an event that does not crash. -/
def Observed.next (o : Observed F) (e : Event) : Observed F :=
  ⟨o.vm.next e, observe (o.vm.next e) o.seen⟩

theorem obsRuns_of_allowed {P : Observed F → Event → Prop} (ok : Vm F → Event → Bool)
    (hok : ∀ o e, ok o.vm e = true → P o e) {o : Observed F} {es : List Event}
    (h : allowed ok o.vm es = true) : Runs ObsStep P o es (es.foldl Observed.next o) := by
  induction es generalizing o with
  | nil => exact .nil o
  | cons e es ih =>
    have hhead := h
    simp only [allowed, Bool.and_eq_true] at hhead
    obtain ⟨⟨⟨hp, hen⟩, hisOk⟩, hrest⟩ := hhead
    exact .cons (hok o e hp) ⟨step_next hen hisOk, rfl⟩ (ih hrest)

end Steps

/-- A process at 0xc0100000 that has loaded its page of text. -/
def textLoaded : Observed FrameTable :=
  [loadText 0xc0100000].foldl Observed.next ⟨bootWith 2 16 textDisk, fun _ _ => none⟩

/-- The process executes its first instruction with `esp` at the top of its stack. -/
def fetchText : Event := .fault ⟨true, true⟩ 0xc0100000 0x8048000 0xbffffff0

/-- The text comes back from the file, not as a page of zeros. -/
theorem pageIn_restores_text :
    (∀ v, textLoaded.seen 0xc0100000 0x8048000 = some v →
      ((textLoaded.vm.next fetchText).procs 0xc0100000).isSome = true ∧
        (textLoaded.vm.next fetchText).value 0xc0100000 0x8048000 = some v ∧
        (true = true → ((textLoaded.vm.next fetchText).pte 0xc0100000 0x8048000).present = true)) ∧
    (textLoaded.seen 0xc0100000 0x8048000 = none →
      ((textLoaded.vm.next fetchText).pte 0xc0100000 0x8048000).present = true →
      (textLoaded.vm.next fetchText).value 0xc0100000 0x8048000 = some zeroPage) :=
  pageIn_restores (boot_bootWith 2 16 textDisk)
    (obsRuns_of_allowed (fun vm e => vm.swapsOut e && vm.growsFresh e)
      (fun _ _ h => Bool.and_eq_true_iff.mp h) (by decide +kernel))
    (e := fetchText) ⟨by decide +kernel, by decide +kernel⟩
    (step_next (by decide +kernel) (by decide +kernel))
    (show textLoaded.vm.pageInOf fetchText = some (⟨true, true⟩, 0xc0100000, 0x8048000, false) by
      decide +kernel)

/-- The process reads its text after it has set `esp` to an address in the text. -/
def fetchBelowText : Event := .fault ⟨true, true⟩ 0xc0100000 0x8048000 0x8048010

/-- What a byte and the writability of a page look like. -/
def PageVal.sample (v : PageVal) : UInt8 × Bool := (v.bytes 0, v.writable)

/-- A fault above `esp` replaces a page of text by a writable page of zeros. -/
theorem stackGrowth_zeroes_text :
    Runs ObsStep (fun _ _ => True) ⟨bootWith 2 16 textDisk, fun _ _ => none⟩ [loadText 0xc0100000]
      textLoaded ∧
    Step textLoaded.vm fetchBelowText (textLoaded.vm.next fetchBelowText) ∧
    textLoaded.vm.pageInOf fetchBelowText = some (⟨true, true⟩, 0xc0100000, 0x8048000, true) ∧
    (textLoaded.vm.spte 0xc0100000 0x8048000).isSome = true ∧
    (textLoaded.seen 0xc0100000 0x8048000).map PageVal.sample = some (0x90, false) ∧
    ((textLoaded.vm.next fetchBelowText).value 0xc0100000 0x8048000).map PageVal.sample =
      some (0, true) := by
  refine ⟨?_, step_next (by decide +kernel) (by decide +kernel), by decide +kernel,
    by decide +kernel, by decide +kernel, by decide +kernel⟩
  exact obsRuns_of_allowed (fun _ _ => true) (fun _ _ _ => trivial) (by decide +kernel)

end Vm

end Pintos
