import Pintos.Lib.Ownership
import Pintos.Vm.Interleaving

/-!
# Pins

`pin_sema` of a frame table entry is meant to keep `evict_page` away from a frame until its page is
installed. `evict_page` takes it when it selects the entry, and `set_pinned` sets it back to 1 at the
end of `page_in`. But `get_user_page` makes its entries with the value 1, and neither stack growth
nor `setup_stack` calls `set_pinned`.
-/

namespace Pintos

open Lib Function FrameTable

/-- The value of `pin_sema` before `set_pinned`. -/
def NewFrame.pin (new : NewFrame) : Nat := if new.fresh then 1 else 0

namespace Pc

/-- The entry of the frame that a fault has got and not finished with. -/
def newFrame : Pc → Option NewFrame
  | .evict c _ => some ⟨c.sel.chosen, false⟩
  | .fill _ _ _ new | .install _ _ _ new _ | .setPinned _ new | .tryDown _ new | .up _ new => some new
  | _ => none

/-- The same, until the page is installed. -/
def inFlight : Pc → Option NewFrame
  | .evict c _ => some ⟨c.sel.chosen, false⟩
  | .fill _ _ _ new | .install _ _ _ new _ => some new
  | _ => none

theorem newFrame_of_inFlight {pc : Pc} {new : NewFrame} (h : pc.inFlight = some new) :
    pc.newFrame = some new := by
  cases pc <;> first | exact h | cases h

end Pc

namespace Sys

/-- The entry that `evict_page` selects in a step. -/
def selects (s : Sys FrameTable) : Act → Option Nat
  | .run _ t =>
    match s.pc t with
    | .evictPage _ _ => s.vm.ft.select.map fun r => r.1.chosen
    | _ => none
  | _ => none

/-- When the pins do what they are for. -/
def PinOk (s : Sys FrameTable) : Act → Prop
  | .run _ t =>
    match s.pc t with
    | .evictPage request _ =>
      request = .pageIn ∧ ∀ t' new, (s.pc t').newFrame = some new → new.fresh = false
    | .setPinned page new => s.vm.ft.find t page = some new.entry
    | _ => True
  | _ => True

/-- What is known about the pin of a thread's entry. -/
def PinAt (ft : FrameTable) : Pc → Prop
  | .evict c _ => (ft.entry c.sel.chosen).pinSema = 0 ∧ c.request = .pageIn
  | .fill request _ _ new | .install request _ _ new _ =>
    (ft.entry new.entry).pinSema = new.pin ∧ (new.fresh = false → request = .pageIn)
  | .setPinned _ new => (ft.entry new.entry).pinSema = new.pin
  | .tryDown found new => found = new.entry ∧ (ft.entry new.entry).pinSema = new.pin
  | .up found new => found = new.entry ∧ (ft.entry new.entry).pinSema = 0
  | _ => True

/-- Thread `t` has the entry `i`. -/
def ownsEntry (s : Sys FrameTable) (t i : Nat) : Prop :=
  ∃ new, (s.pc t).newFrame = some new ∧ new.entry = i

/-- The invariant. -/
structure PinInv (s : Sys FrameTable) : Prop where
  owned : Owned s.ownsEntry fun i => i < s.vm.ft.next
  pins : ∀ t, PinAt s.vm.ft (s.pc t)
  le_one : ∀ i, (s.vm.ft.entry i).pinSema ≤ 1

section Steps

variable {s s' : Sys FrameTable} {t : Nat} {pc : Pc}

theorem PinAt.congr {ft ft' : FrameTable} (h : PinAt ft pc)
    (hpin : ∀ new, pc.newFrame = some new →
      (ft'.entry new.entry).pinSema = (ft.entry new.entry).pinSema) : PinAt ft' pc := by
  cases pc with
  | evict c p => exact ⟨(hpin _ rfl).trans h.1, h.2⟩
  | fill request page frame new => exact ⟨(hpin _ rfl).trans h.1, h.2⟩
  | install request page frame new writable => exact ⟨(hpin _ rfl).trans h.1, h.2⟩
  | setPinned page new => exact (hpin _ rfl).trans h
  | tryDown found new => exact ⟨h.1, (hpin _ rfl).trans h.2⟩
  | up found new => exact ⟨h.1, (hpin _ rfl).trans h.2⟩
  | _ => trivial

theorem PinAt.pin_eq_zero {ft : FrameTable} (h : PinAt ft pc) {new : NewFrame}
    (hnew : pc.newFrame = some new) (hfresh : new.fresh = false) :
    (ft.entry new.entry).pinSema = 0 := by
  have hpin : new.pin = 0 := by simp [NewFrame.pin, hfresh]
  cases pc with
  | evict c p =>
    cases hnew
    exact h.1
  | fill | install =>
    cases hnew
    exact h.1.trans hpin
  | setPinned page new' =>
    cases hnew
    exact h.trans hpin
  | tryDown found new' =>
    cases hnew
    exact h.2.trans hpin
  | up found new' =>
    cases hnew
    exact h.2
  | _ => cases hnew

theorem ownsEntry_cases (hpc : s'.pc = update s.pc t pc) {t' i : Nat}
    (hown : s'.ownsEntry t' i) :
    (t' = t ∧ ∃ new, pc.newFrame = some new ∧ new.entry = i) ∨ (t' ≠ t ∧ s.ownsEntry t' i) := by
  obtain ⟨new, hnew, hi⟩ := hown
  rw [hpc] at hnew
  by_cases ht : t' = t
  · subst ht
    rw [update_self] at hnew
    exact .inl ⟨rfl, new, hnew, hi⟩
  · rw [update_of_ne ht] at hnew
    exact .inr ⟨ht, new, hnew, hi⟩

/-- The invariant after a step of thread `t` that changes pins of its own entry only, the one it had
or the one it gets. -/
theorem PinInv.of_owned (h : PinInv s) (hpc : s'.pc = update s.pc t pc)
    (howned : Owned s'.ownsEntry fun i => i < s'.vm.ft.next) (hpin : PinAt s'.vm.ft pc)
    (hkeep : ∀ i, ¬ s.ownsEntry t i → ¬ s'.ownsEntry t i →
      (s'.vm.ft.entry i).pinSema = (s.vm.ft.entry i).pinSema)
    (hle : ∀ i, (s'.vm.ft.entry i).pinSema ≤ 1) : PinInv s' := by
  refine ⟨howned, fun t' => ?_, hle⟩
  by_cases ht : t' = t
  · subst ht
    rwa [hpc, update_self]
  · have hat : s'.pc t' = s.pc t' := by rw [hpc, update_of_ne ht]
    rw [hat]
    refine (h.pins t').congr fun new hnew => hkeep _ (fun hown => ht ?_) fun hown => ht ?_
    · exact h.owned.excl ⟨new, hnew, rfl⟩ hown
    · exact howned.excl ⟨new, by rw [hat, hnew], rfl⟩ hown

section

variable (h : PinInv s) (hpc : s'.pc = update s.pc t pc)
include h hpc

theorem PinInv.of_pin {e n : Nat} (howned : Owned s'.ownsEntry fun i => i < s'.vm.ft.next)
    (hat : PinAt s'.vm.ft pc)
    (hpin : ∀ i, (s'.vm.ft.entry i).pinSema = if i = e then n else (s.vm.ft.entry i).pinSema)
    (hn : n ≤ 1) (hself : s.ownsEntry t e ∨ s'.ownsEntry t e) : PinInv s' := by
  refine h.of_owned hpc howned hat (fun i hbefore hafter => ?_) (fun i => ?_)
  · rw [hpin, if_neg]
    rintro rfl
    exact hself.elim hbefore hafter
  · rw [hpin]
    split
    · exact hn
    · exact h.le_one i

theorem PinInv.quiet (hnew : ∀ new, pc.newFrame = some new → (s.pc t).newFrame = some new)
    (hpin : PinAt s.vm.ft pc) (hft : ∀ i, (s'.vm.ft.entry i).pinSema = (s.vm.ft.entry i).pinSema)
    (hnext : s'.vm.ft.next = s.vm.ft.next) : PinInv s' := by
  refine h.of_owned hpc (h.owned.mono (fun {t' i} hown => ?_) (by rw [hnext]; exact id))
    (hpin.congr fun new _ => hft _) (fun i _ _ => hft i) fun i => by rw [hft]; exact h.le_one i
  rcases ownsEntry_cases hpc hown with ⟨rfl, new, hn, rfl⟩ | ⟨-, hown⟩
  · exact ⟨new, hnew new hn, rfl⟩
  · exact hown

theorem PinInv.goto (hnew : pc.newFrame = none)
    (hft : ∀ i, (s'.vm.ft.entry i).pinSema = (s.vm.ft.entry i).pinSema)
    (hnext : s'.vm.ft.next = s.vm.ft.next) : PinInv s' := by
  refine h.quiet hpc (by simp [hnew]) ?_ hft hnext
  cases pc <;> trivial

end

theorem PinInv.insert {a : Bool} {request : Request} {page frame : Nat} (h : PinInv s)
    (hpc : s'.pc = update s.pc t (.fill request page frame ⟨s.vm.ft.next, true⟩))
    (hft : s'.vm.ft = s.vm.ft.insert a t page) : PinInv s' := by
  have hpin : ∀ i, (s'.vm.ft.entry i).pinSema =
      if i = s.vm.ft.next then 1 else (s.vm.ft.entry i).pinSema := by
    intro i
    rw [hft, FrameTable.insert]
    by_cases hi : i = s.vm.ft.next
    · simp [hi]
    · simp [hi]
  have hnext : s'.vm.ft.next = s.vm.ft.next + 1 := by rw [hft]; rfl
  have hself : s'.ownsEntry t s.vm.ft.next :=
    ⟨⟨s.vm.ft.next, true⟩, by rw [hpc, update_self]; rfl, rfl⟩
  refine h.of_pin hpc ?_ ⟨by rw [hpin, if_pos rfl]; rfl, by simp⟩ hpin (Nat.le_refl 1) (.inr hself)
  refine h.owned.acquire t (· = s.vm.ft.next) (fun {t' i} hown => ?_) (fun {t' i} hi hown => ?_)
    (fun {i} hi => by omega)
  · rcases ownsEntry_cases hpc hown with ⟨rfl, new, hn, rfl⟩ | ⟨-, hown⟩
    · cases hn
      exact .inr ⟨rfl, rfl⟩
    · exact .inl hown
  · exact absurd (h.owned.used hown) (by omega)

theorem pin_setPin (ft : FrameTable) (i n j : Nat) :
    ((ft.setPin i n).entry j).pinSema = if j = i then n else (ft.entry j).pinSema := by
  unfold setPin
  by_cases hj : j = i
  · subst hj
    simp
  · simp [hj]

theorem PinInv.select {c : EvictLocals} {page : Nat} {ft : FrameTable} (h : PinInv s)
    (hat : s.pc t = .evictPage c.request page)
    (hreq : c.request = .pageIn)
    (hfresh : ∀ t' new, (s.pc t').newFrame = some new → new.fresh = false)
    (hsel : s.vm.ft.select = some (c.sel, ft))
    (hpc : s'.pc = update s.pc t (.evict c .test)) (hft : s'.vm.ft = ft) : PinInv s' := by
  obtain ⟨-, hmem, hpos, rfl⟩ := select_some hsel
  have hpin : ∀ i, (s'.vm.ft.entry i).pinSema =
      if i = c.sel.chosen then 0 else (s.vm.ft.entry i).pinSema := by
    intro i
    have hone := h.le_one c.sel.chosen
    rw [hft, tryDown, pin_setPin]
    split
    · omega
    · rfl
  have hself : s'.ownsEntry t c.sel.chosen :=
    ⟨⟨c.sel.chosen, false⟩, by rw [hpc, update_self]; rfl, rfl⟩
  refine h.of_pin hpc ?_ ⟨by rw [hpin, if_pos rfl], hreq⟩ hpin (Nat.zero_le 1) (.inr hself)
  refine h.owned.acquire t (· = c.sel.chosen) (fun {t' i} hown => ?_) (fun {t' i} hi hown => ?_)
    (fun {i} hi => ?_)
  · rcases ownsEntry_cases hpc hown with ⟨rfl, new, hn, rfl⟩ | ⟨-, hown⟩
    · cases hn
      exact .inr ⟨rfl, rfl⟩
    · exact .inl hown
  · -- Whoever has an entry from `evict_page` has its pin.
    obtain ⟨new, hn, rfl⟩ := hown
    have hzero := (h.pins t').pin_eq_zero hn (hfresh t' new hn)
    rw [hi] at hzero
    omega
  · rw [hft]
    rcases hi with hi | rfl
    · exact hi
    · exact s.vm.ft.allocated _ hmem

theorem PinInv.tryDown {new : NewFrame} (h : PinInv s) (hat : s.pc t = .tryDown new.entry new)
    (hpc : s'.pc = update s.pc t (.up new.entry new))
    (hft : s'.vm.ft = s.vm.ft.tryDown new.entry) : PinInv s' := by
  have hpin : ∀ i, (s'.vm.ft.entry i).pinSema =
      if i = new.entry then 0 else (s.vm.ft.entry i).pinSema := by
    intro i
    have hone := h.le_one new.entry
    rw [hft, FrameTable.tryDown, pin_setPin]
    split
    · omega
    · rfl
  have hself : s.ownsEntry t new.entry := ⟨new, by rw [hat]; rfl, rfl⟩
  refine h.of_pin hpc (h.owned.mono (fun {t' i} hown => ?_) (by rw [hft]; exact id))
    ⟨rfl, by rw [hpin, if_pos rfl]⟩ hpin (Nat.zero_le 1) (.inl hself)
  rcases ownsEntry_cases hpc hown with ⟨rfl, new', hn, rfl⟩ | ⟨-, hown⟩
  · cases hn
    exact hself
  · exact hown

theorem PinInv.up {found : Nat} {new : NewFrame} (h : PinInv s) (hat : s.pc t = .up found new)
    (hpc : s'.pc = update s.pc t .user) (hft : s'.vm.ft = s.vm.ft.up found) :
    PinInv s' ∧ (s'.vm.ft.entry new.entry).pinSema = 1 := by
  have hold := h.pins t
  rw [hat] at hold
  obtain ⟨rfl, hzero⟩ := hold
  have hpin : ∀ i, (s'.vm.ft.entry i).pinSema =
      if i = new.entry then 1 else (s.vm.ft.entry i).pinSema := by
    intro i
    rw [hft, FrameTable.up, pin_setPin, hzero]
  have hself : s.ownsEntry t new.entry := ⟨new, by rw [hat]; rfl, rfl⟩
  refine ⟨h.of_pin hpc (h.owned.mono (fun {t' i} hown => ?_) (by rw [hft]; exact id)) trivial
    hpin (Nat.le_refl 1) (.inl hself), by rw [hpin, if_pos rfl]⟩
  rcases ownsEntry_cases hpc hown with ⟨rfl, new', hn, rfl⟩ | ⟨-, hown⟩
  · cases hn
  · exact hown

theorem pin_rekey {a : Bool} {ft ft' : FrameTable} {sel : Selection} {th va : Nat}
    (h : ft.rekey a sel th va = some ft') (i : Nat) :
    (ft'.entry i).pinSema = (ft.entry i).pinSema := by
  obtain ⟨hentry, -, -⟩ := rekey_some h
  rw [hentry]
  by_cases hi : i = sel.chosen
  · subst hi
    simp
  · simp [hi]

end Steps

/-! ## Every run -/

variable {s s' : Sys FrameTable}

theorem PinInv.step {e : Act} (h : PinInv s) (hok : s.PinOk e) (hstep : Step s e s') :
    PinInv s' := by
  cases trans_of_step hstep with
  | getPage | noPage | noStack | notFound | supdirSkip | supdirPick | swapRemove | supdirFree
  | processExit | freePage | exited | load | loadFail | pageIn | quit =>
    exact h.goto rfl rfl (fun _ => rfl) rfl
  | insert hpc hsema => exact h.insert rfl rfl
  | select hpc hsema hsel hpr hold =>
    simp only [PinOk, hpc] at hok
    exact h.select hpc hok.1 hok.2 hsel rfl rfl
  | @evict a t c pc pc' vm hpc _ hev =>
    obtain ⟨-, hft, -⟩ := Vm.evictStep_kept hev
    have hold := h.pins t
    rw [hpc] at hold
    refine h.quiet rfl ?_ hold (fun i => ?_) ?_
    · rw [hpc]
      exact fun _ hn => hn
    · show (vm.ft.entry i).pinSema = _
      rw [hft]
    · show vm.ft.next = _
      rw [hft]
  | @rekey a t c ft frame hpc hkey hframe =>
    have hold := h.pins t
    rw [hpc] at hold
    refine h.quiet rfl ?_ ⟨hold.1, fun _ => hold.2⟩ (pin_rekey hkey) (rekey_some hkey).2.1
    rw [hpc]
    exact fun _ hn => hn
  | rekeyNull hpc hkey _ _ =>
    exact h.goto rfl rfl (pin_rekey hkey) (rekey_some hkey).2.1
  | @zero a t page frame new hpc | @fill a t request page frame new e table m hpc _ _ =>
    have hold := h.pins t
    rw [hpc] at hold
    refine h.quiet rfl ?_ hold (fun _ => rfl) rfl
    rw [hpc]
    exact fun _ hn => hn
  | @noEntry a t request page frame new hpc _ =>
    have hold := h.pins t
    rw [hpc] at hold
    refine h.quiet rfl ?_ hold.1 (fun _ => rfl) rfl
    rw [hpc]
    exact fun _ hn => hn
  | @install a t request page frame new writable pr ok pd hpc hpr hset =>
    have hold := h.pins t
    rw [hpc] at hold
    cases request with
    | pageIn =>
      refine h.quiet rfl ?_ hold.1 (fun _ => rfl) rfl
      rw [hpc]
      exact fun _ hn => hn
    | stackGrowth | setupStack => exact h.goto rfl rfl (fun _ => rfl) rfl
  | @found a t page new i hpc hsema hfind =>
    have hold := h.pins t
    rw [hpc] at hold
    simp only [PinOk, hpc] at hok
    cases hfind.symm.trans hok
    refine h.quiet rfl ?_ ⟨rfl, hold⟩ (fun _ => rfl) rfl
    rw [hpc]
    exact fun _ hn => hn
  | @tryDown a t i new hpc =>
    have hold := h.pins t
    rw [hpc] at hold
    obtain ⟨rfl, -⟩ := hold
    exact h.tryDown hpc rfl rfl
  | up hpc => exact (h.up hpc rfl rfl).1
  | freeFrame hpc hsema hfree =>
    obtain ⟨hentry, hnext, -⟩ := free_some hfree
    exact h.goto rfl rfl (fun i => by rw [hentry]) hnext
  | @store t va b vm hpc hp hst =>
    obtain ⟨-, hft⟩ := Vm.storeByte_ok hst
    have hstay : s.pc = update s.pc t .user := by rw [← hpc, update_eq_self]
    refine h.goto hstay rfl (fun i => ?_) ?_
    · show (vm.ft.entry i).pinSema = _
      rw [hft]
    · show vm.ft.next = _
      rw [hft]
  | nothing => exact h

theorem Boot.pinInv (h : Boot s) (hft : s.vm.ft = frameTableInit) : PinInv s := by
  have hown : ∀ t i, ¬ s.ownsEntry t i := by
    rintro t i ⟨new, hnew, -⟩
    rw [h.pc] at hnew
    cases hnew
  exact
    { owned := ⟨fun hk => absurd hk (hown _ _), fun hk => absurd hk (hown _ _)⟩
      pins := fun t => by rw [h.pc]; trivial
      le_one := fun i => by rw [hft]; exact Nat.zero_le 1 }

theorem PinInv.selects {e : Act} (h : PinInv s) (hok : s.PinOk e) {t i : Nat} {new : NewFrame}
    (hnew : (s.pc t).newFrame = some new) (hsel : s.selects e = some i) : i ≠ new.entry := by
  cases e with
  | run a t' =>
    cases hpc : s.pc t' with
    | evictPage request page =>
      simp only [Sys.selects, hpc, Option.map_eq_some_iff] at hsel
      obtain ⟨⟨sel, ft⟩, hsel, rfl⟩ := hsel
      obtain ⟨-, -, hpos, -⟩ := select_some hsel
      simp only [PinOk, hpc] at hok
      have hzero := (h.pins t).pin_eq_zero hnew (hok.2 t new hnew)
      intro heq
      rw [← heq] at hzero
      exact absurd hzero (Nat.ne_of_gt hpos)
    | _ => simp [Sys.selects, hpc] at hsel
  | _ => cases hsel

theorem Trans.user {e : Act} {t : Nat} (h : Trans s e s') (hdone : s'.pc t = .user) :
    s.pc t = .user ∨
    (∃ a page new, e = .run a t ∧ s.pc t = .setPinned page new ∧ s.vm.ft.find t page = none) ∨
    (∃ found new, s.pc t = .up found new ∧ s'.pc = update s.pc t .user ∧
      s'.vm.ft = s.vm.ft.up found) ∨
    (∃ request page frame new writable, s.pc t = .install request page frame new writable ∧
      request ≠ .pageIn ∧ s'.vm.ft = s.vm.ft) := by
  by_cases ht : t = e.thread
  · subst ht
    cases h with
    | install hpc =>
      refine .inr (.inr (.inr ⟨_, _, _, _, _, hpc, ?_, rfl⟩))
      rintro rfl
      cases (update_self ..).symm.trans hdone
    | notFound hpc hsema hfind => exact .inr (.inl ⟨_, _, _, rfl, hpc, hfind⟩)
    | up hpc => exact .inr (.inr (.inl ⟨_, _, hpc, rfl, rfl⟩))
    | store | nothing => exact .inl hdone
    | _ => cases (update_self ..).symm.trans hdone
  · exact .inl ((h.pc_other ht).symm.trans hdone)

theorem PinInv.finished {e : Act} (h : PinInv s) (hok : s.PinOk e) (hstep : Step s e s') {t : Nat}
    {new : NewFrame} (hnew : (s.pc t).newFrame = some new) (hdone : s'.pc t = .user) :
    (s'.vm.ft.entry new.entry).pinSema = 1 := by
  rcases (trans_of_step hstep).user hdone with hpc | ⟨a, page, new', rfl, hpc, hfind⟩ |
    ⟨found, new', hpc, hpc', hft⟩ | ⟨request, page, frame, new', writable, hpc, hreq, hft⟩
  · rw [hpc] at hnew
    cases hnew
  · simp only [PinOk, hpc] at hok
    cases hfind.symm.trans hok
  · rw [hpc] at hnew
    cases hnew
    exact (h.up hpc hpc' hft).2
  · -- The frame of a stack page came from `get_user_page`.
    have hold := h.pins t
    rw [hpc] at hold hnew
    cases hnew
    rw [hft, hold.1, NewFrame.pin, if_pos]
    by_contra hne
    exact hreq (hold.2 (by simpa using hne))

/-- **When pins are balanced.** In every run whose steps meet `PinOk`: no step of `evict_page` selects
the entry of a frame that is in flight, and when a fault is finished the `pin_sema` of its entry is
back to 1. -/
theorem pins_balanced {s₀ : Sys FrameTable} {es : List Act} {e : Act} (hboot : Boot s₀)
    (hft : s₀.vm.ft = frameTableInit) (hrun : Runs Step PinOk s₀ es s) (hok : s.PinOk e)
    (hstep : Step s e s') :
    (∀ t new i, (s.pc t).inFlight = some new → s.selects e = some i → i ≠ new.entry) ∧
    (∀ t new, (s.pc t).newFrame = some new → s'.pc t = .user →
      (s'.vm.ft.entry new.entry).pinSema = 1) := by
  have h : PinInv s :=
    Runs.invariant (fun hi hok hstep => PinInv.step hi hok hstep) hrun (hboot.pinInv hft)
  refine ⟨fun t new i hnew hsel => ?_, fun t new hnew hdone => h.finished hok hstep hnew hdone⟩
  exact h.selects hok (Pc.newFrame_of_inFlight hnew) hsel

/-- One process alone: its faults are the only ones. -/
def alone (t : Nat) (s : Sys FrameTable) (e : Act) : Bool :=
  e.thread == t &&
    match s.pc t with
    | .evictPage request _ => request == .pageIn
    | .setPinned page new => s.vm.ft.find t page == some new.entry
    | _ => true

theorem pinOk_of_alone {t : Nat} {e : Act} (hgone : ∀ t', t' ≠ t → s.pc t' = .gone)
    (h : alone t s e = true) : s.PinOk e := by
  simp only [alone, Bool.and_eq_true, beq_iff_eq] at h
  obtain ⟨rfl, h⟩ := h
  cases e with
  | run a t =>
    change match s.pc t with
      | .evictPage request _ => request = .pageIn ∧ ∀ t' new, (s.pc t').newFrame = some new →
          new.fresh = false
      | .setPinned page new => s.vm.ft.find t page = some new.entry
      | _ => True
    change (match s.pc t with
      | .evictPage request _ => request == .pageIn
      | .setPinned page new => s.vm.ft.find t page == some new.entry
      | _ => true) = true at h
    cases hpc : s.pc t with
    | evictPage request page =>
      rw [hpc] at h
      refine ⟨by simpa using h, fun t' new hnew => ?_⟩
      by_cases ht : t' = t
      · rw [ht, hpc] at hnew
        cases hnew
      · rw [hgone t' ht] at hnew
        cases hnew
    | setPinned page new =>
      rw [hpc] at h
      simpa using h
    | _ => trivial
  | _ => trivial

/-- A process with one frame touches its text; its stack page is taken out, and `set_pinned` is
before its `sema_up`. -/
def textIn : List Act :=
  loadText 0xc0100000 ++ .fault 0xc0100000 0x8048000 0xbffffff0 :: runs 0xc0100000 9

/-- The state then. -/
def beforeUp : Sys FrameTable := textIn.foldl (after step) (bootWith 1 16 Vm.textDisk)

theorem pinOk_of_alone_run {t : Nat} {es : List Act} (hboot : Boot s)
    (hrun : Runs Step (fun s e => alone t s e = true) s es s') :
    Runs Step PinOk s es s' ∧ ∀ t', t' ≠ t → s'.pc t' = .gone := by
  have hkeep : ∀ {s s' : Sys FrameTable} {e : Act}, (∀ t', t' ≠ t → s.pc t' = .gone) →
      alone t s e = true → Step s e s' → ∀ t', t' ≠ t → s'.pc t' = .gone := by
    intro s s' e hgone hal hstep t' ht
    simp only [alone, Bool.and_eq_true, beq_iff_eq] at hal
    rw [(trans_of_step hstep).pc_other (hal.1 ▸ ht), hgone t' ht]
  have hstart : ∀ t', t' ≠ t → s.pc t' = .gone := fun t' _ => hboot.pc t'
  exact ⟨hrun.guard (I := fun s => ∀ t', t' ≠ t → s.pc t' = .gone) hkeep pinOk_of_alone hstart,
    hrun.invariant (I := fun s => ∀ t', t' ≠ t → s.pc t' = .gone) hkeep hstart⟩

/-- The entry of the text page is not pinned after the fault. -/
theorem pins_balanced_textIn :
    ((after step beforeUp (.run ⟨true, true⟩ 0xc0100000)).vm.ft.entry 0).pinSema = 1 :=
  have hrun := pinOk_of_alone_run (t := 0xc0100000) (boot_bootWith 1 16 Vm.textDisk)
    (runs_of_allows (alone 0xc0100000) (fun _ _ h => h)
      (show allows step (alone 0xc0100000) _ textIn = true by decide +kernel))
  (pins_balanced (e := .run ⟨true, true⟩ 0xc0100000) (boot_bootWith 1 16 Vm.textDisk) rfl hrun.1
    (pinOk_of_alone hrun.2 (by decide +kernel)) (after_eq_some (by decide +kernel))).2 0xc0100000
    ⟨0, false⟩ (by decide +kernel) (inUser_iff.mp (by decide +kernel))

/-- Two processes and two frames: while the second one sets up its stack in the second frame, the
first one touches its text. -/
def stackInFlight : List Act :=
  loadText 0xc0100000 ++ .load 0xc0101000 ⟨0, 4096⟩ [Vm.textPhdr] :: runs 0xc0101000 2 ++
    .fault 0xc0100000 0x8048000 0xbffffff0 :: runs 0xc0100000 1

/-- One frame: `setup_stack` of the second process takes it from the first one. -/
def stackFromEviction : List Act :=
  loadText 0xc0100000 ++ .load 0xc0101000 ⟨0, 4096⟩ [Vm.textPhdr] :: runs 0xc0101000 6

/-- `evict_page` selects the entry of a frame that is in flight, and a finished `setup_stack` leaves
the pin of its entry at 0. -/
theorem pins_unbalanced :
    (∃ s s' new, Runs Step (fun _ _ => True) (bootWith 2 16 Vm.textDisk) stackInFlight s ∧
      Step s (.run ⟨true, true⟩ 0xc0100000) s' ∧ (s.pc 0xc0101000).inFlight = some new ∧
      s.selects (.run ⟨true, true⟩ 0xc0100000) = some new.entry) ∧
    (∃ s s' new, Runs Step (fun _ _ => True) (bootWith 1 16 Vm.textDisk) stackFromEviction s ∧
      Step s (.run ⟨true, true⟩ 0xc0101000) s' ∧ (s.pc 0xc0101000).newFrame = some new ∧
      s'.pc 0xc0101000 = .user ∧ (s'.vm.ft.entry new.entry).pinSema = 0) := by
  refine ⟨⟨stackInFlight.foldl (after step) (bootWith 2 16 Vm.textDisk), _, ⟨1, true⟩,
      runs_of_allows (fun _ _ => true) (fun _ _ _ => trivial) (by decide +kernel),
      after_eq_some (by decide +kernel), by decide +kernel, by decide +kernel⟩,
    ⟨stackFromEviction.foldl (after step) (bootWith 1 16 Vm.textDisk), _, ⟨0, false⟩,
      runs_of_allows (fun _ _ => true) (fun _ _ _ => trivial) (by decide +kernel),
      after_eq_some (by decide +kernel), by decide +kernel, inUser_iff.mp (by decide +kernel),
      by decide +kernel⟩⟩

end Sys

end Pintos
