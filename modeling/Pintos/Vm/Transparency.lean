import Pintos.Vm.Steps

/-!
# Paging is transparent

The user's view of a process is a flat memory: a byte is what was last stored there, or the
byte the executable has there. `History` is that view, built from the events alone. The machine
moves pages between files, zeros, swap and frames, and shows the same bytes:

* `reads_history`: at the end of every run, every present page with a supplemental entry shows
  the bytes of the history, with the entry's writability.
-/

namespace Pintos

open Lib Option

/-- What the events so far have made of the processes' memory. -/
structure History where
  /-- The entry that `load` registered for a page of a process. -/
  image : Nat → Nat → Option Spte
  /-- The byte last stored at an address of a process since it was loaded. -/
  stored : Nat → Nat → Option UInt8

namespace History

/-- Nothing loaded, nothing stored. -/
def empty : History := ⟨fun _ _ => none, fun _ _ => none⟩

/-- The history after one more event. -/
def after (h : History) : Event → History
  | .load _ t inode phs =>
    { image := Function.update h.image t (lookupSupPage (Vm.imageSupdir inode phs))
      stored := Function.update h.stored t fun _ => none }
  | .store t va b =>
    { h with
      stored := Function.update h.stored t (Function.update (h.stored t) va (some b)) }
  | _ => h

/-- The initial byte `o` of a page: a file byte for the first `read_bytes`, then zero. -/
def initialByte (fsDev : Block) (e : Spte) (o : Nat) : UInt8 :=
  if o < e.readBytes then fsDev.byteFrom e.sector o else 0

/-- The byte that a read at `va` should return: the last one stored, or the initial one. -/
def byte (h : History) (fsDev : Block) (e : Spte) (t va : Nat) : UInt8 :=
  (h.stored t va).getD (initialByte fsDev e (va % 4096))

/-- The page at `p` of process `t`, registered as `e`. -/
def page (h : History) (fsDev : Block) (e : Spte) (t p : Nat) : PageVal :=
  ⟨fun o => h.byte fsDev e t (p + o), e.writable⟩

theorem after_quiet (h : History) {e : Event} (hq : e.quiet = true) : h.after e = h := by
  cases e with
  | load | store => simp [Event.quiet] at hq
  | fault | validate | exit => rfl

end History

namespace Vm

variable {F : Type} {vm vm' : Vm F}

/-- The machine shows the history `h`, with the file system `fsDev`. -/
structure Shows (fsDev : Block) (vm : Vm F) (h : History) : Prop where
  inv : Inv vm
  fs : vm.fsDev = fsDev
  value : ∀ t p e, vm.spte t p = some e →
    ∃ e₀, h.image t p = some e₀ ∧ e₀.writable = e.writable ∧
      vm.value t p = some (h.page fsDev e₀ t p)

variable {fsDev : Block} {h : History} {t : Nat}

theorem backed_registered {e : Spte} (he : e.Registered) (p : Nat) (hp : p % 4096 = 0)
    (hst : ∀ va, h.stored t va = none) : vm.backed e = h.page vm.fsDev e t p := by
  refine PageVal.ext (funext fun o => ?_) rfl
  have ho : (p + o.val) % 4096 = o := by
    have := o.isLt
    omega
  show backing vm.fsDev vm.swapDev e o = h.byte vm.fsDev e t (p + o)
  unfold History.byte History.initialByte backing
  rw [hst, getD_none, ho]
  cases hloc : e.location with
  | file => rfl
  | swap => exact absurd hloc he.not_swap
  | zero => simp [he.readBytes_zero (.inl hloc)]
  | mem => simp [he.readBytes_zero (.inr hloc)]

theorem Shows.keeps {X : Nat → Nat → Prop} (hs : Shows fsDev vm h)
    (hi : Inv vm') (hk : Keeps X vm vm') : Shows fsDev vm' h where
  inv := hi
  fs := hk.fsDev.trans hs.fs
  value t p e he := by
    have hentry := hk.entry t p
    rw [he, map_some] at hentry
    obtain ⟨e₁, he₁, hw⟩ := map_eq_some_iff.mp hentry.symm
    obtain ⟨e₀, hime, hw₀, hval⟩ := hs.value t p e₁ he₁
    refine ⟨e₀, hime, hw₀.trans hw, ?_⟩
    rw [hk.value t p (by rw [he₁]; rfl), hval]

theorem Shows.exited (hs : Shows fsDev vm h)
    (hx : Exited vm vm' t) : Shows fsDev vm' h where
  inv := hx.inv hs.inv
  fs := hx.fsDev.trans hs.fs
  value t' p e he := by
    have ht := hx.ne_of_spte he
    rw [hx.spte_other ht] at he
    rw [hx.value_other hs.inv ht]
    exact hs.value t' p e he

theorem Shows.setProc {a : Alloc} {inode : Inode}
    {phs : List Phdr} (hs : Shows fsDev vm h) :
    Shows fsDev (vm.setProc t ⟨pagedirCreate, imageSupdir inode phs⟩)
      (h.after (.load a t inode phs)) where
  inv := inv_setProc hs.inv (imageSupdir_registered inode phs)
  fs := hs.fs
  value t' p e he := by
    rw [spte_setProc] at he
    rw [value_setProc]
    by_cases ht : t' = t
    · subst ht
      rw [if_pos rfl] at he ⊢
      have hreg := imageSupdir_registered inode phs p e he
      have hp : p % 4096 = 0 := by
        have := hreg.aligned
        rwa [lookup_vaddr he] at this
      refine ⟨e, by simp [History.after, he], rfl, ?_⟩
      rw [he, map_some, ← hs.fs,
        backed_registered (h := h.after (.load a t' inode phs)) (t := t') hreg p hp fun va => by
          simp [History.after]]
    · rw [if_neg ht] at he ⊢
      obtain ⟨e₀, hime, hw, hval⟩ := hs.value t' p e he
      refine ⟨e₀, by simpa [History.after, ht] using hime, hw, ?_⟩
      rw [hval]
      simp [History.page, History.byte, History.after, ht]

theorem Shows.stored {fsDev : Block} {h : History} {t va : Nat} {b : UInt8} (hs : Shows fsDev vm h)
    (hp : (vm.pte t va).present = true) (hst : Stored vm vm' t va b) :
    Shows fsDev vm' (h.after (.store t va b)) where
  inv := hst.inv hs.inv hp
  fs := hst.fsDev.trans hs.fs
  value t' p e he := by
    rw [hst.spte] at he
    obtain ⟨e₀, hime, hw, hval⟩ := hs.value t' p e he
    refine ⟨e₀, hime, hw, ?_⟩
    have hal := hs.inv.spte_aligned he
    rw [hst.value hs.inv hp, hval]
    by_cases ht : t' = t
    · subst ht
      by_cases hpg : p / 4096 = va / 4096
      · rw [if_pos ⟨rfl, hpg⟩, map_some]
        congr 1
        refine PageVal.ext (funext fun o => ?_) rfl
        have ho := o.isLt
        show (if o.val = va % 4096 then b else h.byte fsDev e₀ t' (p + o)) =
          (h.after (.store t' va b)).byte fsDev e₀ t' (p + o)
        by_cases hov : o.val = va % 4096
        · have hva : p + o.val = va := by omega
          rw [if_pos hov, hva]
          simp [History.byte, History.after]
        · have hva : p + o.val ≠ va := by omega
          rw [if_neg hov]
          simp [History.byte, History.after, hva]
      · rw [if_neg fun hc => hpg hc.2]
        congr 1
        refine PageVal.ext (funext fun o => ?_) rfl
        have ho := o.isLt
        have hva : p + o.val ≠ va := by omega
        show h.byte fsDev e₀ t' (p + o) = (h.after (.store t' va b)).byte fsDev e₀ t' (p + o)
        simp [History.byte, History.after, hva]
    · rw [if_neg fun hc => ht hc.1]
      simp [History.page, History.byte, History.after, ht]

variable [FrameTableOps F]

/-- An eviction takes out a page in memory and finds a slot, and a page
with an entry is brought in by `load_page`, not as a stack page. -/
def BackedPaging (vm : Vm F) (e : Event) : Prop :=
  vm.swapsOut e = true ∧ vm.growsOverEntry e = false

instance (vm : Vm F) (e : Event) : Decidable (vm.BackedPaging e) :=
  inferInstanceAs (Decidable (_ ∧ _))

theorem Shows.step {fsDev : Block} {h : History} {e : Event} (hs : Shows fsDev vm h)
    (hok : vm.BackedPaging e) (hstep : Step vm e vm') : Shows fsDev vm' (h.after e) := by
  obtain ⟨hi', hout⟩ := step_outcome hs.inv hok.1 hok.2 hstep
  cases hout with
  | pagedIn hcall _ hk _ =>
    rw [h.after_quiet (quiet_of_pageInOf hcall)]
    exact hs.keeps hi' (hk fun _ _ => True)
  | grown hcall _ hk _ _ =>
    rw [h.after_quiet (quiet_of_pageInOf hcall)]
    exact hs.keeps hi' hk
  | exited hq _ _ hx =>
    rw [h.after_quiet hq]
    exact hs.exited hx
  | started _ hk => exact hs.setProc.keeps hi' (hk fun _ _ => True)
  | @failed _ a t inode phs s ht hx hi₀ =>
    -- The process is gone again, and the pages of the others are as before.
    refine ⟨hi', hx.fsDev.trans hs.fs, fun t' p e he => ?_⟩
    have hne := hx.ne_of_spte he
    rw [hx.spte_other hne, spte_setProc, if_neg hne] at he
    rw [hx.value_other hi₀ hne, value_setProc, if_neg hne]
    obtain ⟨e₀, hime, hw, hval⟩ := hs.value t' p e he
    refine ⟨e₀, by simpa [History.after, hne] using hime, hw, ?_⟩
    rw [hval]
    simp [History.page, History.byte, History.after, hne]
  | stored hp hst => exact hs.stored hp hst
  | nothing hq _ =>
    rw [h.after_quiet hq]
    exact hs

theorem Boot.shows (h : Boot vm) : Shows vm.fsDev vm History.empty where
  inv := h.inv
  fs := rfl
  value t p e he := by
    unfold spte at he
    rw [h.procs] at he
    cases he

/-- **Paging of backed pages is transparent.** After any run from boot, a read of a present page that
has a supplemental entry returns the byte last stored at the address, or the initial byte, and the
page is writable as its entry says. -/
theorem reads_history {vm₀ : Vm F} {es : List Event} (hboot : Boot vm₀)
    (hrun : Runs Step BackedPaging vm₀ es vm) (t va : Nat) {e : Spte}
    (he : vm.spte t (va / 4096 * 4096) = some e) (hp : (vm.pte t va).present = true) :
    (∃ e₀, (es.foldl History.after History.empty).image t (va / 4096 * 4096) = some e₀ ∧
      vm.mem ((vm.pte t va).frame + va % 4096) =
        (es.foldl History.after History.empty).byte vm₀.fsDev e₀ t va) ∧
    (vm.pte t va).writable = e.writable := by
  have hs : Shows vm₀.fsDev vm (es.foldl History.after History.empty) :=
    Runs.simulate (R := Shows vm₀.fsDev) (f := History.after) Shows.step hrun hboot.shows
  have hpg : vm.pte t (va / 4096 * 4096) = vm.pte t va := pte_page vm t (by omega)
  have hpp : (vm.pte t (va / 4096 * 4096)).present = true := by rw [hpg, hp]
  obtain ⟨e₀, hime, -, hval⟩ := hs.value t _ e he
  refine ⟨⟨e₀, hime, ?_⟩, ?_⟩
  · rw [value_present hpp, hpg] at hval
    have hbyte := congrFun (congrArg PageVal.bytes (Option.some.inj hval))
      ⟨va % 4096, Nat.mod_lt _ (by decide)⟩
    have hva : va / 4096 * 4096 + va % 4096 = va := by omega
    simpa only [shown, History.page, hva] using hbyte
  · rw [← hpg]
    exact (hs.inv.clean t _ e he hpp).1

/-- A process with a page of text and one frame stores a byte on its stack, fetches an instruction,
which swaps the stack page out, and touches the stack again, which swaps it in. -/
def stackSwapped : List Event :=
  [loadText 0xc0100000, .store 0xc0100000 0xbffffff0 5,
    .fault ⟨true, true⟩ 0xc0100000 0x8048000 0xbffffff0,
    .fault ⟨true, true⟩ 0xc0100000 0xbffffff0 0xfffffff0]

/-- The byte survives the journey through swap. -/
theorem reads_history_stackSwapped :
    (∃ e₀, (stackSwapped.foldl History.after History.empty).image 0xc0100000 0xbffff000 = some e₀ ∧
      (stackSwapped.foldl next (bootWith 1 16 textDisk)).mem
          (((stackSwapped.foldl next (bootWith 1 16 textDisk)).pte 0xc0100000 0xbffffff0).frame +
            0xbffffff0 % 4096) =
        (stackSwapped.foldl History.after History.empty).byte textDisk e₀ 0xc0100000 0xbffffff0) ∧
    ((stackSwapped.foldl next (bootWith 1 16 textDisk)).pte 0xc0100000 0xbffffff0).writable = true :=
  reads_history (boot_bootWith 1 16 textDisk)
    (runs_of_allowed (fun vm e => decide (vm.BackedPaging e)) (fun _ _ => of_decide_eq_true)
      (by decide +kernel))
    0xc0100000 0xbffffff0 (e := ⟨true, .swap, 0, 4096, 0xbffff000⟩) (by decide +kernel)
    (by decide +kernel)

end Vm

end Pintos
