import Pintos.Lib.Ownership
import Pintos.Vm.Interleaving

/-!
# Who has a frame

A frame is mapped by a page of a process, or it is with a thread that has just got it from
`palloc_get_page` or `evict_page` and has not installed it yet. A process that exits takes its page
directory off first; the pages that `pagedir_destroy` has not reached still have their frames. These
are the *holders* of frames, and the frames in use are palloc's.

`evict_page` looks its frame up in the victim's page directory, may sleep in `swap_write`, and takes
the page out of that directory afterwards. In the meantime the victim can exit, but it cannot get to
the end of `pagedir_destroy`: it needs `ft_sema` for the first page it frees.
-/

namespace Pintos

open Lib Function Vm Pc

/-- A page of a process (by its number), or a thread with a frame that is not installed yet. -/
inductive FrameHolder
  | mapped (t n : Nat)
  | held (t : Nat)
  deriving DecidableEq, Repr

namespace Pc

/-- The frame of a thread that is about to install it. -/
def heldFrame : Pc → Option Nat
  | .insertEntry _ _ frame | .fill _ _ frame _ | .install _ _ frame _ _ => some frame
  | .evict c .done => c.frameAddr
  | _ => none

/-- The directory that the thread destroys, and the pages that it has not reached. -/
def dying : Pc → Option (Pagedir × List Nat)
  | .pagedirDestroy pd todo | .freeFrame pd _ todo => some (pd, todo)
  | _ => none

/-- The thread has a page directory. -/
def hasDir : Pc → Bool
  | .gone | .pagedirDestroy _ _ | .freeFrame _ _ _ => false
  | _ => true

/-- The thread needs `ft_sema` before it is gone. -/
def needsSema : Pc → Bool
  | .pagedirDestroy _ (_ :: _) | .freeFrame _ _ _ => true
  | _ => false

/-- In `evict_page`. -/
def isEvict : Pc → Bool
  | .evict _ _ => true
  | _ => false

end Pc

namespace Sys

variable {F : Type}

/-- Page `va` of `t` maps `frame`: its entry is present in `t->pagedir`, or in the directory that
`pagedir_destroy` is at, at a page it has not reached. -/
def maps (s : Sys F) (t va frame : Nat) : Prop :=
  ((s.vm.pte t va).present = true ∧ (s.vm.pte t va).frame = frame) ∨
    ∃ pd todo, (s.pc t).dying = some (pd, todo) ∧ va / 4096 * 4096 ∈ todo ∧
      (pd.pte (va / 4096 * 4096)).frame = frame

/-- The frames of a holder. -/
def owns (s : Sys F) : FrameHolder → Nat → Prop
  | .mapped t n, frame => s.maps t (n * 4096) frame
  | .held t, frame => (s.pc t).heldFrame = some frame

/-- While `evict_page` has not taken its page out of the victim's directory, the page is there, or
the victim has exited and waits for `ft_sema`. -/
structure VictimKept (s : Sys F) (c : EvictLocals) (frame : Nat) : Prop where
  aligned : c.oldAddr % 4096 = 0
  user : c.oldAddr < physBase
  kept : ((s.vm.pte c.victim c.oldAddr).present = true ∧
      (s.vm.pte c.victim c.oldAddr).frame = frame) ∨
    (s.vm.procs c.victim = none ∧ (s.pc c.victim).needsSema = true)

/-- The invariant. -/
structure FrameInv (s : Sys F) : Prop where
  owned : Owned s.owns fun frame => s.vm.userPool.used frame = true
  dirs : ∀ t, (s.pc t).hasDir = false → s.vm.procs t = none
  todo : ∀ t pd todo, (s.pc t).dying = some (pd, todo) →
    todo.Nodup ∧ ∀ va ∈ todo, va % 4096 = 0
  sema : ∀ t c pc, s.pc t = .evict c pc → s.ftSema = some t
  victim : ∀ t c pc frame, s.pc t = .evict c pc → pc ≠ .done → c.frameAddr = some frame →
    s.VictimKept c frame

section Steps

variable {s s' : Sys F} {t : Nat} {pc : Pc}

theorem FrameInv.procs_of_dying (h : FrameInv s) {d : Pagedir × List Nat}
    (hd : (s.pc t).dying = some d) : s.vm.procs t = none := by
  refine h.dirs t ?_
  cases hpc : s.pc t with
  | pagedirDestroy | freeFrame => rfl
  | _ => rw [hpc] at hd; cases hd

theorem not_present_of_procs {vm : Vm F} (h : vm.procs t = none) (va : Nat) :
    (vm.pte t va).present = false := by
  unfold pte
  rw [h]
  rfl

variable {c : EvictLocals} {frame : Nat}

theorem VictimKept.mono (h : s.VictimKept c frame)
    (hpc : s'.pc = update s.pc t pc)
    (hpte : s'.vm.pte c.victim c.oldAddr = s.vm.pte c.victim c.oldAddr)
    (hprocs : s.vm.procs c.victim = none → s'.vm.procs c.victim = none)
    (hneeds : (s.pc t).needsSema = true → pc.needsSema = true) : s'.VictimKept c frame := by
  refine ⟨h.aligned, h.user, ?_⟩
  rw [hpte]
  refine h.kept.imp id fun ⟨hnone, hn⟩ => ⟨hprocs hnone, ?_⟩
  rw [hpc]
  by_cases hv : c.victim = t
  · rw [hv, update_self]
    exact hneeds (hv ▸ hn)
  · rwa [update_of_ne hv]

/-- The invariant after a step of thread `t`, from what the step does to the holders and to the
victim of a thread that is in `evict_page` at the time. -/
theorem FrameInv.of_owned (h : FrameInv s) (hpc : s'.pc = update s.pc t pc)
    (howned : Owned s'.owns fun frame => s'.vm.userPool.used frame = true)
    (hprocs : ∀ t', t' ≠ t → s.vm.procs t' = none → s'.vm.procs t' = none)
    (hdir : pc.hasDir = false → s'.vm.procs t = none)
    (htodo : ∀ pd todo, pc.dying = some (pd, todo) → todo.Nodup ∧ ∀ va ∈ todo, va % 4096 = 0)
    (hself : ∀ c p, pc = .evict c p → s'.ftSema = some t ∧
      ∀ frame, p ≠ .done → c.frameAddr = some frame → s'.VictimKept c frame)
    (hother : ∀ t', t' ≠ t → s.ftSema = some t' → s'.ftSema = some t' ∧
      ∀ c frame, s.VictimKept c frame → s'.VictimKept c frame) : FrameInv s' := by
  have hat : ∀ {t'}, t' ≠ t → s'.pc t' = s.pc t' := fun hne => by
    rw [hpc, update_of_ne hne]
  have hat_self : s'.pc t = pc := by rw [hpc, update_self]
  refine
    { owned := howned
      dirs := fun t' hd => ?_
      todo := fun t' pd todo hd => ?_
      sema := fun t' c p hp => ?_
      victim := fun t' c p frame hp hne hf => ?_ }
  · by_cases ht : t' = t
    · subst ht
      exact hdir (hat_self ▸ hd)
    · exact hprocs t' ht (h.dirs t' (hat ht ▸ hd))
  · by_cases ht : t' = t
    · subst ht
      exact htodo pd todo (hat_self ▸ hd)
    · exact h.todo t' pd todo (hat ht ▸ hd)
  · by_cases ht : t' = t
    · subst ht
      exact (hself c p (hat_self ▸ hp)).1
    · exact (hother t' ht (h.sema t' c p (hat ht ▸ hp))).1
  · by_cases ht : t' = t
    · subst ht
      exact (hself c p (hat_self ▸ hp)).2 frame hne hf
    · have hp' := hat ht ▸ hp
      exact (hother t' ht (h.sema t' c p hp')).2 c frame (h.victim t' c p frame hp' hne hf)

/-- Who has a frame after a step of thread `t`: a page by its installed entry, a page of the directory
that `t` destroys, `t` itself, or a holder from before. -/
theorem owns_cases (hpc : s'.pc = update s.pc t pc) {k : FrameHolder}
    (hown : s'.owns k frame) :
    (∃ t' n, k = .mapped t' n ∧ (s'.vm.pte t' (n * 4096)).present = true ∧
      (s'.vm.pte t' (n * 4096)).frame = frame) ∨
    (∃ n pd todo, k = .mapped t n ∧ pc.dying = some (pd, todo) ∧ n * 4096 ∈ todo ∧
      (pd.pte (n * 4096)).frame = frame) ∨
    (k = .held t ∧ pc.heldFrame = some frame) ∨
    ((∀ t' n, k = .mapped t' n → t' ≠ t ∧ ∃ d, (s.pc t').dying = some d) ∧ k ≠ .held t ∧
      s.owns k frame) := by
  cases k with
  | mapped t' n =>
    rcases hown with hin | ⟨pd, todo, hd, hmem, hf⟩
    · exact .inl ⟨t', n, rfl, hin⟩
    · rw [hpc] at hd
      by_cases ht : t' = t
      · subst ht
        rw [update_self] at hd
        rw [Nat.mul_div_cancel _ (by decide)] at hmem hf
        exact .inr (.inl ⟨n, pd, todo, rfl, hd, hmem, hf⟩)
      · rw [update_of_ne ht] at hd
        refine .inr (.inr (.inr ⟨fun t'' n' hk => ?_, by simp, .inr ⟨pd, todo, hd, hmem, hf⟩⟩))
        cases hk
        exact ⟨ht, _, hd⟩
  | held t' =>
    change (s'.pc t').heldFrame = some frame at hown
    rw [hpc] at hown
    by_cases ht : t' = t
    · subst ht
      rw [update_self] at hown
      exact .inr (.inr (.inl ⟨rfl, hown⟩))
    · rw [update_of_ne ht] at hown
      exact .inr (.inr (.inr ⟨by simp, by simp [ht], hown⟩))

theorem owns_of_pte {t' n : Nat} (hp : (s.vm.pte t' (n * 4096)).present = true)
    (hf : (s.vm.pte t' (n * 4096)).frame = frame) : s.owns (.mapped t' n) frame :=
  .inl ⟨hp, hf⟩

theorem owns_of_dying {t' n : Nat} {pd : Pagedir} {todo : List Nat}
    (hd : (s.pc t').dying = some (pd, todo)) (hmem : n * 4096 ∈ todo)
    (hf : (pd.pte (n * 4096)).frame = frame) : s.owns (.mapped t' n) frame := by
  refine .inr ⟨pd, todo, hd, ?_, ?_⟩ <;> rwa [Nat.mul_div_cancel _ (by decide)]

/-- Going from `pc` to `pc'` keeps the frame of the thread or forgets it, and changes nothing about
a directory under destruction. -/
structure Quiet (pc pc' : Pc) : Prop where
  held : ∀ frame, pc'.heldFrame = some frame → pc.heldFrame = some frame
  dying : ∀ d, pc'.dying = some d → pc.dying = some d
  hasDir : pc'.hasDir = false → pc.hasDir = false

theorem Quiet.of_none {pc' : Pc} (hheld : pc'.heldFrame = none) (hdying : pc'.dying = none)
    (hdir : pc'.hasDir = true) : Quiet pc pc' :=
  ⟨by simp [hheld], by simp [hdying], by simp [hdir]⟩

theorem owns_quiet (hpc : s'.pc = update s.pc t pc) (hq : Quiet (s.pc t) pc)
    (hpte : ∀ t va, (s'.vm.pte t va).present = true → (s.vm.pte t va).present = true ∧
      (s'.vm.pte t va).frame = (s.vm.pte t va).frame)
    {k : FrameHolder} (hown : s'.owns k frame) : s.owns k frame := by
  rcases owns_cases hpc hown with ⟨t', n, rfl, hp, hf⟩ | ⟨n, pd, todo, rfl, hd, hmem, hf⟩ |
    ⟨rfl, hf⟩ | ⟨-, -, hold⟩
  · obtain ⟨hp, heq⟩ := hpte _ _ hp
    exact owns_of_pte hp (heq ▸ hf)
  · exact owns_of_dying (hq.dying _ hd) hmem hf
  · exact hq.held frame hf
  · exact hold

theorem FrameInv.quiet (h : FrameInv s) (hpc : s'.pc = update s.pc t pc)
    (hq : Quiet (s.pc t) pc) (hev : pc.isEvict = false) (hprocs : s'.vm.procs = s.vm.procs)
    (hpool : s'.vm.userPool = s.vm.userPool)
    (hsema : ∀ t', t' ≠ t → s.ftSema = some t' → s'.ftSema = some t' ∧
      ((s.pc t).needsSema = true → pc.needsSema = true)) :
    FrameInv s' := by
  have hpte := pte_of_eq hprocs
  refine h.of_owned hpc (h.owned.mono (owns_quiet hpc hq fun t va => by rw [hpte]; simp)
      (by rw [hpool]; exact id))
    (fun t' _ hn => by rw [hprocs, hn]) (fun hd => by rw [hprocs]; exact h.dirs t (hq.hasDir hd))
    (fun pd todo hd => h.todo t pd todo (hq.dying _ hd)) (fun c p hp => ?_) (fun t' ht hs => ?_)
  · rw [hp] at hev
    cases hev
  · obtain ⟨hs', hneeds⟩ := hsema t' ht hs
    exact ⟨hs', fun c frame hv => hv.mono hpc (hpte _ _) (by rw [hprocs]; exact id) hneeds⟩

theorem stays_none (h : (s'.vm.procs t).isSome = (s.vm.procs t).isSome)
    (hnone : s.vm.procs t = none) : s'.vm.procs t = none := by
  simpa [hnone] using h

section

variable (h : FrameInv s)
include h

theorem FrameInv.goto (hpc : s'.pc = update s.pc t pc) (hq : Quiet (s.pc t) pc)
    (hev : pc.isEvict = false) (hneeds : (s.pc t).needsSema = false)
    (hprocs : s'.vm.procs = s.vm.procs) (hpool : s'.vm.userPool = s.vm.userPool)
    (hsema : s'.ftSema = s.ftSema) : FrameInv s' :=
  h.quiet hpc hq hev hprocs hpool fun _ _ hs => ⟨by rw [hsema, hs], by simp [hneeds]⟩

theorem FrameInv.getPage {request : Request} {page : Nat} (hat : s.pc t = .getUserPage request page)
    (hget : pallocGetPage s.vm.userPool = (some frame, s'.vm.userPool))
    (hpc : s'.pc = update s.pc t (.insertEntry request page frame))
    (hprocs : s'.vm.procs = s.vm.procs) (hsema : s'.ftSema = s.ftSema) : FrameInv s' := by
  obtain ⟨hfree, -, -, hused⟩ := pallocGetPage_some hget
  have hpte := pte_of_eq hprocs
  refine h.of_owned hpc ?_ (fun _ _ hn => by rw [hprocs, hn]) (by simp [hasDir])
    (by simp [dying]) (by simp) (fun t' _ hs => ⟨by rw [hsema, hs], fun c frame hv =>
      hv.mono hpc (hpte _ _) (by rw [hprocs]; exact id) (by simp [hat, needsSema])⟩)
  refine h.owned.acquire (.held t) (· = frame) (fun {k f} hown => ?_)
    (fun {k f} hf hown => ?_) (fun {f} hf => ?_)
  · rcases owns_cases hpc hown with ⟨t', n, rfl, hp, hf⟩ | ⟨n, pd, todo, rfl, hd, -⟩ |
      ⟨rfl, hf⟩ | ⟨-, -, hold⟩
    · rw [hpte] at hp hf
      exact .inl (owns_of_pte hp hf)
    · cases hd
    · exact .inr ⟨rfl, (Option.some.inj hf).symm⟩
    · exact .inl hold
  · have hused := h.owned.used hown
    rw [hf, hfree] at hused
    cases hused
  · rw [hused]
    rcases hf with hf | rfl <;> simp [*]

theorem FrameInv.freePage {pd : Pagedir} {va : Nat} {todo : List Nat}
    (hat : s.pc t = .pagedirDestroy pd (va :: todo))
    (hfree : pallocFreePage s.vm.userPool (pd.pte va).frame = some s'.vm.userPool)
    (hpc : s'.pc = update s.pc t (.freeFrame pd frame todo)) (hprocs : s'.vm.procs = s.vm.procs)
    (hsema : s'.ftSema = s.ftSema) : FrameInv s' := by
  obtain ⟨-, hused⟩ := pallocFreePage_some hfree
  have hdying : (s.pc t).dying = some (pd, va :: todo) := by rw [hat]; rfl
  have hnone := h.procs_of_dying hdying
  obtain ⟨hnodup, hal⟩ := h.todo t pd _ hdying
  obtain ⟨hnot, hnodup⟩ := List.nodup_cons.mp hnodup
  have hva : va / 4096 * 4096 = va := by
    have := hal va List.mem_cons_self
    omega
  have hpte := pte_of_eq hprocs
  refine h.of_owned hpc ?_ (fun _ _ hn => by rw [hprocs, hn]) (fun _ => by rw [hprocs, hnone])
    (fun pd' todo' hd => ?_) (by simp) (fun t' _ hs => ⟨by rw [hsema, hs], fun c frame hv =>
      hv.mono hpc (hpte _ _) (by rw [hprocs]; exact id) (by simp [needsSema])⟩)
  · refine h.owned.release (.mapped t (va / 4096)) (· = (pd.pte va).frame) (fun {f} hf => ?_)
      (fun {k f} hown => ?_) (fun {f} hf hne => ?_)
    · exact owns_of_dying hdying (by simp [hva]) (by rw [hva, hf])
    · rcases owns_cases hpc hown with ⟨t', n, rfl, hp, hf⟩ | ⟨n, pd', todo', rfl, hd, hmem, hf⟩ |
        ⟨rfl, hf⟩ | ⟨hk, -, hold⟩
      · rw [hpte] at hp hf
        refine ⟨?_, owns_of_pte hp hf⟩
        rintro ⟨⟩
        rw [not_present_of_procs hnone] at hp
        cases hp
      · cases hd
        refine ⟨?_, owns_of_dying hdying (List.mem_cons_of_mem _ hmem) hf⟩
        rintro ⟨⟩
        exact hnot (hva ▸ hmem)
      · cases hf
      · exact ⟨fun h => (hk _ _ h).1 rfl, hold⟩
    · rw [hused]
      simp only [Bool.and_eq_true, Bool.not_eq_true', decide_eq_false_iff_not]
      exact ⟨hne, hf⟩
  · cases hd
    exact ⟨hnodup, fun x hx => hal x (List.mem_cons_of_mem _ hx)⟩

theorem FrameInv.install {request : Request} {page frame : Nat} {new : NewFrame}
    {writable ok alloc : Bool} {pr : Process} {pd : Pagedir}
    (hat : s.pc t = .install request page frame new writable) (hpr : s.vm.procs t = some pr)
    (hset : pagedirSetPage alloc pr.pagedir page frame writable = some (ok, pd))
    (hpc : s'.pc = update s.pc t (afterLoad request page new))
    (hvm : s'.vm = s.vm.setProc t { pr with pagedir := pd }) (hsema : s'.ftSema = s.ftSema) :
    FrameInv s' := by
  have hafter : (afterLoad request page new).heldFrame = none ∧
      (afterLoad request page new).dying = none ∧
      (afterLoad request page new).hasDir = true ∧
      (afterLoad request page new).isEvict = false := by
    cases request <;> exact ⟨rfl, rfl, rfl, rfl⟩
  obtain ⟨hheld, hdying, hdir, hev⟩ := hafter
  have hlive : ∀ t', (s'.vm.procs t').isSome = (s.vm.procs t').isSome := by
    rw [hvm]
    exact procs_update rfl (by rw [hpr]; rfl)
  have hnone := fun t' => stays_none (hlive t')
  have hpte : ((s.vm.pte t page).present = false ∧ ∀ t' va, s'.vm.pte t' va =
      if t' = t ∧ va / 4096 = page / 4096 then pteCreateUser frame writable
      else s.vm.pte t' va) ∨ ∀ t' va, s'.vm.pte t' va = s.vm.pte t' va :=
    pte_setPage hpr hset (by rw [hvm]; rfl) rfl
  have hpool : s'.vm.userPool = s.vm.userPool := by rw [hvm]; rfl
  refine h.of_owned hpc ?_ (fun t' _ => hnone t') (by simp [hdir]) (by simp [hdying])
    (fun c p hp => by rw [hp] at hev; cases hev) (fun t' ht hs => ⟨by rw [hsema, hs], ?_⟩)
  · rw [hpool]
    rcases hpte with ⟨-, hpte⟩ | hpte
    · refine h.owned.transfer (.held t) (.mapped t (page / 4096)) (fun {k f} hown => ?_) id
      rcases owns_cases hpc hown with ⟨t', n, rfl, hp, hf⟩ | ⟨n, pd', todo', rfl, hd, -⟩ |
        ⟨rfl, hf⟩ | ⟨-, hk, hold⟩
      · rw [hpte] at hp hf
        split at hf
        · next hpage =>
          obtain ⟨rfl, hn⟩ := hpage
          rw [Nat.mul_div_cancel _ (by decide)] at hn
          subst hn
          refine .inl ⟨rfl, ?_⟩
          show (s.pc t').heldFrame = some f
          rw [hat, ← hf]
          rfl
        · next hpage =>
          rw [if_neg hpage] at hp
          exact .inr ⟨by simp, owns_of_pte hp hf⟩
      · rw [hdying] at hd
        cases hd
      · rw [hheld] at hf
        cases hf
      · exact .inr ⟨hk, hold⟩
    · exact h.owned.mono (owns_quiet hpc (.of_none hheld hdying hdir)
        fun t va => by rw [hpte]; simp) id
  · intro c f hv
    refine ⟨hv.aligned, hv.user, hv.kept.imp (fun ⟨hp, hf⟩ => ?_) fun ⟨hn, hneeds⟩ => ?_⟩
    · rcases hpte with ⟨hnp, hpte⟩ | hpte
      · rw [hpte, if_neg]
        · exact ⟨hp, hf⟩
        · rintro ⟨hvt, hpage⟩
          rw [hvt, pte_page s.vm t hpage, hnp] at hp
          cases hp
      · rw [hpte]
        exact ⟨hp, hf⟩
    · have hvt : c.victim ≠ t := fun hvt => by
        rw [hvt, hpr] at hn
        cases hn
      exact ⟨hnone _ hn, by rw [hpc, update_of_ne hvt]; exact hneeds⟩

theorem FrameInv.select {pr : Process} (hsema : s.ftSema = none)
    (hpr : s.vm.procs c.victim = some pr) (hold : c.oldAddr < physBase ∧ c.oldAddr % 4096 = 0)
    (hframe : c.frameAddr = pagedirGetPage pr.pagedir c.oldAddr)
    (hpc : s'.pc = update s.pc t (.evict c .test)) (hprocs : s'.vm.procs = s.vm.procs)
    (hpool : s'.vm.userPool = s.vm.userPool) (hsema' : s'.ftSema = some t) : FrameInv s' := by
  have hpte := pte_of_eq hprocs
  refine h.of_owned hpc (h.owned.mono (owns_quiet hpc (.of_none rfl rfl rfl) fun t va => by
    rw [hpte]; simp) (by rw [hpool]; exact id))
    (fun _ _ hn => by rw [hprocs, hn]) (by simp [hasDir]) (by simp [dying])
    (fun c' p hp => ⟨hsema', fun f _ hf => ?_⟩) (fun t' _ hs => by rw [hsema] at hs; cases hs)
  cases hp
  refine ⟨hold.2, hold.1, .inl ?_⟩
  rw [hframe, pagedirGetPage] at hf
  rw [hpte, pte_of_procs hpr]
  split at hf
  · next hp =>
    rw [hold.2, Nat.add_zero] at hf
    exact ⟨hp, Option.some.inj hf⟩
  · cases hf

theorem FrameInv.evict {c : EvictLocals} {src : Option Nat} {p p' : EvictPc}
    (hat : s.pc t = .evict c p) (hne : p ≠ .clear)
    (hstep : s.vm.evictStep src c.victim c.oldAddr p = some (p', s'.vm))
    (hpc : s'.pc = update s.pc t (.evict c p')) (hsema : s'.ftSema = s.ftSema) : FrameInv s' := by
  obtain ⟨hpool, -, hlive⟩ := evictStep_kept hstep
  have hpte : ∀ t va, s'.vm.pte t va = s.vm.pte t va := fun t va => by
    rw [evictStep_pte hstep, if_neg fun h => hne h.1]
  have hnone := fun t' => stays_none (hlive t')
  have hnext : p' ≠ .done := evictStep_ne_done hne hstep
  have hq : Quiet (s.pc t) (.evict c p') := by
    refine ⟨fun f hf => ?_, by simp [dying], by simp [hasDir]⟩
    cases p' <;> first | cases hf | exact absurd rfl hnext
  have hpdone : p ≠ .done := by
    rintro rfl
    cases hstep
  refine h.of_owned hpc (h.owned.mono (owns_quiet hpc hq fun t va => by rw [hpte]; simp)
      (by rw [hpool]; exact id)) (fun t' _ => hnone t') (by simp [hasDir]) (by simp [dying])
    (fun c' q hq => ⟨by rw [hsema]; exact h.sema t c p hat, fun f _ hf => ?_⟩)
    (fun t' ht hs => ?_)
  · cases hq
    exact (h.victim t c p f hat hpdone hf).mono hpc (hpte _ _) (hnone _) (by simp [hat, needsSema])
  · rw [h.sema t c p hat] at hs
    exact absurd (Option.some.inj hs).symm ht

theorem FrameInv.clear {src : Option Nat} {p' : EvictPc} (hat : s.pc t = .evict c .clear)
    (hstep : s.vm.evictStep src c.victim c.oldAddr .clear = some (p', s'.vm))
    (hpc : s'.pc = update s.pc t (.evict c p')) (hsema : s'.ftSema = s.ftSema) : FrameInv s' := by
  obtain ⟨hpool, -, hlive⟩ := evictStep_kept hstep
  have hpte := evictStep_pte hstep
  obtain ⟨pr, hpr, rfl, -⟩ := evictStep_clear hstep
  have hnone := fun t' => stays_none (hlive t')
  have hpres : ∀ t va, (s'.vm.pte t va).present = true → (s.vm.pte t va).present = true ∧
      (s'.vm.pte t va).frame = (s.vm.pte t va).frame := by
    intro t va hp
    rw [hpte] at hp ⊢
    split at hp
    · cases hp
    · next hne =>
      rw [if_neg hne]
      exact ⟨hp, rfl⟩
  refine h.of_owned hpc ?_ (fun t' _ => hnone t') (by simp [hasDir]) (by simp [dying])
    (fun c' q hq => ⟨by rw [hsema]; exact h.sema t c _ hat, fun f hne => ?_⟩) (fun t' ht hs => ?_)
  · rw [hpool]
    cases hf : c.frameAddr with
    | none =>
      exact h.owned.mono (owns_quiet hpc (.of_none hf rfl rfl) hpres) id
    | some frame =>
      have hv := h.victim t c _ frame hat (by simp) hf
      have hold : c.oldAddr / 4096 * 4096 = c.oldAddr := by
        have := hv.aligned
        omega
      refine h.owned.transfer (.mapped c.victim (c.oldAddr / 4096)) (.held t)
        (fun {k f} hown => ?_) id
      rcases owns_cases hpc hown with ⟨t', n, rfl, hp, hf'⟩ | ⟨n, pd', todo', rfl, hd, -⟩ |
        ⟨rfl, hf'⟩ | ⟨hk, -, hown⟩
      · obtain ⟨hp', heq⟩ := hpres _ _ hp
        refine .inr ⟨?_, owns_of_pte hp' (heq ▸ hf')⟩
        rintro ⟨⟩
        rw [hpte, if_pos ⟨rfl, rfl, by rw [hold]⟩] at hp
        cases hp
      · cases hd
      · refine .inl ⟨rfl, ?_⟩
        change c.frameAddr = some f at hf'
        rw [hf] at hf'
        cases hf'
        rcases hv.kept with ⟨hp, hfr⟩ | ⟨hn, -⟩
        · exact owns_of_pte (by rw [hold]; exact hp) (by rw [hold]; exact hfr)
        · rw [hpr] at hn
          cases hn
      · -- The victim has a directory, so that it is not destroying one.
        refine .inr ⟨fun h' => ?_, hown⟩
        obtain ⟨-, d, hd⟩ := hk _ _ h'
        rw [h.procs_of_dying hd] at hpr
        cases hpr
  · cases hq
    exact absurd rfl hne
  · rw [h.sema t c _ hat] at hs
    exact absurd (Option.some.inj hs).symm ht

theorem FrameInv.processExit {pr : Process} (hat : s.pc t = .processExit)
    (hpr : s.vm.procs t = some pr)
    (hpc : s'.pc = update s.pc t (.pagedirDestroy pr.pagedir (pagedirPages pr.pagedir)))
    (hprocs : s'.vm.procs = update s.vm.procs t none) (hpool : s'.vm.userPool = s.vm.userPool)
    (hsema : s'.ftSema = s.ftSema) : FrameInv s' := by
  have hnone : s'.vm.procs t = none := by rw [hprocs, update_self]
  have hothers : ∀ t', t' ≠ t → s'.vm.procs t' = s.vm.procs t' := fun t' ht => by
    rw [hprocs, update_of_ne ht]
  have hpte : ∀ t' va, t' ≠ t → s'.vm.pte t' va = s.vm.pte t' va := fun t' va ht => by
    unfold pte
    rw [hothers t' ht]
  refine h.of_owned hpc (h.owned.mono (fun {k f} hown => ?_) (by rw [hpool]; exact id))
    (fun t' ht hn => by rw [hothers t' ht, hn]) (fun _ => hnone) (fun pd todo hd => ?_) (by simp)
    (fun t' _ hs => ⟨by rw [hsema, hs], fun c f hv => ?_⟩)
  · rcases owns_cases hpc hown with ⟨t', n, rfl, hp, hf⟩ | ⟨n, pd, todo, rfl, hd, hmem, hf⟩ |
      ⟨rfl, hf⟩ | ⟨-, -, hold⟩
    · by_cases ht : t' = t
      · subst ht
        rw [not_present_of_procs hnone] at hp
        cases hp
      · rw [hpte t' _ ht] at hp hf
        exact owns_of_pte hp hf
    · cases hd
      obtain ⟨-, -, hp⟩ := mem_pagedirPages.mp hmem
      rw [← pte_of_procs hpr] at hp hf
      exact owns_of_pte hp hf
    · cases hf
    · exact hold
  · cases hd
    exact ⟨pagedirPages_nodup _, fun va hva => (mem_pagedirPages.mp hva).1⟩
  · by_cases hv' : c.victim = t
    · -- The victim exits; the page of `evict_page` is still to be visited.
      refine ⟨hv.aligned, hv.user, .inr ⟨by rw [hv', hnone], ?_⟩⟩
      rw [hpc, hv', update_self]
      rcases hv.kept with ⟨hp, -⟩ | ⟨hn, -⟩
      · rw [hv', pte_of_procs hpr] at hp
        have hmem := mem_pagedirPages.mpr ⟨hv.aligned, hv.user, hp⟩
        cases hpages : pagedirPages pr.pagedir with
        | nil => rw [hpages] at hmem; cases hmem
        | cons => rfl
      · rw [hv', hpr] at hn
        cases hn
    · exact hv.mono hpc (hpte _ _ hv') (by rw [hothers _ hv']; exact id)
        (by simp [hat, needsSema])

theorem FrameInv.load {pr : Process} (hat : s.pc t = .gone) (hempty : pr.pagedir = pagedirCreate)
    (hpc : s'.pc = update s.pc t pc)
    (hq : pc.heldFrame = none ∧ pc.dying = none ∧ pc.hasDir = true ∧ pc.isEvict = false)
    (hvm : s'.vm = s.vm.setProc t pr) (hsema : s'.ftSema = s.ftSema) : FrameInv s' := by
  obtain ⟨hheld, hdying, hdir, hev⟩ := hq
  have hnone := h.dirs t (by rw [hat]; rfl)
  have hothers : ∀ t', t' ≠ t → s'.vm.procs t' = s.vm.procs t' := fun t' ht => by
    rw [hvm, setProc]
    exact update_of_ne ht _ _
  have hpte : ∀ t' va, s'.vm.pte t' va = if t' = t then Pte.zero else s.vm.pte t' va := by
    intro t' va
    rw [hvm, pte_update (t := t) rfl t' va, hempty, pte_create]
  have hpool : s'.vm.userPool = s.vm.userPool := by rw [hvm]; rfl
  refine h.of_owned hpc
    (h.owned.mono (owns_quiet hpc (.of_none hheld hdying hdir) ?_)
      (by rw [hpool]; exact id))
    (fun t' ht hn => by rw [hothers t' ht, hn]) (by simp [hdir]) (by simp [hdying])
    (fun c p hp => by rw [hp] at hev; cases hev) (fun t' _ hs => ⟨by rw [hsema, hs], fun c f hv => ?_⟩)
  · intro t' va hp
    rw [hpte] at hp ⊢
    split at hp
    · cases hp
    · next hne =>
      rw [if_neg hne]
      exact ⟨hp, rfl⟩
  · -- A thread that is gone is nobody's victim.
    have hvt : c.victim ≠ t := by
      intro hvt
      rcases hv.kept with ⟨hp, -⟩ | ⟨-, hn⟩
      · rw [hvt, not_present_of_procs hnone] at hp
        cases hp
      · rw [hvt, hat] at hn
        cases hn
    exact hv.mono hpc (by rw [hpte, if_neg hvt]) (by rw [hothers _ hvt]; exact id)
      (by simp [hat, needsSema])

theorem FrameInv.store {va : Nat} {b : UInt8} (hat : s.pc t = .user)
    (hst : Vm.Stored s.vm s'.vm t va b) (hpc : s'.pc = s.pc) (hsema : s'.ftSema = s.ftSema) :
    FrameInv s' := by
  have hpc' : s'.pc = update s.pc t .user := by
    rw [hpc, ← hat, update_eq_self]
  have hsame : ∀ t' va', (s'.vm.pte t' va').present = (s.vm.pte t' va').present ∧
      (s'.vm.pte t' va').frame = (s.vm.pte t' va').frame := by
    intro t' va'
    rw [hst.pte]
    split <;> exact ⟨rfl, rfl⟩
  have hnone : ∀ t', s.vm.procs t' = none → s'.vm.procs t' = none := fun t' hn => by
    have := hst.procs t'
    rw [hn] at this
    simpa using this
  refine h.of_owned hpc'
    (h.owned.mono (owns_quiet hpc' (.of_none rfl rfl rfl)
      fun t' va' hp => ?_) (by rw [hst.userPool]; exact id))
    (fun t' _ => hnone t') (by simp [hasDir]) (by simp [dying]) (by simp)
    (fun t' _ hs => ⟨by rw [hsema, hs], fun c f hv => ?_⟩)
  · rw [(hsame t' va').1] at hp
    exact ⟨hp, (hsame t' va').2⟩
  · refine ⟨hv.aligned, hv.user, ?_⟩
    rw [(hsame _ _).1, (hsame _ _).2, hpc]
    exact hv.kept.imp id fun ⟨hn, hneeds⟩ => ⟨hnone _ hn, hneeds⟩

end

end Steps

/-! ## Every run -/

variable [FrameTableOps F] {s s' : Sys F}

theorem FrameInv.step {e : Act} (h : FrameInv s) (hstep : Step s e s') : FrameInv s' := by
  -- The thread that is at the end of `evict_page` has `ft_sema`.
  have hrekey : ∀ {t c}, s.pc t = .evict c .done → ∀ t', t' ≠ t → s.ftSema ≠ some t' := by
    intro t c hpc t' ht hs
    rw [h.sema t c _ hpc] at hs
    exact ht (Option.some.inj hs).symm
  cases trans_of_step hstep with
  | getPage hpc hget => exact h.getPage hpc hget rfl rfl rfl
  | noPage hpc => exact h.goto rfl (.of_none rfl rfl rfl) rfl (by rw [hpc]; rfl) rfl rfl rfl
  | insert hpc hsema =>
    refine h.goto rfl ?_ rfl (by rw [hpc]; rfl) rfl rfl rfl
    rw [hpc]
    exact ⟨fun _ hf => hf, fun _ hd => hd, fun hd => hd⟩
  | select hpc hsema hsel hpr hold =>
    exact h.select hsema hpr hold rfl rfl rfl rfl rfl
  | @evict a t c pc pc' vm hpc _ hev =>
    by_cases hclear : pc = .clear
    · subst hclear
      exact h.clear hpc hev rfl rfl
    · exact h.evict hpc hclear hev rfl rfl
  | rekey hpc hkey hframe =>
    refine h.quiet rfl ?_ rfl rfl rfl fun t' ht hs => absurd hs (hrekey hpc t' ht)
    rw [hpc]
    exact ⟨fun f hf => hframe.trans hf, by simp [dying], by simp [hasDir]⟩
  | rekeyNull hpc hkey hframe hpr =>
    exact h.quiet rfl (.of_none rfl rfl rfl) rfl rfl rfl
      fun t' ht hs => absurd hs (hrekey hpc t' ht)
  | zero hpc | fill hpc hspte hfill =>
    refine h.goto rfl ?_ rfl (by rw [hpc]; rfl) rfl rfl rfl
    rw [hpc]
    exact ⟨fun _ hf => hf, fun _ hd => hd, fun hd => hd⟩
  | noEntry hpc | noStack hpc _ | found hpc _ _ | notFound hpc _ _ | tryDown hpc | up hpc
  | supdirSkip hpc | supdirPick hpc _ _ | swapRemove hpc _ | supdirFree hpc
  | pageIn hpc | quit hpc _ =>
    exact h.goto rfl (.of_none rfl rfl rfl) rfl (by rw [hpc]; rfl) rfl rfl rfl
  | install hpc hpr hset => exact h.install hpc hpr hset rfl rfl rfl
  | processExit hpc hpr => exact h.processExit hpc hpr rfl rfl rfl rfl
  | freePage hpc hfree => exact h.freePage hpc hfree rfl rfl rfl
  | freeFrame hpc hsema hfree =>
    refine h.quiet rfl ?_ rfl rfl rfl fun t' _ hs => ?_
    · rw [hpc]
      exact ⟨fun _ hf => hf, fun _ hd => hd, fun hd => hd⟩
    · rw [hsema] at hs
      cases hs
  | exited hpc =>
    refine h.goto rfl ?_ rfl (by rw [hpc]; rfl) rfl rfl rfl
    rw [hpc]
    exact ⟨by simp [heldFrame], by simp [dying], fun _ => rfl⟩
  | load hpc | loadFail hpc => exact h.load hpc rfl rfl ⟨rfl, rfl, rfl, rfl⟩ rfl rfl
  | store hpc hp hst => exact h.store hpc (storeByte_ok hst).1 rfl rfl
  | nothing => exact h

theorem Boot.frameInv (h : Boot s) : FrameInv s := by
  have hown : ∀ k frame, ¬ s.owns k frame := by
    intro k frame hown
    cases k with
    | mapped t n =>
      rcases hown with ⟨hp, -⟩ | ⟨pd, todo, hd, -⟩
      · rw [not_present_of_procs (h.vm.procs t)] at hp
        cases hp
      · rw [h.pc] at hd
        cases hd
    | held t =>
      change (s.pc t).heldFrame = some frame at hown
      rw [h.pc] at hown
      cases hown
  exact
    { owned := ⟨fun hk => absurd hk (hown _ _), fun hk => absurd hk (hown _ _)⟩
      dirs := fun t _ => h.vm.procs t
      todo := fun t pd todo hd => by rw [h.pc] at hd; cases hd
      sema := fun t c pc hp => by rw [h.pc] at hp; cases hp
      victim := fun t c pc frame hp => by rw [h.pc] at hp; cases hp }

/-- **Frames are owned exclusively.** However page faults, evictions and exits interleave: no two
pages map the same frame, palloc does not regard a mapped frame as free, and a frame that
`evict_page` is about to return is in use and mapped by no page. -/
theorem frames_exclusive {s₀ : Sys F} {es : List Act} (hboot : Boot s₀)
    (hrun : Runs Step (fun _ _ => True) s₀ es s) :
    (∀ t va t' va' frame, s.maps t va frame → s.maps t' va' frame →
      t = t' ∧ va / 4096 = va' / 4096) ∧
    (∀ t va frame, s.maps t va frame → s.vm.userPool.used frame = true) ∧
    (∀ t c frame, s.pc t = .evict c .done → c.frameAddr = some frame →
      s.vm.userPool.used frame = true ∧ ∀ t' va, ¬ s.maps t' va frame) := by
  have h : FrameInv s :=
    Runs.invariant (fun hi _ hstep => FrameInv.step hi hstep) hrun hboot.frameInv
  have hmapped : ∀ {t va frame}, s.maps t va frame → s.owns (.mapped t (va / 4096)) frame := by
    intro t va frame hm
    have hva : va / 4096 * 4096 / 4096 = va / 4096 := Nat.mul_div_cancel _ (by decide)
    show s.maps t (va / 4096 * 4096) frame
    unfold maps at hm ⊢
    rwa [pte_page s.vm t hva, hva]
  refine ⟨fun t va t' va' frame hm hm' => ?_, fun t va frame hm => h.owned.used (hmapped hm),
    fun t c frame hpc hf => ?_⟩
  · have := h.owned.excl (hmapped hm) (hmapped hm')
    simpa using this
  · have hheld : s.owns (.held t) frame := by
      show (s.pc t).heldFrame = some frame
      rw [hpc]
      exact hf
    exact ⟨h.owned.used hheld, fun t' va hm => by cases h.owned.excl hheld (hmapped hm)⟩

/-- Two processes with their stacks in memory, and no free frame. Both store to their stacks; the
second one faults, and its `evict_page` is in `swap_write` when the first one exits. -/
def exitDuringSwapWrite : List Act :=
  loadText 0xc0100000 ++ loadText 0xc0101000 ++
    [.store 0xc0100000 0xbffffff0 1, .store 0xc0101000 0xbffffff0 1,
      .fault 0xc0101000 0x8048000 0xbffffff0] ++
    runs 0xc0101000 4 ++ [.exit 0xc0100000] ++ runs 0xc0100000 5

/-- The state after these events. -/
def duringSwapWrite : Sys FrameTable :=
  exitDuringSwapWrite.foldl (after step) (bootWith 2 16 Vm.textDisk)

theorem runs_duringSwapWrite :
    Runs Step (fun _ _ => True) (bootWith 2 16 Vm.textDisk) exitDuringSwapWrite duringSwapWrite :=
  runs_of_allows (fun _ _ => true) (fun _ _ _ => trivial) (by decide +kernel)

theorem frames_exclusive_duringSwapWrite :
    (∀ t va t' va' frame, duringSwapWrite.maps t va frame → duringSwapWrite.maps t' va' frame →
      t = t' ∧ va / 4096 = va' / 4096) ∧
    (∀ t va frame, duringSwapWrite.maps t va frame →
      duringSwapWrite.vm.userPool.used frame = true) ∧
    (∀ t c frame, duringSwapWrite.pc t = .evict c .done → c.frameAddr = some frame →
      duringSwapWrite.vm.userPool.used frame = true ∧
        ∀ t' va, ¬ duringSwapWrite.maps t' va frame) :=
  frames_exclusive (boot_bootWith 2 16 textDisk) runs_duringSwapWrite

/-- `t` waits in `free_frame`: the entry of page `va` is present in the directory it destroys, and
the entry's frame is free. -/
def freedPresent (s : Sys F) (t va : Nat) : Bool :=
  match s.pc t with
  | .freeFrame pd frame _ =>
    (pd.pte va).present && (pd.pte va).frame == frame && !s.vm.userPool.used frame
  | _ => false

/-- `t` is in the loop of `swap_write`. -/
def inSwapWrite (s : Sys F) (t : Nat) : Bool :=
  match s.pc t with
  | .evict _ (.write _ _) => true
  | _ => false

/-- While `evict_page` of one process waits for the disk, another process has given a frame back to
palloc and waits for `ft_sema`; in the directory it destroys, the entry of the frame is present. -/
theorem destroyed_pte_maps_free :
    Runs Step (fun _ _ => True) (bootWith 2 16 Vm.textDisk) exitDuringSwapWrite duringSwapWrite ∧
      duringSwapWrite.inSwapWrite 0xc0101000 = true ∧
      ∃ pd frame todo, duringSwapWrite.pc 0xc0100000 = .freeFrame pd frame todo ∧
        (pd.pte 0xbffff000).present = true ∧ (pd.pte 0xbffff000).frame = frame ∧
        duringSwapWrite.vm.userPool.used frame = false := by
  refine ⟨runs_duringSwapWrite, by decide +kernel, ?_⟩
  have hfreed : freedPresent duringSwapWrite 0xc0100000 0xbffff000 = true := by decide +kernel
  unfold freedPresent at hfreed
  split at hfreed
  · next pd frame todo hpc =>
    simp only [Bool.and_eq_true, beq_iff_eq, Bool.not_eq_true'] at hfreed
    exact ⟨pd, frame, todo, hpc, hfreed.1.1, hfreed.1.2, hfreed.2⟩
  · cases hfreed

end Sys

end Pintos
