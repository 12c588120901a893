import Pintos.Userprog.ProcessSteps

/-!
# When thread pages are freed

`struct thread` and the kernel stack of a thread lie in one page. `process_wait` frees the page of a
child, `process_exit` those of children that have exited and, for an orphan, its own; `sys_exec`
gives up the page of a child that failed to load. Here a step is a list of accesses to thread pages,
in the order of the source, also where the kernel does not survive them and `Tree.step` has no step.
-/

namespace Pintos.Process

open Lib Function List

/-- An access to the thread page `a`. -/
inductive Access
  | use (a : Nat)
  | free (a : Nat)
  deriving DecidableEq, Repr

namespace Tree

/-- The accesses can be made one after another: a page is used only while it is allocated, and freed
only while it is allocated and after its thread was switched out for the last time. -/
def safe (s : Tree) : List Access → Bool
  | [] => true
  | .use a :: rest => (s.page a).isSome && s.safe rest
  | .free a :: rest => (s.page a).any (fun x => x.pc = .dying) && (s.free a).safe rest

/-- What the next step of thread `t`, which is `x`, uses and frees besides its own page. Where a list
is searched or an element is taken out of it, all its elements are counted as used. -/
def stepAccesses (s : Tree) (t : Nat) (x : Thread) : List Access :=
  match x.pc with
  | .setSuccess _ | .upLoadSema _ => x.parent.toList.map .use
  -- `process_execute` has still to find the new child and to write its `files`.
  | .downLoadSema _ | .processWait _ => x.children.map .use
  | .dropFailed _ _ => if x.success then [] else x.children.map .use
  | .downChildSema c _ | .readStatus c _ => [.use c]
  | .removeChild tid _ =>
    x.children.map .use ++
      match childelemFromTid s.page tid x.children with
      | some (some c) => [.free c]
      | _ => []
  | .orphan (c :: _) => [.use c]
  -- After `palloc_free_page (child)` the loop reads `list_next (e)` from the page.
  | .processExit (c :: _) =>
    .use c :: if (s.page c).any fun child => 0 < child.childSema then [.free c, .use c] else []
  -- After `palloc_free_page (cur)` the thread goes on in `thread_exit`.
  | .testParent => if x.parent.isSome then [] else [.free t, .use t]
  | _ => []

/-- The thread that takes a step. -/
def actor (s : Tree) : Event → Nat
  | .run t | .load t _ | .exec t _ | .wait t _ | .exit t _ | .kill t => t
  | .runTask _ => s.initialThread

/-- What a step uses and frees. -/
def accesses (s : Tree) (e : Event) : List Access :=
  match s.page (s.actor e) with
  | none => []
  | some x =>
    .use (s.actor e) ::
      match e with
      | .run t => s.stepAccesses t x
      -- `list_push_back` in `thread_create`
      | .runTask _ | .exec _ _ => x.children.map .use
      | _ => []

/-- Loads succeed, a thread that exits has waited for all its children, and `process_wait` frees no
child that is still on its way to the last `schedule`. -/
def orderly (s : Tree) : Event → Bool
  | .load _ success => success
  | .exit t _ | .kill t => (s.page t).all fun x => x.children = []
  | .run t =>
    match s.page t with
    | none => true
    | some x =>
      match x.pc with
      | .removeChild tid _ =>
        match childelemFromTid s.page tid x.children with
        | some (some c) => (s.page c).all fun child => child.pc ≠ .switchOut
        | _ => true
      | _ => true
  | _ => true

/-- The thread `tid` has been switched out for the last time, or its page is freed. -/
def exited (s : Tree) (tid : Int) : Prop :=
  ∀ a x, s.page a = some x → x.tid = tid → x.pc = .dying

theorem safe_uses {s : Tree} {pages : List Nat} (rest : List Access)
    (h : ∀ a ∈ pages, (s.page a).isSome = true) :
    s.safe (pages.map .use ++ rest) = s.safe rest := by
  induction pages with
  | nil => rfl
  | cons a pages ih =>
    show ((s.page a).isSome && s.safe (pages.map .use ++ rest)) = _
    rw [h a mem_cons_self, ih fun b hb => h b (mem_cons_of_mem a hb), Bool.true_and]

end Tree

open Process.Tree

/-! ## The invariant -/

/-- What holds for a thread alone. -/
structure PageOk (initial a : Nat) (x : Thread) : Prop where
  childless : x.pc.destructs = true ∨ x.pc.destructed = true → x.children = []
  loops : ∀ todo, x.pc = .orphan todo ∨ x.pc = .processExit todo → todo = []
  parent : a ≠ initial → x.parent ≠ none
  sema : 0 < x.childSema → x.pc.posted = true

/-- Every thread is in the list of the thread that created it, and only a thread that has called
`sema_up` in `process_exit` is about to be freed. -/
structure PageInv (s : Tree) : Prop where
  loads : ∀ tid, .loaded tid false ∉ s.log
  born : ∀ {p k}, .created p k ∈ s.log → k < s.nextTid
  thread : ∀ {a x}, s.page a = some x → PageOk s.initialThread a x
  reaps : ∀ {p x c y}, s.page p = some x → s.page c = some y → x.pc.reaps c y.tid = true →
    y.pc.posted = true
  home : ∀ {c y p}, s.page c = some y → .created p y.tid ∈ s.log →
    ∃ q x, s.page q = some x ∧ x.tid = p ∧ c ∈ x.children

theorem PageOk.of_going {initial a : Nat} {x : Thread} (hdes : x.pc.destructs = false)
    (hdesd : x.pc.destructed = false) (hparent : a ≠ initial → x.parent ≠ none)
    (hsema : x.childSema = 0) : PageOk initial a x := by
  refine ⟨?_, ?_, hparent, fun hpos => absurd hsema (Nat.pos_iff_ne_zero.mp hpos)⟩
  · rw [hdes, hdesd]
    rintro (he | he) <;> cases he
  · rintro todo (he | he)
    all_goals
      rw [he] at hdesd
      cases hdesd

section Steps

variable {s s' : Tree} {t : Nat} {x x' : Thread}

/-- `log` has no failed load, and no thread that `s` does not have. -/
structure Tree.Tells (s : Tree) (log : List Note) : Prop where
  loads : ∀ tid, .loaded tid false ∉ log
  created : ∀ {p k}, .created p k ∈ log → .created p k ∈ s.log

section

variable (h : PageInv s)
include h

theorem PageInv.tells : s.Tells s.log := ⟨h.loads, id⟩

theorem PageInv.tells_cons {n : Note} (hl : ∀ tid, n ≠ .loaded tid false)
    (hc : ∀ p k, n ≠ .created p k) : s.Tells (n :: s.log) := by
  refine ⟨fun tid hmem => ?_, fun {p k} hmem => ?_⟩
  · rcases mem_cons.mp hmem with he | hmem
    · exact hl tid he.symm
    · exact h.loads tid hmem
  · rcases mem_cons.mp hmem with he | hmem
    · exact absurd he.symm (hc p k)
    · exact hmem

section

variable (hx : s.page t = some x)
include hx

theorem PageInv.sema_eq (hpost : x.pc.posted = false) : x.childSema = 0 := by
  by_contra hne
  have hposted := (h.thread hx).sema (Nat.pos_of_ne_zero hne)
  rw [hpost] at hposted
  cases hposted

theorem PageInv.move {log : List Note} (htid : x'.tid = x.tid)
    (hchildren : x'.children = x.children) (hlog : s.Tells log) (hok : PageOk s.initialThread t x')
    (hreaps : ∀ c y, s.page c = some y → x'.pc.reaps c y.tid = true → y.pc.posted = true)
    (hposted : x.pc.posted = true → x'.pc.posted = true) :
    PageInv { s with page := update s.page t (some x'), log := log } := by
  -- a thread of the new state, as it was before
  have hold : ∀ {a z}, update s.page t (some x') a = some z →
      ∃ z₀, s.page a = some z₀ ∧ z.tid = z₀.tid ∧ (z₀.pc.posted = true → z.pc.posted = true) := by
    intro a z hz
    rcases update_eq_some hz with ⟨rfl, rfl⟩ | ⟨-, hz₀⟩
    · exact ⟨x, hx, htid, hposted⟩
    · exact ⟨z, hz₀, rfl, id⟩
  refine ⟨hlog.loads, fun hc => h.born (hlog.created hc), fun {a z} hz => ?_,
    fun {p z c y} hz hy hr => ?_, fun {c y p} hy hc => ?_⟩
  · rcases update_eq_some hz with ⟨rfl, rfl⟩ | ⟨-, hz₀⟩
    · exact hok
    · exact h.thread hz₀
  · obtain ⟨y₀, hy₀, htid₀, hpost⟩ := hold hy
    rw [htid₀] at hr
    apply hpost
    rcases update_eq_some hz with ⟨rfl, rfl⟩ | ⟨-, hz₀⟩
    · exact hreaps c y₀ hy₀ hr
    · exact h.reaps hz₀ hy₀ hr
  · obtain ⟨y₀, hy₀, htid₀, -⟩ := hold hy
    rw [htid₀] at hc
    obtain ⟨q, z, hz, hq, hmem⟩ := h.home hy₀ (hlog.created hc)
    by_cases hqt : q = t
    · subst hqt
      cases hx.symm.trans hz
      exact ⟨q, x', update_self .., htid.trans hq, hchildren ▸ hmem⟩
    · exact ⟨q, z, (update_of_ne hqt ..).trans hz, hq, hmem⟩

theorem PageInv.goes {log : List Note} {pc : ThreadPc} (hlog : s.Tells log)
    (hpost : x.pc.posted = false) (hdes : pc.destructs = false) (hdesd : pc.destructed = false)
    (hreaps : ∀ c y, s.page c = some y → pc.reaps c y.tid = true → y.pc.posted = true)
    (hx' : x' = { x with loadSema := x'.loadSema, pc := pc }) :
    PageInv { s with page := update s.page t (some x'), log := log } := by
  have hpc : x'.pc = pc := by rw [hx']
  have hok : PageOk s.initialThread t x' := by
    rw [hx']
    exact .of_going hdes hdesd (h.thread hx).parent (h.sema_eq (x := x) hx hpost)
  exact h.move hx (by rw [hx']) (by rw [hx']) hlog hok (by rwa [hpc]) (by simp [hpost])

theorem PageInv.exits {log : List Note} (hnone : x.children = []) (hlog : s.Tells log)
    (hloop : ∀ todo, x'.pc = .orphan todo ∨ x'.pc = .processExit todo → todo = [])
    (hreaps : ∀ c tid, x'.pc.reaps c tid = false)
    (hposted : x.pc.posted = true → x'.pc.posted = true)
    (hsema : x'.childSema ≠ x.childSema → x'.pc.posted = true) (hx' : x' = { x with
      childSema := x'.childSema, returnStatus := x'.returnStatus, pc := x'.pc }) :
    PageInv { s with page := update s.page t (some x'), log := log } := by
  have hchildren : x'.children = x.children := by rw [hx']
  refine h.move hx (by rw [hx']) hchildren hlog
    ⟨fun _ => hchildren.trans hnone, hloop, ?_, fun hpos => ?_⟩ (fun c y _ hr => ?_) hposted
  · rw [hx']
    exact (h.thread hx).parent
  · by_cases heq : x'.childSema = x.childSema
    · exact hposted ((h.thread hx).sema (heq ▸ hpos))
    · exact hsema heq
  · rw [hreaps] at hr
    cases hr

end

section

variable (ht : TreeInv False s)
include ht

theorem PageInv.threadCreate {a : Nat} {pc : Int → ThreadPc} (hx : s.page t = some x)
    (hrun : x.pc = .running) (hpc : pc = .processWait ∨ pc = .downLoadSema)
    (hcreate : s.threadCreate t x a pc = some s') : PageInv s' := by
  unfold Tree.threadCreate at hcreate
  split at hcreate
  case isFalse => cases hcreate
  next hfree =>
    cases hcreate
    have hat : t ≠ a := by
      rintro rfl
      rw [hfree.1] at hx
      cases hx
    have hquiet : (pc s.nextTid).destructs = false ∧ (pc s.nextTid).destructed = false ∧
        ∀ c tid, (pc s.nextTid).reaps c tid = false := by
      rcases hpc with rfl | rfl <;> exact ⟨rfl, rfl, fun _ _ => rfl⟩
    -- the new thread, the caller, or another one
    have hnew : ∀ {b z}, update (update s.page a
          (some (initThread s.nextTid t))) t
          (some { x with children := x.children ++ [a], pc := pc s.nextTid }) b = some z →
        b = t ∧ z = { x with children := x.children ++ [a], pc := pc s.nextTid } ∨
        b = a ∧ z = initThread s.nextTid t ∨ b ≠ t ∧ b ≠ a ∧ s.page b = some z := by
      intro b z hz
      refine (update_eq_some hz).imp_right fun ⟨hbt, hz⟩ => ?_
      exact (update_eq_some hz).imp_right fun ⟨hba, hz⟩ => ⟨hbt, hba, hz⟩
    refine ⟨fun tid hl => ?_, fun {p k} hc => ?_, fun {b z} hz => ?_, fun {p z c y} hz hy hr => ?_,
      fun {c y p} hy hc => ?_⟩
    · rcases mem_cons.mp hl with he | hl
      · cases he
      · exact h.loads tid hl
    · rcases mem_cons.mp hc with he | hc
      · cases he
        exact Int.lt_succ _
      · exact Int.lt_trans (h.born hc) (Int.lt_succ _)
    · rcases hnew hz with ⟨rfl, rfl⟩ | ⟨rfl, rfl⟩ | ⟨-, -, hz₀⟩
      · exact .of_going hquiet.1 hquiet.2.1 (h.thread hx).parent
          (h.sema_eq (x := x) hx (by rw [hrun]; rfl))
      · exact .of_going rfl rfl nofun rfl
      · exact h.thread hz₀
    · rcases hnew hz with ⟨rfl, rfl⟩ | ⟨rfl, rfl⟩ | ⟨-, -, hz₀⟩
      · rw [hquiet.2.2] at hr
        cases hr
      · cases hr
      · -- nobody is about to free the caller, which runs, or the new thread
        rcases hnew hy with ⟨rfl, rfl⟩ | ⟨rfl, rfl⟩ | ⟨-, -, hy₀⟩
        · have hposted := h.reaps hz₀ hx hr
          rw [hrun] at hposted
          cases hposted
        · have hold := ht.pc hz₀
          unfold ThreadPc.reaps at hr
          split at hr
          · next c' tid hzpc =>
            simp only [PcOk, hzpc] at hold
            cases of_decide_eq_true hr
            obtain ⟨-, y, hy₀, -⟩ := ht.child hz₀ hold.2
            rw [hfree.1] at hy₀
            cases hy₀
          · next tid' v hzpc =>
            simp only [PcOk, hzpc] at hold
            cases of_decide_eq_true hr
            obtain ⟨c, -, y, hy₀, htid⟩ := (ht.listed hz₀ s.nextTid).mp hold.2
            have hlt := (ht.tid hy₀).2
            omega
          · cases hr
        · exact h.reaps hz₀ hy₀ hr
    · rcases mem_cons.mp hc with he | hlog
      · -- the new thread is the one of the new `tid`
        obtain ⟨rfl, htid⟩ := Note.created.inj he
        rcases hnew hy with ⟨rfl, rfl⟩ | ⟨rfl, rfl⟩ | ⟨-, -, hy₀⟩
        · exact absurd htid (Int.ne_of_lt (ht.tid hx).2)
        · exact ⟨t, _, update_self .., rfl, mem_append_right _ mem_cons_self⟩
        · exact absurd htid (Int.ne_of_lt (ht.tid hy₀).2)
      · have hold : ∃ y₀, s.page c = some y₀ ∧ y₀.tid = y.tid := by
          rcases hnew hy with ⟨rfl, rfl⟩ | ⟨rfl, rfl⟩ | ⟨-, -, hy₀⟩
          · exact ⟨x, hx, rfl⟩
          · exact absurd (h.born hlog) (Int.lt_irrefl _)
          · exact ⟨y, hy₀, rfl⟩
        obtain ⟨y₀, hy₀, htid⟩ := hold
        rw [← htid] at hlog
        obtain ⟨q, z, hz, hq, hmem⟩ := h.home hy₀ hlog
        by_cases hqt : q = t
        · subst hqt
          cases hx.symm.trans hz
          exact ⟨q, _, update_self .., hq, mem_append_left _ hmem⟩
        · have hqa : q ≠ a := by
            rintro rfl
            rw [hfree.1] at hz
            cases hz
          exact ⟨q, z, (update_of_ne hqt ..).trans ((update_of_ne hqa ..).trans hz), hq, hmem⟩

theorem PageInv.removeChild {tid status : Int} {c : Nat} (hx : s.page t = some x)
    (hpc : x.pc = .removeChild tid status)
    (hfind : childelemFromTid s.page tid x.children = some (some c)) :
    PageInv (((s.put t { x with children := x.children.erase c, pc := .running }).note
      (.waited x.tid tid status)).free c) := by
  obtain ⟨hc, -⟩ := childelemFromTid_found hfind
  have hct : c ≠ t := ht.child_ne hx hc
  have hnew : ∀ {b z}, update (update s.page t
        (some { x with children := x.children.erase c, pc := .running })) c none b = some z →
      b = t ∧ z = { x with children := x.children.erase c, pc := .running } ∨
      b ≠ t ∧ b ≠ c ∧ s.page b = some z := by
    intro b z hz
    obtain ⟨hbc, hz⟩ := update_none_eq_some hz
    exact (update_eq_some hz).imp_right fun ⟨hbt, hz⟩ => ⟨hbt, hbc, hz⟩
  have hunposted : x.pc.posted = false := by rw [hpc]; rfl
  have hlog : s.Tells (.waited x.tid tid status :: s.log) := h.tells_cons nofun nofun
  refine ⟨hlog.loads, fun hk => h.born (hlog.created hk), fun {b z} hz => ?_,
    fun {p z c' y} hz hy hr => ?_, fun {c' y p} hy hk => ?_⟩
  · rcases hnew hz with ⟨rfl, rfl⟩ | ⟨-, -, hz₀⟩
    · exact .of_going rfl rfl (h.thread hx).parent (h.sema_eq (x := x) hx hunposted)
    · exact h.thread hz₀
  · rcases hnew hz with ⟨rfl, rfl⟩ | ⟨-, -, hz₀⟩
    · cases hr
    · rcases hnew hy with ⟨rfl, rfl⟩ | ⟨-, -, hy₀⟩
      · have hposted := h.reaps hz₀ hx hr
        rw [hunposted] at hposted
        cases hposted
      · exact h.reaps hz₀ hy₀ hr
  · have hold : c' ≠ c ∧ ∃ y₀, s.page c' = some y₀ ∧ y₀.tid = y.tid := by
      rcases hnew hy with ⟨rfl, rfl⟩ | ⟨-, hne, hy₀⟩
      · exact ⟨hct.symm, x, hx, rfl⟩
      · exact ⟨hne, y, hy₀, rfl⟩
    obtain ⟨hne, y₀, hy₀, htid⟩ := hold
    rw [← htid] at hk
    obtain ⟨q, z, hz, hq, hmem⟩ := h.home hy₀ (hlog.created hk)
    by_cases hqt : q = t
    · subst hqt
      cases hx.symm.trans hz
      exact ⟨q, _, (update_of_ne hct.symm ..).trans (update_self ..), hq,
        (mem_erase_of_ne hne).mpr hmem⟩
    · have hqc : q ≠ c := by
        -- the child would have children, but it has exited
        rintro rfl
        obtain ⟨-, y', hy', htid'⟩ := childelemFromTid_found hfind
        cases hz.symm.trans hy'
        have hposted := h.reaps hx hz (by simp [hpc, ThreadPc.reaps, htid'])
        have hempty := (h.thread hz).childless (.inr (by
          revert hposted
          cases z.pc <;> intro hposted <;> first | rfl | cases hposted))
        rw [hempty] at hmem
        cases hmem
      exact ⟨q, z, (update_of_ne hqc ..).trans ((update_of_ne hqt ..).trans hz), hq, hmem⟩

theorem PageInv.step {e : Event} (hok : s.orderly e = true) (hstep : Tree.Step s e s') :
    PageInv s' := by
  cases trans_of_step hstep with
  | @setSuccess t x ok p w hx hpc hpar hw =>
    have hne := (ht.reporter hx (by rw [hpc]; rfl) hpar hw).2.1
    have h₁ : PageInv (s.put p { w with success := ok }) := h.move hw rfl rfl h.tells
      ⟨(h.thread hw).childless, (h.thread hw).loops, (h.thread hw).parent, (h.thread hw).sema⟩
      (fun c y hy hr => h.reaps hw hy hr) id
    exact h₁.goes (x := x) ((update_of_ne hne.symm ..).trans hx) h₁.tells
      (by rw [hpc]; rfl) rfl rfl (fun _ _ _ hr => by cases hr) rfl
  | @upLoadSema t x ok p w hx hpc hpar hw =>
    have hne := (ht.reporter hx (by rw [hpc]; rfl) hpar hw).2.1
    have hold := ht.pc hx
    simp only [PcOk, hpc] at hold
    have hsuccess : ok = true := by
      by_contra hfalse
      exact h.loads x.tid ((hold.1 false).mpr (by simpa using hfalse))
    subst hsuccess
    have h₁ : PageInv (s.goto t x .running) :=
      h.goes hx h.tells (by rw [hpc]; rfl) rfl rfl (fun _ _ _ hr => by cases hr) rfl
    have hw₁ := (update_of_ne hne (some { x with pc := .running }) s.page).trans hw
    have hwok := h₁.thread hw₁
    exact h₁.move hw₁ rfl rfl h₁.tells
      ⟨hwok.childless, hwok.loops, hwok.parent, hwok.sema⟩
      (fun c y hy hr => h₁.reaps hw₁ hy hr) id
  | @upChildSema t x hx hpc =>
    have hold := ht.pc hx
    simp only [PcOk, hpc] at hold
    exact absurd hold.1 (h.loads _)
  | downLoadSema hx hpc hpos | setEax hx hpc | waitChild hx hpc hfind =>
    exact h.goes hx h.tells (by rw [hpc]; rfl) rfl rfl (fun _ _ _ hr => by cases hr) rfl
  | execDone hx hpc hsuccess | waitOther hx hpc hfind =>
    exact h.goes hx (h.tells_cons (by simp) (by simp)) (by rw [hpc]; rfl) rfl rfl
      (fun _ _ _ hr => by cases hr) rfl
  | execFail hx hpc hsuccess hfind =>
    exact absurd (((ht.reported hx hpc).2 false).mpr hsuccess.symm) (h.loads _)
  | @downChildSema t x c tid y hx hpc hy hpos =>
    have hold := ht.pc hx
    simp only [PcOk, hpc] at hold
    have hct : c ≠ t := ht.child_ne hx hold.2
    have hposted : y.pc.posted = true := (h.thread hy).sema hpos
    have hreads : ∀ c' y', s.page c' = some y' →
        (ThreadPc.readStatus c tid).reaps c' y'.tid = true → y'.pc.posted = true := by
      intro c' y' hy' hr
      cases of_decide_eq_true hr
      cases hy.symm.trans hy'
      exact hposted
    have h₁ : PageInv (s.goto t x (.readStatus c tid)) :=
      h.goes hx h.tells (by rw [hpc]; rfl) rfl rfl hreads rfl
    have hy₁ := (update_of_ne hct (some { x with pc := .readStatus c tid })
      s.page).trans hy
    have hyok := h₁.thread hy₁
    exact h₁.move hy₁ rfl rfl h₁.tells
      ⟨hyok.childless, hyok.loops, hyok.parent, fun _ => hposted⟩
      (fun c y hy hr => h₁.reaps hy₁ hy hr) id
  | @readStatus t x c tid y hx hpc hy =>
    have hold := ht.pc hx
    simp only [PcOk, hpc] at hold
    refine h.goes hx h.tells (by rw [hpc]; rfl) rfl rfl (fun c' y' hy' hr => ?_) rfl
    -- the child of that `tid` is the one whose semaphore was taken
    have htid := ((ht.link hx hold.2 hy).read tid hpc).1
    cases ht.tidInj hy hy' (htid.trans (of_decide_eq_true hr))
    cases hy.symm.trans hy'
    exact h.reaps hx hy (by simp [hpc, ThreadPc.reaps])
  | removeNone hx hpc hfind =>
    exact h.goes hx (h.tells_cons (by simp) (by simp)) (by rw [hpc]; rfl) rfl rfl
      (fun _ _ _ hr => by cases hr) rfl
  | removeChild hx hpc hfind => exact h.removeChild ht hx hpc hfind
  | selfDestruct hx hpc =>
    have hnone := (h.thread hx).childless (.inl (by rw [hpc]; rfl))
    exact h.exits hx hnone (h.tells_cons (by simp) (by simp))
      (fun todo he => by rcases he with he | he <;> cases he; exact hnone) (fun _ _ => rfl)
      (by rw [hpc]; rintro ⟨⟩) (fun hne => absurd rfl hne) rfl
  | orphanDone hx hpc =>
    have hnone := (h.thread hx).childless (.inr (by rw [hpc]; rfl))
    exact h.exits hx hnone h.tells
      (fun todo he => by rcases he with he | he <;> cases he; exact hnone) (fun _ _ => rfl)
      (by rw [hpc]; rintro ⟨⟩) (fun hne => absurd rfl hne) rfl
  | orphan hx hpc hy => cases (h.thread hx).loops _ (.inl hpc)
  | exitChild hx hpc hy hzero => cases (h.thread hx).loops _ (.inr hpc)
  | exitDone hx hpc | testParent hx hpc hpar =>
    have hnone := (h.thread hx).childless (.inr (by rw [hpc]; rfl))
    exact h.exits hx hnone h.tells (fun todo he => by rcases he with he | he <;> cases he)
      (fun _ _ => rfl) (by rw [hpc]; rintro ⟨⟩) (fun hne => absurd rfl hne) rfl
  | signalParent hx hpc | switchOut hx hpc =>
    have hnone := (h.thread hx).childless (.inr (by rw [hpc]; rfl))
    exact h.exits hx hnone h.tells (fun todo he => by rcases he with he | he <;> cases he)
      (fun _ _ => rfl) (fun _ => rfl) (fun _ => rfl) rfl
  | @load t x ok hx hpc =>
    cases (show ok = true from hok)
    exact h.goes hx (h.tells_cons (fun _ he => by cases he) (by simp)) (by rw [hpc]; rfl) rfl rfl
      (fun _ _ _ hr => by cases hr) rfl
  | noTask hx hpc | wait hx hpc ht =>
    exact h.goes hx h.tells (by rw [hpc]; rfl) rfl rfl (fun _ _ _ hr => by cases hr) rfl
  | task hx hpc hcreate => exact h.threadCreate ht hx hpc (.inl rfl) hcreate
  | noExec => exact h
  | exec hx hpc _ hcreate => exact h.threadCreate ht hx hpc (.inr rfl) hcreate
  | @exit t x status hx hpc _ =>
    have hnone : x.children = [] := by simpa [orderly, hx] using hok
    exact h.exits hx hnone h.tells (fun todo he => by rcases he with he | he <;> cases he)
      (fun _ _ => rfl) (by rw [hpc]; rintro ⟨⟩) (fun hne => absurd rfl hne) rfl
  | @kill t x hx hpc _ =>
    have hnone : x.children = [] := by simpa [orderly, hx] using hok
    exact h.exits hx hnone (h.tells_cons (by simp) (by simp))
      (fun todo he => by rcases he with he | he <;> cases he) (fun _ _ => rfl)
      (by rcases hpc with hpc | hpc <;> rw [hpc] <;> rintro ⟨⟩) (fun hne => absurd rfl hne) rfl

theorem PageInv.stepAccesses (hx : s.page t = some x) (hok : s.orderly (.run t) = true) :
    s.safe (s.stepAccesses t x) = true := by
  have hchildren : ∀ c ∈ x.children, (s.page c).isSome = true := by
    intro c hc
    obtain ⟨-, y, hy, -⟩ := ht.child hx hc
    rw [hy]
    rfl
  have huses : s.safe (x.children.map .use) = true := by
    have hall := Tree.safe_uses [] hchildren
    rwa [append_nil] at hall
  have huse : ∀ {c}, (s.page c).isSome = true → s.safe [.use c] = true := by
    intro c hc
    show ((s.page c).isSome && true) = true
    rw [hc, Bool.and_true]
  have hold := ht.pc hx
  have hpage := h.thread hx
  unfold Tree.stepAccesses
  split
  case h_1 success hpc | h_2 success hpc =>
    -- the parent waits for the report
    have hrep : x.pc.reporting = true := by rw [hpc]; rfl
    obtain ⟨p, w, hw, hc⟩ := ht.home hx hrep
    rw [(ht.link hw hc hx).parent hrep]
    exact huse (by rw [hw]; rfl)
  case h_3 | h_4 => exact huses
  case h_5 =>
    split
    · rfl
    · exact huses
  case h_6 c tid hpc | h_7 c tid hpc =>
    simp only [PcOk, hpc] at hold
    exact huse (hchildren c hold.2)
  case h_8 tid status hpc =>
    rw [Tree.safe_uses _ hchildren]
    split
    · next c hfind =>
      -- the child has called `sema_up` and, by the condition, is switched out
      obtain ⟨-, y, hy, htid⟩ := childelemFromTid_found hfind
      have hposted := h.reaps hx hy (by simp [hpc, ThreadPc.reaps, htid])
      have hgone : y.pc ≠ .switchOut := by simpa [Tree.orderly, hx, hpc, hfind, hy] using hok
      have hdying : y.pc = .dying := by
        revert hposted hgone
        cases y.pc <;> simp [ThreadPc.posted]
      show ((s.page c).any (fun x => x.pc = .dying) && true) = true
      rw [hy, Bool.and_true]
      exact decide_eq_true hdying
    · rfl
  case h_9 c todo hpc => cases hpage.loops _ (.inl hpc)
  case h_10 c todo hpc => cases hpage.loops _ (.inr hpc)
  case h_11 hpc =>
    have hparent := hpage.parent (ht.ne_initial hx (by rw [hpc]; rfl))
    rw [if_pos (Option.isSome_iff_ne_none.mpr hparent)]
    rfl
  case h_12 => rfl

theorem PageInv.accesses {e : Event} (hok : s.orderly e = true) : s.safe (s.accesses e) = true := by
  unfold Tree.accesses
  split
  · rfl
  next x hx =>
    show ((s.page (s.actor e)).isSome && s.safe _) = true
    rw [hx, Option.isSome_some, Bool.true_and]
    have huses : s.safe (x.children.map .use) = true := by
      have hlive : ∀ c ∈ x.children, (s.page c).isSome = true := by
        intro c hc
        obtain ⟨-, y, hy, -⟩ := ht.child hx hc
        rw [hy]
        rfl
      have hall := Tree.safe_uses [] hlive
      rwa [append_nil] at hall
    split
    · exact h.stepAccesses ht hx hok
    · exact huses
    · exact huses
    · rfl

end

end

end Steps

/-! ## Every run -/

theorem boot_pageInv {initial idle : Nat} (hne : initial ≠ idle) :
    PageInv (Tree.boot initial idle) := by
  have hpage : ∀ {a x}, (boot initial idle).page a = some x →
      a = initial ∧ x = { firstThread with children := [idle] } ∨
      a = idle ∧ x = { initThread 2 initial with pc := .idle } := by
    intro a x hx
    have hx' : update (update (threadInit initial).page idle
        (some { initThread 2 initial with pc := .idle })) initial
        (some { firstThread with children := [idle] }) a = some x := hx
    refine (update_eq_some hx').imp_right fun ⟨ha, hx⟩ => ?_
    rcases update_eq_some hx with hx | ⟨-, hx⟩
    · exact hx
    · rw [threadInit_page, if_neg ha] at hx
      cases hx
  refine ⟨fun tid hl => ?_, fun {p k} hc => ?_, fun {a x} hx => ?_, fun {p x c y} hx _ hr => ?_,
    fun {c y p} hy hc => ?_⟩
  · cases mem_singleton.mp hl
  · cases mem_singleton.mp hc
    exact Int.lt_succ 2
  · rcases hpage hx with ⟨rfl, rfl⟩ | ⟨rfl, rfl⟩
    · exact .of_going rfl rfl (fun ha => absurd rfl ha) rfl
    · exact .of_going rfl rfl nofun rfl
  · rcases hpage hx with ⟨rfl, rfl⟩ | ⟨rfl, rfl⟩ <;> cases hr
  · obtain ⟨rfl, htid⟩ := Note.created.inj (mem_singleton.mp hc)
    rcases hpage hy with ⟨rfl, rfl⟩ | ⟨rfl, rfl⟩
    · cases htid
    · exact ⟨initial, _, update_self .., rfl, mem_cons_self⟩

/-- **When thread pages are freed once and in time.** In every run whose steps meet `orderly`: every
further such step uses only allocated thread pages and frees only pages whose threads were switched
out for the last time, and when a thread and its parent have both exited its page has been freed. -/
theorem pages_safe {initial idle : Nat} (hne : initial ≠ idle) {es : List Event} {s : Tree}
    (hrun : Runs Tree.Step (fun s e => s.orderly e = true) (Tree.boot initial idle) es s) :
    (∀ e, s.orderly e = true → s.safe (s.accesses e) = true) ∧
    ∀ p c, .created p c ∈ s.log → s.exited p → s.exited c →
      ∀ a x, s.page a = some x → x.tid ≠ c := by
  have hkeep : ∀ {s e s'}, TreeInv False s ∧ PageInv s → s.orderly e = true → Tree.Step s e s' →
      TreeInv False s' ∧ PageInv s' :=
    fun hi hok hstep => ⟨hi.1.step False.elim hstep, hi.2.step hi.1 hok hstep⟩
  have h : TreeInv False s ∧ PageInv s :=
    Runs.invariant (I := fun s => TreeInv False s ∧ PageInv s) hkeep hrun
      ⟨boot_inv False hne, boot_pageInv hne⟩
  refine ⟨fun e hok => h.2.accesses h.1 hok, fun p c hc hp _ a x hx htid => ?_⟩
  -- the parent would still have the thread in its list
  subst htid
  obtain ⟨q, w, hw, rfl, hmem⟩ := h.2.home hx hc
  have hdying := hp q w hw rfl
  rw [(h.2.thread hw).childless (.inr (by rw [hdying]; rfl))] at hmem
  cases hmem

/-- The initial thread runs a process. -/
def runsTask : List Event :=
  [.runTask (some 0xc0103000), .load 0xc0103000 true, .run 0xc0103000, .run 0xc0103000]

/-- The process exits and is switched out, and the initial thread is about to free its page. -/
def taskReaped : List Event :=
  runsTask ++ .exit 0xc0103000 7 :: List.replicate 6 (.run 0xc0103000) ++
    List.replicate 3 (.run 0xc000e000)

/-- The state after some events from boot. -/
def ranTo (es : List Event) : Tree := es.foldl (after Tree.step) (Tree.boot 0xc000e000 0xc0102000)

/-- It is safe to free the page of a process that was switched out. -/
theorem pages_safe_taskReaped :
    (ranTo taskReaped).accesses (.run 0xc000e000) =
      [.use 0xc000e000, .use 0xc0102000, .use 0xc0103000, .free 0xc0103000] ∧
    (ranTo taskReaped).safe ((ranTo taskReaped).accesses (.run 0xc000e000)) = true :=
  ⟨by decide +kernel, (pages_safe (by decide) (runs_of_allows orderly (fun _ _ h => h)
    (show allows step orderly (boot 0xc000e000 0xc0102000) taskReaped = true by
      decide +kernel))).1 (.run 0xc000e000) (by decide +kernel)⟩

/-- The process runs a child. -/
def runsChild (success : Bool) : List Event :=
  runsTask ++ [.exec 0xc0103000 (some 0xc0104000), .load 0xc0104000 success, .run 0xc0104000,
    .run 0xc0104000, .run 0xc0103000, .run 0xc0103000, .run 0xc0103000]

/-- The child exits, and the process exits without having waited for it. -/
def exitsBeforeWait : List Event :=
  runsChild true ++ .exit 0xc0104000 0 :: List.replicate 6 (.run 0xc0104000) ++
    .exit 0xc0103000 0 :: List.replicate 3 (.run 0xc0103000)

/-- The process exits, and then its child. -/
def childOutlives : List Event :=
  runsChild true ++ .exit 0xc0103000 0 :: List.replicate 8 (.run 0xc0103000) ++
    .exit 0xc0104000 0 :: List.replicate 3 (.run 0xc0104000)

/-- The process exits, and the initial thread goes on before it is switched out. -/
def waitOvertakes : List Event :=
  runsTask ++ .exit 0xc0103000 7 :: List.replicate 5 (.run 0xc0103000) ++
    List.replicate 3 (.run 0xc000e000)

/-- The child fails to load; it and the process exit. -/
def failedChild : List Event :=
  runsChild false ++ List.replicate 7 (.run 0xc0104000) ++
    .exit 0xc0103000 0 :: List.replicate 6 (.run 0xc0103000)

section

variable {es : List Event}
  (h : allows Tree.step (fun _ _ => true) (Tree.boot 0xc000e000 0xc0102000) es = true)
include h

theorem ranTo_runs :
    Runs Tree.Step (fun _ _ => True) (Tree.boot 0xc000e000 0xc0102000) es (ranTo es) :=
  runs_of_allows (fun _ _ => true) (fun _ _ _ => trivial) h

theorem ranTo_exited {a : Nat} {tid : Int}
    (hdying : ((ranTo es).page a).any (fun x => x.pc = .dying ∧ x.tid = tid) = true) :
    (ranTo es).exited tid := by
  have hinv : TreeInv False (ranTo es) :=
    Runs.invariant (fun hi _ hstep => TreeInv.step hi False.elim hstep) (ranTo_runs h)
      (boot_inv False (by decide))
  intro b y hy htid
  cases hx : (ranTo es).page a with
  | none =>
    rw [hx] at hdying
    cases hdying
  | some x =>
    rw [hx, Option.any_some, decide_eq_true_eq] at hdying
    cases hinv.tidInj hx hy (hdying.2.trans htid.symm)
    cases hx.symm.trans hy
    exact hdying.1

end

/-- Without the conditions: `process_exit` reads a page it has freed; an orphan frees its own page
and goes on; `process_wait` frees the page of a thread that still runs; and the page of a child that
failed to load is never freed. -/
theorem pages_unsafe :
    (Runs Tree.Step (fun _ _ => True) (Tree.boot 0xc000e000 0xc0102000) exitsBeforeWait
        (ranTo exitsBeforeWait) ∧
      (ranTo exitsBeforeWait).accesses (.run 0xc0103000) =
        [.use 0xc0103000, .use 0xc0104000, .free 0xc0104000, .use 0xc0104000] ∧
      (ranTo exitsBeforeWait).safe ((ranTo exitsBeforeWait).accesses (.run 0xc0103000)) = false) ∧
    (Runs Tree.Step (fun _ _ => True) (Tree.boot 0xc000e000 0xc0102000) childOutlives
        (ranTo childOutlives) ∧
      (ranTo childOutlives).accesses (.run 0xc0104000) =
        [.use 0xc0104000, .free 0xc0104000, .use 0xc0104000] ∧
      (ranTo childOutlives).safe ((ranTo childOutlives).accesses (.run 0xc0104000)) = false) ∧
    (Runs Tree.Step (fun _ _ => True) (Tree.boot 0xc000e000 0xc0102000) waitOvertakes
        (ranTo waitOvertakes) ∧
      (ranTo waitOvertakes).accesses (.run 0xc000e000) =
        [.use 0xc000e000, .use 0xc0102000, .use 0xc0103000, .free 0xc0103000] ∧
      (ranTo waitOvertakes).safe ((ranTo waitOvertakes).accesses (.run 0xc000e000)) = false) ∧
    (Runs Tree.Step (fun _ _ => True) (Tree.boot 0xc000e000 0xc0102000) failedChild
        (ranTo failedChild) ∧
      .created 3 4 ∈ (ranTo failedChild).log ∧ (ranTo failedChild).exited 3 ∧
      (ranTo failedChild).exited 4 ∧
      ∃ x, (ranTo failedChild).page 0xc0104000 = some x ∧ x.tid = 4) := by
  refine ⟨⟨ranTo_runs (by decide +kernel), by decide +kernel, by decide +kernel⟩,
    ⟨ranTo_runs (by decide +kernel), by decide +kernel, by decide +kernel⟩,
    ⟨ranTo_runs (by decide +kernel), by decide +kernel, by decide +kernel⟩,
    ranTo_runs (by decide +kernel), by decide +kernel,
    ranTo_exited (a := 0xc0103000) (by decide +kernel) (by decide +kernel),
    ranTo_exited (a := 0xc0104000) (by decide +kernel) (by decide +kernel), ?_⟩
  have hsome : ((ranTo failedChild).page 0xc0104000).any (fun x => x.tid = 4) = true := by
    decide +kernel
  cases hx : (ranTo failedChild).page 0xc0104000 with
  | none =>
    rw [hx] at hsome
    cases hsome
  | some x =>
    rw [hx] at hsome
    exact ⟨x, rfl, of_decide_eq_true hsome⟩

end Pintos.Process
