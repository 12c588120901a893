import Pintos.Userprog.ProcessSteps

/-!
# What parents learn about their children

`process_wait` takes the `child_sema` of the child and reads its `return_status`. `process_exit` ups
the semaphore after `self_destruct` has set the status, but `start_process` ups it after a failed
`load`, before `self_destruct (-1)`. `sys_exec` takes a child that failed to load out of the list of
children, `run_task` does not.
-/

namespace Pintos.Process

open Lib Function Process.Tree

section Progress

variable {G : Prop} {s : Tree} {t : Nat} {x : Thread}

theorem step_run {s' : Tree} (hx : s.page t = some x) (h : s.advance t x = some s') :
    Tree.Step s (.run t) s' := by
  unfold Tree.Step step
  simp only [hx]
  exact h

section

variable (h : TreeInv G s) (hx : s.page t = some x)
include h hx

theorem TreeInv.childelem (tid : Int) : ∃ r, childelemFromTid s.page tid x.children = some r := by
  have hpages : ∀ c ∈ x.children, ∃ y, s.page c = some y := by
    intro c hc
    obtain ⟨-, y, hy, -⟩ := h.child hx hc
    exact ⟨y, hy⟩
  generalize x.children = cs at hpages
  induction cs with
  | nil => exact ⟨none, rfl⟩
  | cons c cs ih =>
    obtain ⟨y, hy⟩ := hpages c (List.mem_cons_self ..)
    simp only [childelemFromTid, hy]
    split
    · exact ⟨some c, rfl⟩
    · exact ih fun a ha => hpages a (List.mem_cons_of_mem _ ha)

theorem TreeInv.childelem_of_unwaited {tid : Int} (hunw : unwaited x.tid tid s.log = true) :
    ∃ c, childelemFromTid s.page tid x.children = some (some c) := by
  obtain ⟨r, hr⟩ := h.childelem hx tid
  cases r with
  | none => exact absurd ((h.listed hx tid).mp hunw) (childelemFromTid_missing hr)
  | some c => exact ⟨c, hr⟩

theorem TreeInv.waits_other {tid : Int} (hpc : x.pc = .processWait tid)
    (hunw : unwaited x.tid tid s.log = false) :
    ∃ s', Tree.Step s (.run t) s' ∧ s'.log = .waited x.tid tid (-1) :: s.log := by
  obtain ⟨r, hr⟩ := h.childelem hx tid
  cases r with
  | none => exact ⟨_, step_run hx (by simp only [advance, hpc, hr]; rfl), rfl⟩
  | some c =>
    obtain ⟨hc, y, hy, htid⟩ := childelemFromTid_found hr
    have := (h.listed hx tid).mpr ⟨c, hc, y, hy, htid⟩
    rw [hunw] at this
    cases this

end

theorem TreeInv.waits_posted (h : TreeInv True s) (hx : s.page t = some x) {c : Nat} {tid : Int}
    (hpc : x.pc = .downChildSema c tid) {y : Thread} (hy : s.page c = some y)
    (hposted : y.pc.posted = true) :
    ∃ s', Runs Tree.Step (fun s e => s.statusSet e = true) s (List.replicate 3 (.run t)) s' ∧
      s'.log = .waited x.tid tid y.returnStatus :: s.log := by
  have hold := h.pc hx
  simp only [PcOk, hpc] at hold
  have hct := h.child_ne hx hold.2
  have hpos : 0 < y.childSema := by
    rcases (h.link hx hold.2 hy).posted hposted with hpos | hr
    · exact hpos
    · rw [hpc] at hr
      cases hr
  have hnot : y.pc.destructs = false := by
    cases he : y.pc <;> simp_all [ThreadPc.posted, ThreadPc.destructs]
  -- `sema_down`
  have hs₁ : Tree.Step s (.run t)
      ((s.goto t x (.readStatus c tid)).put c { y with childSema := y.childSema - 1 }) :=
    step_run hx (by simp only [advance, hpc, hy, hpos, if_true])
  have hok₁ : s.statusSet (.run t) = true := by simp [statusSet, hx, hpc]
  have h₁ := h.step (fun _ => hok₁) hs₁
  generalize hS₁ : (s.goto t x (.readStatus c tid)).put c { y with childSema := y.childSema - 1 } = s₁
    at hs₁ h₁
  have hx₁ : s₁.page t = some { x with pc := .readStatus c tid } := by
    rw [← hS₁]
    exact (update_of_ne hct.symm ..).trans (update_self ..)
  have hy₁ : s₁.page c = some { y with childSema := y.childSema - 1 } := by
    rw [← hS₁]
    exact update_self ..
  -- the status is read
  have hs₂ : Tree.Step s₁ (.run t) (s₁.goto t { x with pc := .readStatus c tid }
      (.removeChild tid y.returnStatus)) :=
    step_run hx₁ (by simp only [advance, hy₁])
  have hok₂ : s₁.statusSet (.run t) = true := by simp [statusSet, hx₁, hy₁, hnot]
  have h₂ := h₁.step (fun _ => hok₂) hs₂
  generalize hS₂ : s₁.goto t { x with pc := .readStatus c tid } (.removeChild tid y.returnStatus) = s₂
    at hs₂ h₂
  have hx₂ : s₂.page t = some { x with pc := .removeChild tid y.returnStatus } := by
    rw [← hS₂]
    exact update_self ..
  -- the child is removed
  have hold₂ := h₂.pc hx₂
  obtain ⟨c', hfind⟩ := h₂.childelem_of_unwaited hx₂ hold₂.2
  have hs₃ := step_run hx₂ (by simp only [advance, hfind]; rfl)
  have hok₃ : s₂.statusSet (.run t) = true := by simp [statusSet, hx₂]
  refine ⟨_, .cons hok₁ hs₁ (.cons hok₂ hs₂ (.cons hok₃ hs₃ (.nil _))), ?_⟩
  show .waited x.tid tid y.returnStatus :: s₂.log = _
  rw [← hS₂, ← hS₁]
  rfl

theorem TreeInv.execs_reported (h : TreeInv False s) (hx : s.page t = some x) {ok : Bool}
    (hpc : x.pc = .upLoadSema ok) :
    ∃ p w, s.page p = some w ∧ t ∈ w.children ∧ (p ≠ s.initialThread →
      ∃ s', Runs Tree.Step (fun _ _ => True) s [.run t, .run p, .run p, .run p] s' ∧
        s'.log = .execReturned w.tid x.tid (if ok then x.tid else -1) :: s.log) := by
  have hrep : x.pc.reporting = true := by rw [hpc]; rfl
  obtain ⟨p, w, hw, hc⟩ := h.home hx hrep
  have hlink := h.link hw hc hx
  refine ⟨p, w, hw, hc, fun hp => ?_⟩
  obtain ⟨hwait, hzero, hok⟩ := hlink.reporting hrep hp
  have hsuccess := hok ok hpc
  -- the report
  have hs₁ : Tree.Step s (.run t)
      ((s.goto t x (if ok then .running else .upChildSema)).put p
        { w with loadSema := w.loadSema + 1 }) :=
    step_run hx (by simp only [advance, hpc, hlink.parent hrep, hw])
  have h₁ := h.step False.elim hs₁
  generalize hS₁ : (s.goto t x (if ok then .running else .upChildSema)).put p
    { w with loadSema := w.loadSema + 1 } = s₁ at hs₁ h₁
  have hw₁ : s₁.page p = some { w with loadSema := w.loadSema + 1 } := by
    rw [← hS₁]
    exact update_self ..
  -- `sema_down`
  have hs₂ : Tree.Step s₁ (.run p) (s₁.put p { w with pc := .setEax x.tid }) :=
    step_run hw₁ (by simp [advance, hwait])
  have h₂ := h₁.step False.elim hs₂
  generalize hS₂ : s₁.put p { w with pc := .setEax x.tid } = s₂ at hs₂ h₂
  have hw₂ : s₂.page p = some { w with pc := .setEax x.tid } := by
    rw [← hS₂]
    exact update_self ..
  -- `eax` is set
  have hs₃ : Tree.Step s₂ (.run p) (s₂.goto p { w with pc := .setEax x.tid }
      (.dropFailed x.tid (if ok then x.tid else -1))) :=
    step_run hw₂ (by simp only [advance, hsuccess])
  have h₃ := h₂.step False.elim hs₃
  generalize hS₃ : s₂.goto p { w with pc := .setEax x.tid }
    (.dropFailed x.tid (if ok then x.tid else -1)) = s₃ at hs₃ h₃
  have hw₃ : s₃.page p = some { w with pc := .dropFailed x.tid (if ok then x.tid else -1) } := by
    rw [← hS₃]
    exact update_self ..
  have hlog₃ : s₃.log = s.log := by
    rw [← hS₃, ← hS₂, ← hS₁]
    rfl
  -- a child that failed is removed
  obtain ⟨c, hfind⟩ := h₃.childelem_of_unwaited hw₃ (h₃.pc hw₃).2.1
  cases ok with
  | true =>
    have hs₄ := step_run hw₃ (by simp only [advance, hsuccess, if_true]; rfl)
    refine ⟨_, .cons trivial hs₁ (.cons trivial hs₂ (.cons trivial hs₃ (.cons trivial hs₄
      (.nil _)))), ?_⟩
    exact congrArg (List.cons _) hlog₃
  | false =>
    have hs₄ := step_run hw₃
      (by simp only [advance, hsuccess, Bool.false_eq_true, if_false, hfind]; rfl)
    refine ⟨_, .cons trivial hs₁ (.cons trivial hs₂ (.cons trivial hs₃ (.cons trivial hs₄
      (.nil _)))), ?_⟩
    exact congrArg (List.cons _) hlog₃

end Progress

/-! ## Every run -/

/-- **What `process_wait` reports.** In every run whose steps meet `statusSet`:
what `process_wait` returned is what it has to be; for a `tid` that is not an unwaited child of the
caller it returns -1 without waiting; and once the child has exited it returns. -/
theorem wait_reports {initial idle : Nat} (hne : initial ≠ idle) {es : List Event} {s : Tree}
    (hrun : Runs Tree.Step (fun s e => s.statusSet e = true) (Tree.boot initial idle) es s) :
    (∀ new old p tid status, s.log = new ++ .waited p tid status :: old →
      if unwaited p tid old then
        (∀ v, .destructed tid v ∈ old ↔ v = status) ∧
        (.loaded tid false ∈ old ∨ .killed tid ∈ old → status = -1)
      else status = -1) ∧
    (∀ t x tid, s.page t = some x → x.pc = .processWait tid →
      unwaited x.tid tid s.log = false →
      ∃ s', Tree.Step s (.run t) s' ∧ s'.log = .waited x.tid tid (-1) :: s.log) ∧
    (∀ t x c tid y, s.page t = some x → x.pc = .downChildSema c tid → s.page c = some y →
      y.pc.posted = true →
      ∃ s', Runs Tree.Step (fun s e => s.statusSet e = true) s (List.replicate 3 (.run t)) s' ∧
        s'.log = .waited x.tid tid y.returnStatus :: s.log) := by
  have h : TreeInv True s :=
    Runs.invariant (fun hi hok hstep => TreeInv.step hi (fun _ => hok) hstep) hrun
      (boot_inv True hne)
  refine ⟨fun new old p tid status hlog => ?_, fun t x tid hx hpc => h.waits_other hx hpc,
    fun t x c tid y hx hpc hy => h.waits_posted hx hpc hy⟩
  have hreports := h.reports
  rw [hlog] at hreports
  exact hreports.rule trivial

/-- The initial thread runs a process, and that runs a child. -/
def taskAndChild : List Event :=
  [.runTask (some 0xc0103000), .load 0xc0103000 true, .run 0xc0103000, .run 0xc0103000,
    .exec 0xc0103000 (some 0xc0104000), .load 0xc0104000 true, .run 0xc0104000, .run 0xc0104000,
    .run 0xc0103000, .run 0xc0103000, .run 0xc0103000]

/-- The child exits with 7, and its parent waits for it twice. -/
def waitsTwice : List Event :=
  taskAndChild ++ .exit 0xc0104000 7 :: List.replicate 6 (.run 0xc0104000) ++
    .wait 0xc0103000 4 :: List.replicate 4 (.run 0xc0103000) ++ [.wait 0xc0103000 4, .run 0xc0103000]

/-- The state then. -/
def afterWaits : Tree := waitsTwice.foldl (after Tree.step) (Tree.boot 0xc000e000 0xc0102000)

/-- The first wait reports 7, the status that was passed to `self_destruct`. -/
theorem wait_reports_waitsTwice :
    afterWaits.log = [.waited 3 4 (-1)] ++ .waited 3 4 7 :: afterWaits.log.drop 2 ∧
    ∀ v, .destructed 4 v ∈ afterWaits.log.drop 2 ↔ v = 7 :=
  have hlog : afterWaits.log = [.waited 3 4 (-1)] ++ .waited 3 4 7 :: afterWaits.log.drop 2 := by
    decide +kernel
  have hreport := (wait_reports (by decide) (runs_of_allows statusSet (fun _ _ h => h)
    (show allows step statusSet (boot 0xc000e000 0xc0102000) waitsTwice = true by
      decide +kernel))).1 [.waited 3 4 (-1)] (afterWaits.log.drop 2) 3 4 7 hlog
  ⟨hlog, ((if_pos (show unwaited 3 4 (afterWaits.log.drop 2) = true by decide +kernel)).mp hreport).1⟩

/-- The initial thread runs a process that fails to load, and waits for it. -/
def failsToLoad : List Event :=
  [.runTask (some 0xc0103000), .load 0xc0103000 false, .run 0xc0103000, .run 0xc0103000,
    .run 0xc0103000, .run 0xc000e000, .run 0xc000e000, .run 0xc000e000, .run 0xc000e000]

/-- `process_wait` returns 0 for a child that failed to load, before it has called
`self_destruct (-1)`. -/
theorem wait_before_status :
    ∃ s old, Runs Tree.Step (fun _ _ => True) (Tree.boot 0xc000e000 0xc0102000) failsToLoad s ∧
      s.log = .waited 1 3 0 :: old ∧ unwaited 1 3 old = true ∧ .loaded 3 false ∈ old ∧
      ∀ v, .destructed 3 v ∉ old := by
  refine ⟨failsToLoad.foldl (after step) (boot 0xc000e000 0xc0102000),
    [.loaded 3 false, .created 1 3, .created 1 2],
    runs_of_allows (fun _ _ => true) (fun _ _ _ => trivial) (by decide +kernel), by decide +kernel,
    by decide +kernel, by decide +kernel, by simp⟩

/-- **What `exec` answers.** In every run: what `sys_exec` returned is the `tid` of its child if the
`load` of that child returned true, and -1 if it returned false; when it has to remove the child, the
child is in the list; and once the child has reported it returns. -/
theorem exec_answers {initial idle : Nat} (hne : initial ≠ idle) {es : List Event} {s : Tree}
    (hrun : Runs Tree.Step (fun _ _ => True) (Tree.boot initial idle) es s) :
    (∀ new old p c eax, s.log = new ++ .execReturned p c eax :: old →
      ∃ success, (∀ b, .loaded c b ∈ old ↔ b = success) ∧ eax = if success then c else -1) ∧
    (∀ t x tid eax, s.page t = some x → x.pc = .dropFailed tid eax →
      ∃ c, childelemFromTid s.page tid x.children = some (some c)) ∧
    (∀ t x ok, s.page t = some x → x.pc = .upLoadSema ok →
      ∃ p w, s.page p = some w ∧ t ∈ w.children ∧ (p ≠ s.initialThread →
        ∃ s', Runs Tree.Step (fun _ _ => True) s [.run t, .run p, .run p, .run p] s' ∧
          s'.log = .execReturned w.tid x.tid (if ok then x.tid else -1) :: s.log)) := by
  have h : TreeInv False s :=
    Runs.invariant (fun hi _ hstep => TreeInv.step hi False.elim hstep) hrun (boot_inv False hne)
  refine ⟨fun new old p c eax hlog => ?_, fun t x tid eax hx hpc => ?_,
    fun t x ok hx hpc => h.execs_reported hx hpc⟩
  · have hreports := h.reports
    rw [hlog] at hreports
    exact hreports.rule
  · have hold := h.pc hx
    simp only [PcOk, hpc] at hold
    exact h.childelem_of_unwaited hx hold.2.1

/-- The state after `exec` has returned. -/
def afterExec : Tree := taskAndChild.foldl (after Tree.step) (Tree.boot 0xc000e000 0xc0102000)

/-- `exec` has returned 4 for the child whose `load` returned true. -/
theorem exec_answers_taskAndChild :
    ∃ success, (∀ b, .loaded 4 b ∈ afterExec.log.drop 1 ↔ b = success) ∧
      (4 : Int) = if success then 4 else -1 :=
  (exec_answers (by decide) (runs_of_allows (fun _ _ => true) (fun _ _ _ => trivial)
    (show allows step (fun _ _ => true) (boot 0xc000e000 0xc0102000) taskAndChild = true by
      decide +kernel))).1 [] (afterExec.log.drop 1) 3 4 4 (by decide +kernel)

end Pintos.Process
