import Pintos.Lib.Tables
import Pintos.Userprog.Process

/-!
# The invariant of the process tree

What holds in every state of the machine of `Pintos.Userprog.Process`: about each thread by the place
where it is (`PcOk`), and between a thread and each child in its list (`Link`). A child that is still
in `start_process` has a parent that waits for its report, a semaphore that can be taken has a status
behind it, a child that failed to load is in the list of a user process only while `sys_exec` runs.

The invariant has a parameter `G`: the condition under which `process_wait` reads no status before it
is set. What does not depend on it holds in every run.
-/

namespace Pintos.Process

open Lib Function List

namespace ThreadPc

/-- In `start_process`, before the report to the parent is complete. -/
def reporting : ThreadPc → Bool
  | .load | .setSuccess _ | .upLoadSema _ => true
  | _ => false

/-- Past the assignment of `return_status` in `self_destruct`. -/
def destructed : ThreadPc → Bool
  | .orphan _ | .processExit _ | .testParent | .signalParent | .switchOut | .dying => true
  | _ => false

/-- Past the `sema_up` in `process_exit`. -/
def posted : ThreadPc → Bool
  | .switchOut | .dying => true
  | _ => false

/-- In `self_destruct`, before `return_status` is set. -/
def destructs : ThreadPc → Bool
  | .selfDestruct _ => true
  | _ => false

/-- Where the initial thread is. -/
def inActions : ThreadPc → Bool
  | .running | .processWait _ | .downChildSema _ _ | .readStatus _ _ | .removeChild _ _ => true
  | _ => false

/-- The child that `sys_exec` has created. -/
def execTid : ThreadPc → Option Int
  | .downLoadSema tid | .setEax tid | .dropFailed tid _ => some tid
  | _ => none

/-- `process_wait` has taken the `child_sema` of the child in page `c` with `tid`. -/
def reaps (c : Nat) (tid : Int) : ThreadPc → Bool
  | .readStatus c' _ => c' = c
  | .removeChild tid' _ => tid' = tid
  | _ => false

end ThreadPc

/-- The thread a note is about. -/
def Note.about : Note → Int
  | .created p _ | .execReturned p _ _ | .waited p _ _ => p
  | .loaded tid _ | .killed tid | .destructed tid _ => tid

/-- When the initial thread reads a status, the child is not between its `sema_up (&t->child_sema)`
in `start_process` and the assignment in `self_destruct`. -/
def Tree.statusSet (s : Tree) : Event → Bool
  | .run t =>
    match s.page t with
    | none => true
    | some x =>
      match x.pc with
      | .readStatus c _ =>
        t ≠ s.initialThread || (s.page c).all fun child => !child.pc.destructs
      | _ => true
  | _ => true

/-! ## The history -/

section History

variable {log log' : List Note} {p tid k : Int} {n : Note}

theorem created_of_unwaited (h : unwaited p tid log = true) : .created p tid ∈ log := by
  induction log with
  | nil => cases h
  | cons n old ih =>
    have hold : unwaited p tid old = true → .created p tid ∈ n :: old :=
      fun h => mem_cons_of_mem _ (ih h)
    cases n with
    | created p' c =>
      simp only [unwaited, Bool.or_eq_true, decide_eq_true_eq] at h
      rcases h with ⟨rfl, rfl⟩ | h
      · exact mem_cons_self
      · exact hold h
    | execReturned p' c eax | waited p' c v =>
      simp only [unwaited, Bool.and_eq_true] at h
      exact hold h.2
    | loaded c success => exact hold h
    | killed c => exact hold h
    | destructed c v => exact hold h

theorem unwaited_cons_of_ne (h : n.about ≠ p) : unwaited p tid (n :: log) = unwaited p tid log := by
  cases n <;> simp_all [unwaited, Note.about]

/-- A step of the thread `k` may have added to the history. -/
structure Adds (k : Int) (log log' : List Note) : Prop where
  mem : ∀ {n : Note}, n.about ≠ k → (n ∈ log' ↔ n ∈ log)
  unwaited : ∀ {p}, p ≠ k → ∀ tid, unwaited p tid log' = unwaited p tid log

theorem Adds.refl (k : Int) (log : List Note) : Adds k log log :=
  ⟨fun _ => Iff.rfl, fun _ _ => rfl⟩

theorem Adds.cons (n : Note) (log : List Note) : Adds n.about log (n :: log) := by
  refine ⟨fun h => ?_, fun h tid => unwaited_cons_of_ne (Ne.symm h)⟩
  rw [mem_cons, or_iff_right]
  rintro rfl
  exact h rfl

end History

/-! ## The invariant -/

/-- Nothing has ended the thread yet. -/
structure Alive (log : List Note) (x : Thread) : Prop where
  loaded : .loaded x.tid false ∉ log
  spared : .killed x.tid ∉ log
  status : ∀ v, .destructed x.tid v ∉ log
  sema : x.childSema = 0

/-- The status is set and in the history. -/
structure Ended (log : List Note) (x : Thread) : Prop where
  status : ∀ v, .destructed x.tid v ∈ log ↔ v = x.returnStatus
  failed : .loaded x.tid false ∈ log ∨ .killed x.tid ∈ log → x.returnStatus = -1

/-- What holds for a thread alone, by the place where it is. -/
def PcOk (log : List Note) (x : Thread) : Prop :=
  match x.pc with
  | .idle | .load => Alive log x ∧ .loaded x.tid true ∉ log
  | .running | .processWait _ => Alive log x
  | .setSuccess ok | .upLoadSema ok =>
    (∀ b, .loaded x.tid b ∈ log ↔ b = ok) ∧ .killed x.tid ∉ log ∧
    (∀ v, .destructed x.tid v ∉ log) ∧ x.childSema = 0
  | .upChildSema =>
    .loaded x.tid false ∈ log ∧ (∀ v, .destructed x.tid v ∉ log) ∧ x.childSema = 0
  | .downLoadSema tid | .setEax tid => Alive log x ∧ unwaited x.tid tid log = true
  | .dropFailed tid eax =>
    Alive log x ∧ unwaited x.tid tid log = true ∧ eax = if x.success then tid else -1
  | .downChildSema c _ | .readStatus c _ => Alive log x ∧ c ∈ x.children
  | .removeChild tid _ => Alive log x ∧ unwaited x.tid tid log = true
  | .selfDestruct status =>
    (.loaded x.tid false ∈ log ∨ .killed x.tid ∈ log → status = -1) ∧
    (∀ v, .destructed x.tid v ∉ log) ∧ (0 < x.childSema → .loaded x.tid false ∈ log)
  | .orphan todo => Ended log x ∧ todo ⊆ x.children
  | .processExit _ | .testParent | .signalParent | .switchOut | .dying => Ended log x

/-- The status of `y` is set, or will be -1 after a failed `load`. -/
def Thread.mayRead (log : List Note) (y : Thread) : Prop :=
  y.pc.destructed = true ∨ y.pc.destructs = true ∧ .loaded y.tid false ∈ log

/-- What holds between the thread `x` in page `p` and the child `y` in page `c` of its list. -/
structure Link (G : Prop) (log : List Note) (initial p : Nat) (x : Thread) (c : Nat) (y : Thread) : Prop where
  parent : y.pc.reporting = true → y.parent = some p
  reporting : y.pc.reporting = true → p ≠ initial →
    x.pc = .downLoadSema y.tid ∧ x.loadSema = 0 ∧ ∀ ok, y.pc = .upLoadSema ok → x.success = ok
  reported : x.pc.execTid = some y.tid → (x.pc = .downLoadSema y.tid → 0 < x.loadSema) →
    ∀ b, .loaded y.tid b ∈ log ↔ b = x.success
  failed : p ≠ initial → .loaded y.tid false ∈ log → x.pc.execTid = some y.tid
  down : ∀ tid, x.pc = .downChildSema c tid → y.tid = tid
  read : ∀ tid, x.pc = .readStatus c tid → y.tid = tid ∧ y.mayRead log
  remove : ∀ v, x.pc = .removeChild y.tid v →
    y.mayRead log ∧ (G → y.pc.destructed = true ∧ y.returnStatus = v)
  posted : y.pc.posted = true → 0 < y.childSema ∨ x.pc.reaps c y.tid = true

/-- The invariant. -/
structure TreeInv (G : Prop) (s : Tree) : Prop where
  reports : Always (Reports G) s.log
  fresh : ∀ n ∈ s.log, n.about < s.nextTid
  tid : ∀ {a x}, s.page a = some x → 0 < x.tid ∧ x.tid < s.nextTid
  tidInj : ∀ {a b x y}, s.page a = some x → s.page b = some y → x.tid = y.tid → a = b
  child : ∀ {p x c}, s.page p = some x → c ∈ x.children →
    c ≠ s.initialThread ∧ ∃ y, s.page c = some y ∧ x.tid < y.tid
  owner : ∀ {p p' x x' c}, s.page p = some x → s.page p' = some x' → c ∈ x.children →
    c ∈ x'.children → p = p'
  nodup : ∀ {p x}, s.page p = some x → x.children.Nodup
  listed : ∀ {p x}, s.page p = some x → ∀ tid, unwaited x.tid tid s.log = true ↔
    ∃ c ∈ x.children, ∃ y, s.page c = some y ∧ y.tid = tid
  initial : ∃ x, s.page s.initialThread = some x ∧ x.pc.inActions = true
  home : ∀ {c y}, s.page c = some y → y.pc.reporting = true →
    ∃ p x, s.page p = some x ∧ c ∈ x.children
  pc : ∀ {a x}, s.page a = some x → PcOk s.log x
  calm : ∀ {a x}, s.page a = some x → a ≠ s.initialThread →
    x.loadSema = 0 ∨ x.loadSema = 1 ∧ ∃ tid, x.pc = .downLoadSema tid
  link : ∀ {p x c y}, s.page p = some x → c ∈ x.children → s.page c = some y →
    Link G s.log s.initialThread p x c y

section Frame

variable {G : Prop} {log log' : List Note} {initial p c : Nat} {x y : Thread} {k : Int}

theorem PcOk.adds (h : PcOk log x) (hadds : Adds k log log') (hne : x.tid ≠ k) : PcOk log' x := by
  have hload : ∀ b, .loaded x.tid b ∈ log' ↔ .loaded x.tid b ∈ log :=
    fun b => hadds.mem (n := .loaded x.tid b) hne
  have hkill : .killed x.tid ∈ log' ↔ .killed x.tid ∈ log := hadds.mem hne
  have hdes : ∀ v, .destructed x.tid v ∈ log' ↔ .destructed x.tid v ∈ log :=
    fun v => hadds.mem (n := .destructed x.tid v) hne
  have hunw := hadds.unwaited hne
  have halive : Alive log x → Alive log' x := fun ha =>
    ⟨by rw [hload]; exact ha.loaded, by rw [hkill]; exact ha.spared,
      fun v => by rw [hdes]; exact ha.status v, ha.sema⟩
  have hended : Ended log x → Ended log' x := fun he =>
    ⟨fun v => by rw [hdes]; exact he.status v, by rw [hload, hkill]; exact he.failed⟩
  unfold PcOk at h ⊢
  split at h <;> simp_all

theorem Link.adds (h : Link G log initial p x c y) (hadds : Adds k log log') (hne : y.tid ≠ k) :
    Link G log' initial p x c y := by
  have hload : ∀ b, .loaded y.tid b ∈ log' ↔ .loaded y.tid b ∈ log :=
    fun b => hadds.mem (n := .loaded y.tid b) hne
  have hread : y.mayRead log' ↔ y.mayRead log := by rw [Thread.mayRead, hload, Thread.mayRead]
  refine { h with reported := ?_, failed := ?_, read := ?_, remove := ?_ }
  · simp only [hload]
    exact h.reported
  · rw [hload]
    exact h.failed
  · rw [hread]
    exact h.read
  · rw [hread]
    exact h.remove

end Frame

section Update

variable {G : Prop} {s : Tree} {t : Nat} {x x' : Thread} {log : List Note}

theorem TreeInv.child_ne (h : TreeInv G s) {p c : Nat} (hx : s.page p = some x)
    (hc : c ∈ x.children) : c ≠ p := by
  rintro rfl
  obtain ⟨-, y, hy, hlt⟩ := h.child hx hc
  cases hx.symm.trans hy
  omega

theorem TreeInv.tid_ne (h : TreeInv G s) {a b : Nat} {y : Thread} (hx : s.page a = some x)
    (hy : s.page b = some y) (hne : a ≠ b) : x.tid ≠ y.tid :=
  fun htid => hne (h.tidInj hx hy htid)

theorem TreeInv.loadSema_eq (h : TreeInv G s) (hx : s.page t = some x) (ht : t ≠ s.initialThread)
    (hpc : ∀ tid, x.pc ≠ .downLoadSema tid) : x.loadSema = 0 := by
  rcases h.calm hx ht with hz | ⟨-, tid, he⟩
  · exact hz
  · exact absurd he (hpc tid)

/-- The invariant after a change of the thread `t`: children may have left its list, threads that are
in no list may have come in, and the history may have grown by notes about `t`. What is left to show
is about `t`, and between `t` and its children and its parent. -/
theorem TreeInv.update (h : TreeInv G s) (hx : s.page t = some x) (htid : x'.tid = x.tid)
    (hchild : ∀ c ∈ x'.children, c ∈ x.children ∨ (c ≠ s.initialThread ∧
      (∃ y, s.page c = some y ∧ x.tid < y.tid) ∧ ∀ p z, s.page p = some z → c ∉ z.children))
    (hnodup : x'.children.Nodup) (hadds : Adds x.tid s.log log)
    (hdrop : ∀ c y, c ∈ x.children → s.page c = some y → y.pc.reporting = true → c ∈ x'.children)
    (hunw : ∀ tid, unwaited x.tid tid log = true ↔
      ∃ c ∈ x'.children, ∃ y, s.page c = some y ∧ y.tid = tid)
    (hreports : Always (Reports G) log) (hinit : t = s.initialThread → x'.pc.inActions = true)
    (hhome : x'.pc.reporting = true → ∃ p w, s.page p = some w ∧ t ∈ w.children)
    (hpc : PcOk log x')
    (hcalm : t ≠ s.initialThread →
      x'.loadSema = 0 ∨ x'.loadSema = 1 ∧ ∃ tid, x'.pc = .downLoadSema tid)
    (hdown : ∀ c y, c ∈ x'.children → s.page c = some y →
      Link G log s.initialThread t x' c y)
    (hup : ∀ p w, s.page p = some w → t ∈ w.children → Link G log s.initialThread p w t x') :
    TreeInv G { s with page := Function.update s.page t (some x'), log := log } := by
  -- A thread of the new state, and the thread that was there before.
  have hold : ∀ {a z}, Function.update s.page t (some x') a = some z →
      ∃ z₀, s.page a = some z₀ ∧ z₀.tid = z.tid := by
    intro a z hz
    rcases update_eq_some hz with ⟨rfl, rfl⟩ | ⟨-, hz⟩
    · exact ⟨x, hx, htid.symm⟩
    · exact ⟨z, hz, rfl⟩
  have hput : ∀ {a z}, s.page a = some z →
      ∃ z', Function.update s.page t (some x') a = some z' ∧ z'.tid = z.tid := by
    intro a z hz
    by_cases ha : a = t
    · subst ha
      cases hx.symm.trans hz
      exact ⟨x', update_self .., htid⟩
    · exact ⟨z, by rw [update_of_ne ha, hz], rfl⟩
  constructor
  case reports => exact hreports
  case fresh =>
    intro n hn
    by_cases hk : n.about = x.tid
    · rw [hk]
      exact (h.tid hx).2
    · exact h.fresh n ((hadds.mem hk).mp hn)
  case tid =>
    intro a z hz
    obtain ⟨z₀, hz₀, hk⟩ := hold hz
    rw [← hk]
    exact h.tid hz₀
  case tidInj =>
    intro a b z w hz hw hk
    obtain ⟨z₀, hz₀, hkz⟩ := hold hz
    obtain ⟨w₀, hw₀, hkw⟩ := hold hw
    exact h.tidInj hz₀ hw₀ (by rw [hkz, hkw, hk])
  case child =>
    intro p z c hz hc
    have hy : c ≠ s.initialThread ∧ ∃ y, s.page c = some y ∧ z.tid < y.tid := by
      rcases update_eq_some hz with ⟨rfl, rfl⟩ | ⟨-, hz⟩
      · rw [htid]
        rcases hchild c hc with hc | ⟨hi, hy, -⟩
        · exact h.child hx hc
        · exact ⟨hi, hy⟩
      · exact h.child hz hc
    obtain ⟨hi, y, hy, hlt⟩ := hy
    obtain ⟨y', hy', hk'⟩ := hput hy
    exact ⟨hi, y', hy', by rw [hk']; exact hlt⟩
  case owner =>
    -- A list that `t` shares with another thread would have been shared before.
    have hother : ∀ {p z c}, p ≠ t → s.page p = some z → c ∈ z.children → c ∉ x'.children := by
      intro p z c hp hz hc hc'
      rcases hchild c hc' with hc' | ⟨-, -, hnone⟩
      · exact hp (h.owner hz hx hc hc')
      · exact hnone p z hz hc
    intro p p' z z' c hz hz' hc hc'
    rcases update_eq_some hz with ⟨rfl, rfl⟩ | ⟨hp, hz₀⟩
    · rcases update_eq_some hz' with ⟨rfl, rfl⟩ | ⟨hp', hz₀'⟩
      · rfl
      · exact absurd hc (hother hp' hz₀' hc')
    · rcases update_eq_some hz' with ⟨rfl, rfl⟩ | ⟨-, hz₀'⟩
      · exact absurd hc' (hother hp hz₀ hc)
      · exact h.owner hz₀ hz₀' hc hc'
  case nodup =>
    intro p z hz
    rcases update_eq_some hz with ⟨rfl, rfl⟩ | ⟨-, hz⟩
    · exact hnodup
    · exact h.nodup hz
  case listed =>
    intro p z hz tid
    have hiff : (∃ c ∈ z.children, ∃ y, Function.update s.page t (some x') c = some y ∧
        y.tid = tid) ↔ ∃ c ∈ z.children, ∃ y, s.page c = some y ∧ y.tid = tid := by
      refine ⟨fun ⟨c, hc, y, hy, hk⟩ => ?_, fun ⟨c, hc, y, hy, hk⟩ => ?_⟩
      · obtain ⟨y₀, hy₀, hk₀⟩ := hold hy
        exact ⟨c, hc, y₀, hy₀, hk₀.trans hk⟩
      · obtain ⟨y', hy', hk'⟩ := hput hy
        exact ⟨c, hc, y', hy', hk'.trans hk⟩
    rw [hiff]
    rcases update_eq_some hz with ⟨rfl, rfl⟩ | ⟨hp, hz⟩
    · rw [htid]
      exact hunw tid
    · show unwaited z.tid tid log = true ↔ _
      rw [hadds.unwaited (h.tid_ne hz hx hp)]
      exact h.listed hz tid
  case initial =>
    obtain ⟨z, hz, hin⟩ := h.initial
    by_cases ht : t = s.initialThread
    · exact ⟨x', by rw [← ht]; exact update_self .., hinit ht⟩
    · exact ⟨z, (update_of_ne (Ne.symm ht) ..).trans hz, hin⟩
  case home =>
    intro c y hy hrep
    rcases update_eq_some hy with ⟨rfl, rfl⟩ | ⟨-, hy₀⟩
    · obtain ⟨p, w, hw, hc⟩ := hhome hrep
      exact ⟨p, w, (update_of_ne (h.child_ne hw hc).symm ..).trans hw, hc⟩
    · obtain ⟨p, z, hz, hc⟩ := h.home hy₀ hrep
      by_cases hp : p = t
      · subst hp
        cases hx.symm.trans hz
        exact ⟨p, x', update_self .., hdrop c y hc hy₀ hrep⟩
      · exact ⟨p, z, (update_of_ne hp ..).trans hz, hc⟩
  case pc =>
    intro a z hz
    rcases update_eq_some hz with ⟨rfl, rfl⟩ | ⟨ha, hz⟩
    · exact hpc
    · exact (h.pc hz).adds hadds (h.tid_ne hz hx ha)
  case calm =>
    intro a z hz hne
    rcases update_eq_some hz with ⟨rfl, rfl⟩ | ⟨ha, hz⟩
    · exact hcalm hne
    · exact h.calm hz hne
  case link =>
    intro p z c y hz hc hy
    rcases update_eq_some hz with ⟨rfl, rfl⟩ | ⟨hp, hz₀⟩
    · rcases update_eq_some hy with ⟨rfl, rfl⟩ | ⟨-, hy₀⟩
      · -- No thread is its own child.
        rcases hchild _ hc with hc | ⟨-, ⟨w, hw, hlt⟩, -⟩
        · exact absurd rfl (h.child_ne hx hc)
        · cases hx.symm.trans hw
          omega
      · exact hdown c y hc hy₀
    · rcases update_eq_some hy with ⟨rfl, rfl⟩ | ⟨hne, hy₀⟩
      · exact hup p z hz₀ hc
      · exact (h.link hz₀ hc hy₀).adds hadds (h.tid_ne hy₀ hx hne)

theorem TreeInv.move (h : TreeInv G s) (hx : s.page t = some x) (htid : x'.tid = x.tid)
    (hchildren : x'.children = x.children) (hadds : Adds x.tid s.log log)
    (hunw : ∀ tid, unwaited x.tid tid log = unwaited x.tid tid s.log)
    (hreports : Always (Reports G) log) (hinit : t = s.initialThread → x'.pc.inActions = true)
    (hhome : x'.pc.reporting = true → ∃ p w, s.page p = some w ∧ t ∈ w.children)
    (hpc : PcOk log x')
    (hcalm : t ≠ s.initialThread →
      x'.loadSema = 0 ∨ x'.loadSema = 1 ∧ ∃ tid, x'.pc = .downLoadSema tid)
    (hdown : ∀ c y, c ∈ x.children → s.page c = some y → Link G log s.initialThread t x' c y)
    (hup : ∀ p w, s.page p = some w → t ∈ w.children → Link G log s.initialThread p w t x') :
    TreeInv G { s with page := Function.update s.page t (some x'), log := log } := by
  refine h.update hx htid (by rw [hchildren]; exact fun c hc => .inl hc)
    (by rw [hchildren]; exact h.nodup hx) hadds (fun c y hc _ _ => hchildren ▸ hc) (fun tid => ?_)
    hreports hinit hhome hpc hcalm (by rw [hchildren]; exact hdown) hup
  rw [hunw, hchildren]
  exact h.listed hx tid

end Update

section Links

variable {G : Prop} {log log' : List Note} {initial p t c : Nat} {w x x' y : Thread}

/-- Outside `sys_exec` a user process has no child that is still in `start_process`, and none that
failed to load. -/
theorem Link.settled (h : Link G log initial t x c y) (hexec : x.pc.execTid = none)
    (ht : t ≠ initial) : y.pc.reporting = false ∧ .loaded y.tid false ∉ log := by
  refine ⟨Bool.eq_false_iff.mpr fun hrep => ?_, fun hload => ?_⟩
  · rw [(h.reporting hrep ht).1] at hexec
    cases hexec
  · rw [h.failed ht hload] at hexec
    cases hexec

theorem Link.parent_moves (h : Link G log initial t x c y)
    (hsettled : t ≠ initial → y.pc.reporting = false ∧ .loaded y.tid false ∉ log')
    (hexec : x'.pc.execTid = none) (hdown : ∀ tid, x'.pc = .downChildSema c tid → y.tid = tid)
    (hread : ∀ tid, x'.pc = .readStatus c tid → y.tid = tid ∧ y.mayRead log')
    (hremove : ∀ v, x'.pc = .removeChild y.tid v →
      y.mayRead log' ∧ (G → y.pc.destructed = true ∧ y.returnStatus = v))
    (hreaps : x.pc.reaps c y.tid = true → x'.pc.reaps c y.tid = true) :
    Link G log' initial t x' c y where
  parent := h.parent
  reporting hrep ht := by
    rw [(hsettled ht).1] at hrep
    cases hrep
  reported he := by
    rw [hexec] at he
    cases he
  failed ht hload := absurd hload (hsettled ht).2
  down := hdown
  read := hread
  remove := hremove
  posted hdying := (h.posted hdying).imp_right hreaps

theorem Link.parent_execs (h : Link G log initial t x c y) (ht : t ≠ initial)
    (hsema : ∀ tid, x.pc = .downLoadSema tid → 0 < x.loadSema)
    (hexec : x'.pc.execTid = x.pc.execTid) (hsome : x.pc.execTid ≠ none)
    (hsuccess : x'.success = x.success) : Link G log initial t x' c y where
  parent := h.parent
  reporting hrep _ := by
    obtain ⟨hpc, hzero, -⟩ := h.reporting hrep ht
    have := hsema _ hpc
    omega
  reported he _ := by
    rw [hsuccess]
    exact h.reported (hexec ▸ he) fun hpc => hsema _ hpc
  failed _ hload := hexec.trans (h.failed ht hload)
  down tid hpc := by
    rw [hpc] at hexec
    exact absurd hexec.symm hsome
  read tid hpc := by
    rw [hpc] at hexec
    exact absurd hexec.symm hsome
  remove v hpc := by
    rw [hpc] at hexec
    exact absurd hexec.symm hsome
  posted hdying := by
    refine (h.posted hdying).imp_right fun hr => absurd ?_ hsome
    cases hpc : x.pc <;> simp_all [ThreadPc.reaps, ThreadPc.execTid]

theorem Link.child_moves (h : Link G log initial p w t x) (htid : x'.tid = x.tid)
    (hload : ∀ b, .loaded x.tid b ∈ log' ↔ .loaded x.tid b ∈ log)
    (hrep : x'.pc.reporting = false) (hread : x.mayRead log → x'.mayRead log')
    (hdes : x.pc.destructed = true →
      x'.pc.destructed = true ∧ x'.returnStatus = x.returnStatus)
    (hpost : x'.pc.posted = true → 0 < x'.childSema ∨ w.pc.reaps t x.tid = true) :
    Link G log' initial p w t x' where
  parent hr := by
    rw [hrep] at hr
    cases hr
  reporting hr := by
    rw [hrep] at hr
    cases hr
  reported := by
    simp only [htid, hload]
    exact h.reported
  failed := by
    rw [htid, hload]
    exact h.failed
  down tid hpc := htid.trans (h.down tid hpc)
  read tid hpc := ⟨htid.trans (h.read tid hpc).1, hread (h.read tid hpc).2⟩
  remove v hpc := by
    rw [htid] at hpc
    refine ⟨hread (h.remove v hpc).1, fun hG => ?_⟩
    obtain ⟨hd, hv⟩ := (h.remove v hpc).2 hG
    exact ⟨(hdes hd).1, (hdes hd).2.trans hv⟩
  posted := by
    rw [htid]
    exact hpost

theorem Link.child_reports (h : Link G log initial p w t x) (htid : x'.tid = x.tid)
    (hparent : x'.parent = x.parent) (hrep : x.pc.reporting = true)
    (hrep' : x'.pc.reporting = true) (hinit : p = initial → w.pc.execTid = none)
    (hok : p ≠ initial → ∀ ok, x'.pc = .upLoadSema ok → w.success = ok) :
    Link G log' initial p w t x' := by
  have hnot : x.pc.destructed = false ∧ x.pc.destructs = false := by
    cases hpc : x.pc <;> simp_all [ThreadPc.reporting, ThreadPc.destructed, ThreadPc.destructs]
  constructor
  case parent => exact fun _ => hparent.trans (h.parent hrep)
  case reporting =>
    intro _ hp
    obtain ⟨hpc, hzero, -⟩ := h.reporting hrep hp
    exact ⟨htid ▸ hpc, hzero, hok hp⟩
  case reported =>
    intro he hsema
    by_cases hp : p = initial
    · rw [hinit hp] at he
      cases he
    · obtain ⟨hpc, hzero, -⟩ := h.reporting hrep hp
      have := hsema (htid ▸ hpc)
      omega
  case failed =>
    intro hp _
    rw [(h.reporting hrep hp).1, htid]
    rfl
  case down => exact fun tid hpc => htid.trans (h.down tid hpc)
  case read =>
    intro tid hpc
    have := (h.read tid hpc).2
    simp [Thread.mayRead, hnot] at this
  case remove =>
    intro v hpc
    rw [htid] at hpc
    have := (h.remove v hpc).1
    simp [Thread.mayRead, hnot] at this
  case posted =>
    intro hpost
    cases hpc : x'.pc <;> simp_all [ThreadPc.posted, ThreadPc.reporting]

end Links

/-! ## A thread that goes on -/

section Goes

variable {G : Prop} {s : Tree} {t : Nat} {x x' : Thread}

theorem TreeInv.ne_initial (h : TreeInv G s) (hx : s.page t = some x)
    (hpc : x.pc.inActions = false) : t ≠ s.initialThread := by
  rintro rfl
  obtain ⟨z, hz, hin⟩ := h.initial
  cases hx.symm.trans hz
  rw [hpc] at hin
  cases hin

theorem TreeInv.initial_inActions (h : TreeInv G s) (hx : s.page t = some x)
    (ht : t = s.initialThread) : x.pc.inActions = true := by
  subst ht
  obtain ⟨z, hz, hin⟩ := h.initial
  cases hx.symm.trans hz
  exact hin

theorem execTid_of_inActions {pc : ThreadPc} (h : pc.inActions = true) : pc.execTid = none := by
  cases pc <;> first | rfl | cases h

variable {log : List Note}

theorem Alive.of_eq (h : Alive log x) (htid : x'.tid = x.tid)
    (hsema : x'.childSema = x.childSema) : Alive log x' :=
  ⟨htid ▸ h.loaded, htid ▸ h.spared, htid ▸ h.status, hsema.trans h.sema⟩

theorem Alive.add {n : Note} (h : Alive log x)
    (hload : n ≠ .loaded x.tid false) (hkill : n ≠ .killed x.tid)
    (hdes : ∀ v, n ≠ .destructed x.tid v) : Alive (n :: log) x :=
  ⟨fun hn => (mem_cons.mp hn).elim (fun e => hload e.symm) h.loaded,
    fun hn => (mem_cons.mp hn).elim (fun e => hkill e.symm) h.spared,
    fun v hn => (mem_cons.mp hn).elim (fun e => hdes v e.symm) (h.status v), h.sema⟩

theorem PcOk.mayRead (h : PcOk log x) (hsema : 0 < x.childSema) :
    x.mayRead log := by
  unfold Thread.mayRead
  unfold PcOk at h
  split at h <;> simp_all [ThreadPc.destructed, ThreadPc.destructs]
  all_goals
    first
      | exact absurd h.sema (Nat.pos_iff_ne_zero.mp hsema)
      | exact absurd h.1.sema (Nat.pos_iff_ne_zero.mp hsema)

/-- A history that has grown by a note that changes neither what is unwaited nor what failed to
load. -/
structure Quiet (k : Int) (log log' : List Note) : Prop extends Adds k log log' where
  waits : ∀ p tid, Process.unwaited p tid log' = Process.unwaited p tid log
  loads : ∀ tid b, .loaded tid b ∈ log' ↔ .loaded tid b ∈ log

theorem Quiet.refl (k : Int) (log : List Note) : Quiet k log log :=
  ⟨.refl k log, fun _ _ => rfl, fun _ _ => Iff.rfl⟩

theorem Quiet.killed (k : Int) (log : List Note) : Quiet k log (.killed k :: log) :=
  ⟨.cons (.killed k) log, fun _ _ => rfl, fun _ _ => by simp⟩

theorem Quiet.destructed (k v : Int) (log : List Note) : Quiet k log (.destructed k v :: log) :=
  ⟨.cons (.destructed k v) log, fun _ _ => rfl, fun _ _ => by simp⟩

theorem Quiet.waited {k tid : Int} (v : Int) (h : unwaited k tid log = false) :
    Quiet k log (.waited k tid v :: log) := by
  refine ⟨.cons (.waited k tid v) log, fun p tid' => ?_, fun _ _ => by simp⟩
  simp only [unwaited]
  by_cases heq : k = p ∧ tid = tid'
  · obtain ⟨rfl, rfl⟩ := heq
    simp [h]
  · simp [heq]

theorem Quiet.execReturned {k tid eax : Int} (h : eax ≠ -1) :
    Quiet k log (.execReturned k tid eax :: log) :=
  ⟨.cons (.execReturned k tid eax) log, fun p tid' => by simp [unwaited, h], fun _ _ => by simp⟩

theorem TreeInv.goes (h : TreeInv G s) (hx : s.page t = some x)
    (hquiet : Quiet x.tid s.log log) (hreports : Always (Reports G) log) (htid : x'.tid = x.tid)
    (hchildren : x'.children = x.children) (hsema : x'.loadSema = x.loadSema)
    (hinit : t = s.initialThread → x'.pc.inActions = true) (hrep : x'.pc.reporting = false)
    (hexec : x.pc.execTid = none) (hexec' : x'.pc.execTid = none)
    (hwait : ∀ c tid, x.pc.reaps c tid = false)
    (hwait' : ∀ c tid v, x'.pc ≠ .downChildSema c tid ∧ x'.pc ≠ .readStatus c tid ∧
      x'.pc ≠ .removeChild tid v)
    (hset : x.pc.destructs = true → x'.pc.destructed = true)
    (hdes : x.pc.destructed = true →
      x'.pc.destructed = true ∧ x'.returnStatus = x.returnStatus)
    (hpost : x'.pc.posted = true →
      0 < x'.childSema ∨ x.pc.posted = true ∧ x'.childSema = x.childSema)
    (hpc : PcOk log x') :
    TreeInv G { s with page := Function.update s.page t (some x'), log := log } := by
  refine h.move hx htid hchildren hquiet.toAdds (hquiet.waits x.tid) hreports hinit (by simp [hrep])
    hpc (fun ht => ?_) (fun c y hc hy => ?_) fun p w hw hc => ?_
  · refine .inl (hsema.trans (h.loadSema_eq (x := x) hx ht fun tid he => ?_))
    rw [he] at hexec
    cases hexec
  · have hlink := h.link hx hc hy
    refine hlink.parent_moves (fun ht => ?_) hexec' (fun tid he => absurd he (hwait' c tid 0).1)
      (fun tid he => absurd he (hwait' c tid 0).2.1) (fun v he => absurd he (hwait' c _ v).2.2)
      fun hr => ?_
    · rw [hquiet.loads]
      exact hlink.settled hexec ht
    · rw [hwait] at hr
      cases hr
  · refine (h.link hw hc hx).child_moves htid (hquiet.loads _) hrep (fun hr => ?_) hdes fun hd => ?_
    · rcases hr with hd | ⟨hd, -⟩
      · exact .inl (hdes hd).1
      · exact .inl (hset hd)
    · rcases hpost hd with hpos | ⟨hold, heq⟩
      · exact .inl hpos
      · rw [heq]
        exact (h.link hw hc hx).posted hold

theorem PcOk.of_le (h : PcOk log x) (hpc : x'.pc = x.pc) (htid : x'.tid = x.tid)
    (hchildren : x'.children = x.children) (hstatus : x'.returnStatus = x.returnStatus)
    (hsema : x'.childSema ≤ x.childSema)
    (hsuccess : x'.success = x.success ∨ ∀ tid eax, x.pc ≠ .dropFailed tid eax) :
    PcOk log x' := by
  have halive : Alive log x → Alive log x' := fun ha =>
    ha.of_eq htid (Nat.le_antisymm hsema (by rw [ha.sema]; exact Nat.zero_le _))
  have hended : Ended log x → Ended log x' := fun he =>
    ⟨by rw [htid, hstatus]; exact he.status, by rw [htid, hstatus]; exact he.failed⟩
  unfold PcOk at h ⊢
  rw [hpc, htid, hchildren]
  cases he : x.pc with
  | dropFailed tid eax =>
    simp only [he] at h ⊢
    refine ⟨halive h.1, h.2.1, ?_⟩
    rcases hsuccess with hs | hs
    · rw [hs]
      exact h.2.2
    · exact absurd he (hs tid eax)
  | _ =>
    simp only [he] at h ⊢
    first
      | exact halive h
      | exact hended h
      | exact ⟨halive h.1, h.2⟩
      | exact ⟨hended h.1, h.2⟩
      | exact ⟨h.1, h.2.1, h.2.2.1, by omega⟩
      | exact ⟨h.1, h.2.1, by omega⟩
      | exact ⟨h.1, h.2.1, fun hpos => h.2.2 (by omega)⟩

end Goes

end Pintos.Process
