import Pintos.Userprog.ProcessTree

/-!
# The steps of parents and children keep the invariant

One lemma for each step of the machine of `Pintos.Userprog.Process`, by the function of the source
that takes it. A step that writes to two threads is taken apart: the invariant holds in between.
-/

namespace Pintos.Process

open Lib Function List ThreadPc Thread Process.Tree

section Steps

variable {G : Prop} {s s' : Tree} {a c t : Nat} {eax tid : Int} {x x' y : Thread}

/-! ### The lists of children -/

theorem childelemFromTid_found {page : Nat → Option Thread} {cs : List Nat}
    (h : childelemFromTid page tid cs = some (some c)) :
    c ∈ cs ∧ ∃ y, page c = some y ∧ y.tid = tid := by
  induction cs with
  | nil => cases h
  | cons a cs ih =>
    rw [childelemFromTid] at h
    split at h
    · cases h
    · next y hy =>
      split at h
      · next htid =>
        cases h
        exact ⟨mem_cons_self .., y, hy, htid⟩
      · obtain ⟨hc, hy⟩ := ih h
        exact ⟨mem_cons_of_mem _ hc, hy⟩

theorem childelemFromTid_missing {page : Nat → Option Thread} {cs : List Nat}
    (h : childelemFromTid page tid cs = some none) :
    ¬ ∃ c ∈ cs, ∃ y, page c = some y ∧ y.tid = tid := by
  induction cs with
  | nil => simp
  | cons a cs ih =>
    rw [childelemFromTid] at h
    split at h
    · cases h
    · next y hy =>
      split at h
      · cases h
      · next htid =>
        rintro ⟨c, hc, z, hz, rfl⟩
        rcases mem_cons.mp hc with rfl | hc
        · cases hy.symm.trans hz
          exact htid rfl
        · exact ih h ⟨c, hc, z, hz, rfl⟩

theorem TreeInv.free (h : TreeInv G s) (hy : s.page c = some y)
    (hread : y.mayRead s.log) (hlist : ∀ p x, s.page p = some x → c ∉ x.children) :
    TreeInv G (s.free c) := by
  have hout : y.pc.inActions = false ∧ y.pc.execTid = none := by
    cases he : y.pc <;> simp_all [mayRead, destructed, destructs, inActions, execTid]
  have hne : c ≠ s.initialThread := h.ne_initial hy hout.1
  have hold : ∀ {a z}, (s.free c).page a = some z → a ≠ c ∧ s.page a = some z := by
    intro a z hz
    by_cases ha : a = c
    · subst ha
      cases (update_self ..).symm.trans hz
    · exact ⟨ha, (update_of_ne ha ..).symm.trans hz⟩
  have hkeep : ∀ {a z}, a ≠ c → s.page a = some z → (s.free c).page a = some z :=
    fun ha hz => (update_of_ne ha ..).trans hz
  have hchild : ∀ {p x c'}, (s.free c).page p = some x → c' ∈ x.children → c' ≠ c := by
    rintro p x c' hx hc rfl
    exact hlist p x (hold hx).2 hc
  constructor
  case reports => exact h.reports
  case fresh => exact h.fresh
  case tid => exact fun hz => h.tid (hold hz).2
  case tidInj => exact fun hz hw => h.tidInj (hold hz).2 (hold hw).2
  case child =>
    intro p x c' hx hc
    obtain ⟨hi, y', hy', hlt⟩ := h.child (hold hx).2 hc
    exact ⟨hi, y', hkeep (hchild hx hc) hy', hlt⟩
  case owner => exact fun hz hw => h.owner (hold hz).2 (hold hw).2
  case nodup => exact fun hz => h.nodup (hold hz).2
  case listed =>
    intro p x hx tid
    refine (h.listed (hold hx).2 tid).trans ⟨?_, ?_⟩
    · rintro ⟨c', hc, y', hy', hk⟩
      exact ⟨c', hc, y', hkeep (hchild hx hc) hy', hk⟩
    · rintro ⟨c', hc, y', hy', hk⟩
      exact ⟨c', hc, y', (hold hy').2, hk⟩
  case initial =>
    obtain ⟨z, hz, hin⟩ := h.initial
    exact ⟨z, hkeep (Ne.symm hne) hz, hin⟩
  case home =>
    intro c' y' hy' hrep
    obtain ⟨p, x, hx, hc⟩ := h.home (hold hy').2 hrep
    refine ⟨p, x, hkeep ?_ hx, hc⟩
    -- The parent of a thread in `start_process` has not ended.
    rintro rfl
    cases hy.symm.trans hx
    rw [((h.link hy hc (hold hy').2).reporting hrep hne).1] at hout
    cases hout.2
  case pc => exact fun hz => h.pc (hold hz).2
  case calm => exact fun hz => h.calm (hold hz).2
  case link => exact fun hz hc hy' => h.link (hold hz).2 hc (hold hy').2

/-! ### `start_process` -/

section

variable (h : TreeInv G s) (hx : s.page t = some x)
include h hx

theorem TreeInv.loadReturns {ok : Bool} (hpc : x.pc = .load) :
    TreeInv G ((s.goto t x (.setSuccess ok)).note (.loaded x.tid ok)) := by
  have hold := h.pc hx
  simp only [PcOk, hpc] at hold
  obtain ⟨halive, hnot⟩ := hold
  have hnone : ∀ b, .loaded x.tid b ∉ s.log := by
    intro b
    cases b with
    | true => exact hnot
    | false => exact halive.loaded
  have hne : t ≠ s.initialThread := h.ne_initial hx (by rw [hpc]; rfl)
  have hadds : Adds x.tid s.log (.loaded x.tid ok :: s.log) := .cons (.loaded x.tid ok) _
  refine h.move (x := x) hx rfl rfl hadds (fun _ => rfl) ⟨trivial, h.reports⟩ (fun ht => absurd ht hne)
    (fun _ => h.home hx (by rw [hpc]; rfl)) ⟨?_, ?_, ?_, halive.sema⟩
    (fun ht => .inl (h.loadSema_eq (x := x) hx ht (by simp [hpc]))) (fun c y hc hy => ?_)
    fun p w hw hc => ?_
  · simp [hnone]
  · simp [halive.spared]
  · simp [halive.status]
  · have hlink := h.link hx hc hy
    refine hlink.parent_moves (fun ht => ?_) rfl nofun nofun nofun ?_
    · have hset := hlink.settled (by rw [hpc]; rfl) ht
      refine ⟨hset.1, fun hmem => hset.2 ((hadds.mem ?_).mp hmem)⟩
      exact h.tid_ne hy hx (h.child_ne hx hc)
    · rw [hpc]
      nofun
  · exact (h.link hw hc hx).child_reports rfl rfl (by rw [hpc]; rfl) rfl
      (fun hp => execTid_of_inActions (h.initial_inActions hw hp)) nofun

theorem TreeInv.reporter (hrep : x.pc.reporting = true) {p : Nat} {w : Thread}
    (hpar : x.parent = some p) (hw : s.page p = some w) :
    t ∈ w.children ∧ p ≠ t ∧ Link G s.log s.initialThread p w t x := by
  obtain ⟨p', w', hw', hc⟩ := h.home hx hrep
  have hlink := h.link hw' hc hx
  cases hpar.symm.trans (hlink.parent hrep)
  cases hw.symm.trans hw'
  exact ⟨hc, (h.child_ne hw hc).symm, hlink⟩

theorem TreeInv.setSuccess {ok : Bool} {p : Nat} {w : Thread} (hpc : x.pc = .setSuccess ok)
    (hpar : x.parent = some p) (hw : s.page p = some w) :
    TreeInv G ((s.put p { w with success := ok }).goto t x (.upLoadSema ok)) := by
  have hrep : x.pc.reporting = true := by rw [hpc]; rfl
  obtain ⟨hmem, hpt, hlink⟩ := h.reporter hx hrep hpar hw
  -- The parent waits for this report, or is the initial thread, which does not read it.
  have hparent : (p ≠ s.initialThread → w.pc = .downLoadSema x.tid ∧ w.loadSema = 0) ∧
      ∀ tid eax, w.pc ≠ .dropFailed tid eax := by
    refine ⟨fun hp => ⟨(hlink.reporting hrep hp).1, (hlink.reporting hrep hp).2.1⟩, ?_⟩
    intro tid eax he
    by_cases hp : p = s.initialThread
    · have := h.initial_inActions hw hp
      rw [he] at this
      cases this
    · rw [(hlink.reporting hrep hp).1] at he
      cases he
  have h₁ : TreeInv G (s.put p { w with success := ok }) := by
    refine h.move (x := w) hw rfl rfl (.refl _ _) (fun _ => rfl) h.reports
      (h.initial_inActions (x := w) hw) (h.home (y := w) hw)
      ((h.pc hw).of_le rfl rfl rfl rfl (Nat.le_refl _) (.inr hparent.2)) (h.calm (x := w) hw)
      (fun c y hc hy => ?_) fun q v hv hc => ?_
    · have hl := h.link hw hc hy
      refine { hl with reporting := fun hr hp => ?_, reported := fun he hs => ?_ }
      · obtain ⟨he, hz, -⟩ := hl.reporting hr hp
        refine ⟨he, hz, fun ok' hok' => ?_⟩
        -- Only `t` reports to this parent, and it is before its `sema_up`.
        rw [(hparent.1 hp).1] at he
        cases h.tidInj hx hy (by injection he)
        cases hx.symm.trans hy
        rw [hpc] at hok'
        cases hok'
      · by_cases hp : p = s.initialThread
        · rw [execTid_of_inActions (h.initial_inActions hw hp)] at he
          cases he
        · obtain ⟨hwait, hz⟩ := hparent.1 hp
          change w.pc.execTid = some y.tid at he
          rw [hwait] at he
          have hpos : 0 < w.loadSema := hs (hwait.trans (congrArg _ (by injection he)))
          omega
    · have hl := h.link hv hc hw
      exact ⟨hl.parent, hl.reporting, hl.reported, hl.failed, hl.down, hl.read, hl.remove, hl.posted⟩
  have hx₁ : (s.put p { w with success := ok }).page t = some x :=
    (update_of_ne hpt.symm ..).trans hx
  have hold := h₁.pc hx₁
  simp only [PcOk, hpc] at hold
  refine h₁.move hx₁ rfl rfl (.refl _ _) (fun _ => rfl) h₁.reports
    (fun ht => ?_) (fun _ => h₁.home hx₁ hrep) hold (fun ht => ?_) (fun c y hc hy => ?_) fun q v hv hc => ?_
  · have := h₁.initial_inActions hx₁ ht
    rw [hpc] at this
    cases this
  · exact .inl (h₁.loadSema_eq (x := x) hx₁ ht (by simp [hpc]))
  · have hl := h₁.link hx₁ hc hy
    refine hl.parent_moves (hl.settled (by rw [hpc]; rfl)) rfl nofun nofun nofun ?_
    rw [hpc]
    nofun
  · refine (h₁.link hv hc hx₁).child_reports rfl rfl hrep rfl
      (fun hp => execTid_of_inActions (h₁.initial_inActions hv hp)) fun hq ok' hok' => ?_
    cases hok'
    cases hpar.symm.trans ((h₁.link hv hc hx₁).parent hrep)
    cases (update_self ..).symm.trans hv
    rfl

theorem TreeInv.upLoadSema {ok : Bool} {p : Nat} {w : Thread} (hpc : x.pc = .upLoadSema ok)
    (hpar : x.parent = some p) (hw : s.page p = some w) :
    TreeInv G ((s.goto t x (if ok then .running else .upChildSema)).put p
      { w with loadSema := w.loadSema + 1 }) := by
  have hrep : x.pc.reporting = true := by rw [hpc]; rfl
  obtain ⟨hmem, hpt, hlink⟩ := h.reporter hx hrep hpar hw
  have hold := h.pc hx
  simp only [PcOk, hpc] at hold
  obtain ⟨hfail, hkill, hdes, hzero⟩ := hold
  have hne : t ≠ s.initialThread := h.ne_initial hx (by rw [hpc]; rfl)
  -- The child leaves `start_process`, then the parent can go on.
  have h₁ : TreeInv G (s.goto t x (if ok then .running else .upChildSema)) := by
    refine h.goes hx (.refl _ _) h.reports rfl rfl rfl (fun ht => absurd ht hne) ?_
      (by rw [hpc]; rfl) ?_ (by simp [hpc, reaps]) ?_ (by simp [hpc, destructs])
      (by simp [hpc, destructed]) ?_ ?_
    · cases ok <;> rfl
    · cases ok <;> rfl
    · cases ok <;> simp
    · cases ok <;> rintro ⟨⟩
    · cases ok with
      | true => exact ⟨by simp [hfail], hkill, hdes, hzero⟩
      | false => exact ⟨(hfail false).mpr rfl, hdes, hzero⟩
  have hw₁ : (s.goto t x (if ok then .running else .upChildSema)).page p = some w :=
    (update_of_ne hpt ..).trans hw
  have hx₁ : (s.goto t x (if ok then .running else .upChildSema)).page t =
      some { x with pc := if ok then .running else .upChildSema } := update_self ..
  refine h₁.move (x := w) hw₁ rfl rfl (.refl _ _) (fun _ => rfl) h₁.reports
    (h.initial_inActions (x := w) hw) (h₁.home (y := w) hw₁)
    ((h.pc hw).of_le rfl rfl rfl rfl (Nat.le_refl _) (.inl rfl)) (fun hp => ?_)
    (fun c y hc hy => ?_) fun q v hv hc => ?_
  · obtain ⟨he, hz, -⟩ := hlink.reporting hrep hp
    exact .inr ⟨by rw [hz], x.tid, he⟩
  · have hl := h₁.link hw₁ hc hy
    refine { hl with reporting := fun hr hp => ?_, reported := fun he _ => ?_ }
    · -- No other child reports to this parent, and `t` has reported.
      have hat := (hl.reporting hr hp).1
      rw [(hlink.reporting hrep hp).1] at hat
      cases h₁.tidInj hx₁ hy (by injection hat)
      cases hx₁.symm.trans hy
      cases ok <;> cases hr
    · by_cases hp : p = s.initialThread
      · change w.pc.execTid = some y.tid at he
        rw [execTid_of_inActions (h.initial_inActions hw hp)] at he
        cases he
      · obtain ⟨hat, -, hsucc⟩ := hlink.reporting hrep hp
        change w.pc.execTid = some y.tid at he
        rw [hat] at he
        have htid : x.tid = y.tid := by injection he
        show ∀ b, .loaded y.tid b ∈ s.log ↔ b = w.success
        rw [← htid, hsucc ok hpc]
        exact hfail
  · have hl := h₁.link hv hc hw₁
    exact ⟨hl.parent, hl.reporting, hl.reported, hl.failed, hl.down, hl.read, hl.remove, hl.posted⟩

theorem TreeInv.upChildSema (hpc : x.pc = .upChildSema) :
    TreeInv G (s.put t { x with childSema := x.childSema + 1, pc := .selfDestruct (-1) }) := by
  have hold := h.pc hx
  simp only [PcOk, hpc] at hold
  exact h.goes hx (.refl _ _) h.reports rfl rfl rfl
    (fun ht => absurd ht (h.ne_initial hx (by rw [hpc]; rfl))) rfl (by rw [hpc]; rfl) rfl
    (by simp [hpc, reaps]) (by simp) (by simp [hpc, destructs])
    (by simp [hpc, destructed]) nofun ⟨fun _ => rfl, hold.2.1, fun _ => hold.1⟩

/-! ### `sys_exec` -/

theorem TreeInv.execs (hexec : x.pc.execTid = some tid)
    (hsema : ∀ tid, x.pc = .downLoadSema tid → 0 < x.loadSema) (htid : x'.tid = x.tid)
    (hchildren : x'.children = x.children) (hsuccess : x'.success = x.success)
    (hexec' : x'.pc.execTid = some tid) (hzero : x'.loadSema = 0) (hpc : PcOk s.log x') :
    TreeInv G { s with page := Function.update s.page t (some x') } := by
  have hne : t ≠ s.initialThread := by
    intro ht
    rw [execTid_of_inActions (h.initial_inActions hx ht)] at hexec
    cases hexec
  have hat : x'.pc.reporting = false ∧ x'.pc.posted = false := by
    cases he : x'.pc <;> simp_all [execTid, reporting, posted]
  have hat' : ¬ x.mayRead s.log ∧ x.pc.destructed = false := by
    cases he : x.pc <;>
      simp_all [execTid, mayRead, destructed, destructs]
  refine h.move hx htid hchildren (.refl _ _) (fun _ => rfl) h.reports (fun ht => absurd ht hne)
    (by simp [hat.1]) hpc (fun _ => .inl hzero) (fun c y hc hy => ?_) fun p w hw hc => ?_
  · exact (h.link hx hc hy).parent_execs hne hsema (hexec'.trans hexec.symm) (by simp [hexec])
      hsuccess
  · exact (h.link hw hc hx).child_moves htid (fun _ => Iff.rfl) hat.1 (fun hr => absurd hr hat'.1)
      (by simp [hat'.2]) (by simp [hat.2])

theorem TreeInv.downLoadSema (hpc : x.pc = .downLoadSema tid) (hpos : 0 < x.loadSema) :
    TreeInv G (s.put t { x with loadSema := x.loadSema - 1, pc := .setEax tid }) := by
  have hold := h.pc hx
  simp only [PcOk, hpc] at hold
  have hone : x.loadSema - 1 = 0 := by
    rcases h.calm hx (h.ne_initial hx (by rw [hpc]; rfl)) with hz | ⟨hz, -⟩ <;> omega
  exact h.execs hx (by rw [hpc]; rfl) (fun _ _ => hpos) rfl rfl rfl rfl hone
    ⟨hold.1.of_eq rfl rfl, hold.2⟩

theorem TreeInv.setEax (hpc : x.pc = .setEax tid) :
    TreeInv G (s.goto t x (.dropFailed tid (if x.success then tid else -1))) := by
  have hold := h.pc hx
  simp only [PcOk, hpc] at hold
  have hzero := h.loadSema_eq (x := x) hx (h.ne_initial hx (by rw [hpc]; rfl)) (by simp [hpc])
  exact h.execs hx (by rw [hpc]; rfl) (by simp [hpc]) rfl rfl rfl rfl hzero
    ⟨hold.1.of_eq rfl rfl, hold.2, rfl⟩

theorem TreeInv.reported (hpc : x.pc = .dropFailed tid eax) :
    0 < tid ∧ ∀ b, .loaded tid b ∈ s.log ↔ b = x.success := by
  have hold := h.pc hx
  simp only [PcOk, hpc] at hold
  obtain ⟨c, hc, y, hy, rfl⟩ := (h.listed hx tid).mp hold.2.1
  refine ⟨(h.tid hy).1, (h.link hx hc hy).reported (by rw [hpc]; rfl) fun he => ?_⟩
  rw [hpc] at he
  cases he

theorem TreeInv.removes {n : Note} (halive : Alive s.log x)
    (hzero : t ≠ s.initialThread → x.loadSema = 0) (hc : c ∈ x.children) (hy : s.page c = some y)
    (htid : y.tid = tid) (hrep : y.pc.reporting = false)
    (hn : (∃ v, n = .waited x.tid tid v) ∨ n = .execReturned x.tid tid (-1))
    (hreports : Reports G s.log n)
    (hsettled : ∀ c' y', c' ∈ x.children → c' ≠ c → s.page c' = some y' → t ≠ s.initialThread →
      y'.pc.reporting = false ∧ .loaded y'.tid false ∉ s.log)
    (hreaps : ∀ c' y', c' ∈ x.children → c' ≠ c → s.page c' = some y' →
      x.pc.reaps c' y'.tid = false)
    (hread : ¬ x.mayRead s.log) (hdes : x.pc.destructed = false) :
    TreeInv G ((s.put t { x with children := x.children.erase c, pc := .running }).note n) := by
  have habout : n.about = x.tid := by rcases hn with ⟨v, rfl⟩ | rfl <;> rfl
  have hload : ∀ k b, .loaded k b ∈ n :: s.log ↔ .loaded k b ∈ s.log := by
    rcases hn with ⟨v, rfl⟩ | rfl <;> simp
  have hkept : ∀ {c'}, c' ∈ x.children.erase c ↔ c' ≠ c ∧ c' ∈ x.children :=
    fun {c'} => (h.nodup hx).mem_erase_iff
  have hunw : ∀ tid', unwaited x.tid tid' (n :: s.log) = true ↔
      tid' ≠ tid ∧ unwaited x.tid tid' s.log = true := by
    intro tid'
    rcases hn with ⟨v, rfl⟩ | rfl <;> simp [unwaited, ne_comm]
  refine h.update (x := x) hx rfl (fun c' hc' => .inl (mem_of_mem_erase hc'))
    ((h.nodup hx).erase c) (habout ▸ .cons n s.log) (fun c' y' hc' hy' hr => ?_) (fun tid' => ?_)
    ⟨hreports, h.reports⟩ (fun _ => rfl) (by rintro ⟨⟩) ?_ (fun ht => .inl (hzero ht))
    (fun c' y' hc' hy' => ?_) fun p w hw ht => ?_
  · refine hkept.mpr ⟨?_, hc'⟩
    rintro rfl
    cases hy.symm.trans hy'
    rw [hrep] at hr
    cases hr
  · change unwaited x.tid tid' (n :: s.log) = true ↔ _
    rw [hunw, h.listed hx]
    constructor
    · rintro ⟨hne, c', hc', y', hy', rfl⟩
      refine ⟨c', hkept.mpr ⟨?_, hc'⟩, y', hy', rfl⟩
      rintro rfl
      cases hy.symm.trans hy'
      exact hne htid
    · rintro ⟨c', hc', y', hy', rfl⟩
      obtain ⟨hne, hc'⟩ := hkept.mp hc'
      exact ⟨fun he => hne (h.tidInj hy' hy (he.trans htid.symm)), c', hc', y', hy', rfl⟩
  · refine (halive.add ?_ ?_ ?_ : Alive (n :: s.log) x).of_eq rfl rfl
    · rcases hn with ⟨v, rfl⟩ | rfl <;> simp
    · rcases hn with ⟨v, rfl⟩ | rfl <;> simp
    · rcases hn with ⟨v, rfl⟩ | rfl <;> simp
  · obtain ⟨hne, hc'⟩ := hkept.mp hc'
    refine (h.link hx hc' hy').parent_moves (fun ht => ?_) rfl (by simp) (by simp) (by simp) fun hr => ?_
    · have hset := hsettled c' y' hc' hne hy' ht
      exact ⟨hset.1, fun hmem => hset.2 ((hload _ _).mp hmem)⟩
    · rw [hreaps c' y' hc' hne hy'] at hr
      cases hr
  · exact (h.link hw ht hx).child_moves rfl (hload _) rfl (fun hr => absurd hr hread)
      (by simp [hdes]) (by rintro ⟨⟩)

theorem TreeInv.execSucceeds (hpc : x.pc = .dropFailed tid eax) (hsuccess : x.success = true) :
    TreeInv G ((s.goto t x .running).note (.execReturned x.tid tid eax)) := by
  have hold := h.pc hx
  simp only [PcOk, hpc, hsuccess, if_true] at hold
  obtain ⟨halive, -, rfl⟩ := hold
  obtain ⟨hpos, hloaded⟩ := h.reported hx hpc
  rw [hsuccess] at hloaded
  have hne : t ≠ s.initialThread := h.ne_initial hx (by rw [hpc]; rfl)
  have hquiet : Quiet x.tid s.log (.execReturned x.tid eax eax :: s.log) :=
    .execReturned (by omega)
  refine h.move (x := x) hx rfl rfl hquiet.toAdds (hquiet.waits x.tid) ⟨?_, h.reports⟩ (fun _ => rfl)
    nofun ?_ (fun ht => .inl (h.loadSema_eq (x := x) hx ht (by simp [hpc]))) (fun c y hc hy => ?_)
    fun p w hw hc => ?_
  · exact ⟨true, hloaded, rfl⟩
  · exact (halive.add (by simp) (by simp) (by simp)).of_eq rfl rfl
  · have hl := h.link hx hc hy
    refine hl.parent_moves (fun ht => ⟨?_, fun hload => ?_⟩) rfl nofun nofun nofun ?_
    · refine Bool.eq_false_iff.mpr fun hrep => ?_
      have := (hl.reporting hrep ht).1
      rw [hpc] at this
      cases this
    · -- The only child that may have failed to load is the new one.
      have hload' := (hquiet.loads y.tid false).mp hload
      have hexec := hl.failed ht hload'
      rw [hpc] at hexec
      cases hexec
      cases (hloaded false).mp hload'
    · rw [hpc]
      nofun
  · exact (h.link hw hc hx).child_moves rfl (hquiet.loads _) rfl
      (by simp [mayRead, hpc, destructed, destructs])
      (by simp [hpc, destructed]) nofun

theorem TreeInv.execFails (hpc : x.pc = .dropFailed tid eax) (hsuccess : x.success = false)
    (hfind : childelemFromTid s.page tid x.children = some (some c)) :
    TreeInv G ((s.put t { x with children := x.children.erase c, pc := .running }).note
      (.execReturned x.tid tid eax)) := by
  have hold := h.pc hx
  simp only [PcOk, hpc, hsuccess, Bool.false_eq_true, if_false] at hold
  obtain ⟨halive, -, rfl⟩ := hold
  obtain ⟨-, hload⟩ := h.reported hx hpc
  obtain ⟨hc, y, hy, rfl⟩ := childelemFromTid_found hfind
  have hquit : ∀ {c' y'}, c' ∈ x.children → s.page c' = some y' → t ≠ s.initialThread →
      y'.pc.reporting = false := by
    intro c' y' hc' hy' ht
    refine Bool.eq_false_iff.mpr fun hrep => ?_
    have := ((h.link hx hc' hy').reporting hrep ht).1
    rw [hpc] at this
    cases this
  refine h.removes hx halive (fun ht => h.loadSema_eq (x := x) hx ht (by simp [hpc])) hc hy rfl
    (hquit hc hy (h.ne_initial hx (by rw [hpc]; rfl))) (.inr rfl) ?_
    (fun c' y' hc' hne hy' ht => ⟨hquit hc' hy' ht, fun hload' => ?_⟩) (fun _ _ _ _ _ => by rw [hpc]; rfl)
    ?_ (by rw [hpc]; rfl)
  · exact ⟨false, hsuccess ▸ hload, rfl⟩
  · have hexec := (h.link hx hc' hy').failed ht hload'
    rw [hpc] at hexec
    exact hne (h.tidInj hy' hy (Option.some.inj hexec).symm)
  · simp [mayRead, hpc, destructed, destructs]

/-! ### `process_wait` -/

theorem TreeInv.waits {pc : ThreadPc} (hin : x.pc.inActions = true) (hin' : pc.inActions = true)
    (hpc : PcOk s.log { x with pc := pc })
    (hdown : ∀ c y tid, s.page c = some y → pc = .downChildSema c tid → y.tid = tid)
    (hread : ∀ c y tid, s.page c = some y → pc = .readStatus c tid → y.tid = tid ∧ y.mayRead s.log)
    (hremove : ∀ c y v, s.page c = some y → pc = .removeChild y.tid v →
      y.mayRead s.log ∧ (G → y.pc.destructed = true ∧ y.returnStatus = v))
    (hreaps : ∀ c y, s.page c = some y → x.pc.reaps c y.tid = true → pc.reaps c y.tid = true) :
    TreeInv G (s.goto t x pc) := by
  have hexec := execTid_of_inActions hin
  have hexec' := execTid_of_inActions hin'
  have hlive : ¬ x.mayRead s.log ∧ x.pc.destructed = false := by
    cases he : x.pc <;>
      simp_all [inActions, mayRead, destructed, destructs]
  have hat : pc.reporting = false ∧ pc.posted = false := by
    cases pc <;> simp_all [inActions, reporting, posted]
  refine h.move (x := x) hx rfl rfl (.refl _ _) (fun _ => rfl) h.reports (fun _ => hin')
    (by simp [hat.1]) hpc (fun ht => ?_) (fun c y hc hy => ?_) fun p w hw hc => ?_
  · refine .inl (h.loadSema_eq (x := x) hx ht fun tid he => ?_)
    rw [he] at hexec
    cases hexec
  · have hl := h.link hx hc hy
    exact hl.parent_moves (hl.settled hexec) hexec' (fun tid => hdown c y tid hy)
      (fun tid => hread c y tid hy) (fun v => hremove c y v hy) (hreaps c y hy)
  · exact (h.link hw hc hx).child_moves rfl (fun _ => Iff.rfl) hat.1 (fun hr => absurd hr hlive.1)
      (by simp [hlive.2]) (by simp [hat.2])

theorem TreeInv.waitStarts (hrun : x.pc = .running) :
    TreeInv G (s.goto t x (.processWait tid)) := by
  have hold := h.pc hx
  simp only [PcOk, hrun] at hold
  exact h.waits hx (by rw [hrun]; rfl) rfl (hold.of_eq rfl rfl) (fun _ _ _ _ he => by cases he)
    (fun _ _ _ _ he => by cases he) (fun _ _ _ _ he => by cases he) (by simp [hrun, reaps])

theorem TreeInv.waitOther (hpc : x.pc = .processWait tid)
    (hfind : childelemFromTid s.page tid x.children = some none) :
    TreeInv G ((s.goto t x .running).note (.waited x.tid tid (-1))) := by
  have hold := h.pc hx
  simp only [PcOk, hpc] at hold
  have hunw : unwaited x.tid tid s.log = false := by
    rw [Bool.eq_false_iff]
    exact fun hu => childelemFromTid_missing hfind ((h.listed hx tid).mp hu)
  refine h.goes hx (.waited (-1) hunw) ⟨?_, h.reports⟩ rfl rfl rfl (fun _ => rfl) rfl (by rw [hpc]; rfl)
    rfl (by simp [hpc, reaps]) (by simp) (by simp [hpc, destructs])
    (by simp [hpc, destructed]) nofun ?_
  · simp [Reports, hunw]
  · exact (hold.add (by simp) (by simp) (by simp)).of_eq rfl rfl

theorem TreeInv.waitChild (hpc : x.pc = .processWait tid)
    (hfind : childelemFromTid s.page tid x.children = some (some c)) :
    TreeInv G (s.goto t x (.downChildSema c tid)) := by
  have hold := h.pc hx
  simp only [PcOk, hpc] at hold
  obtain ⟨hc, y, hy, htid⟩ := childelemFromTid_found hfind
  refine h.waits hx (by rw [hpc]; rfl) rfl ⟨hold.of_eq rfl rfl, hc⟩ (fun c' y' tid' hy' he => ?_)
    (fun _ _ _ _ he => by cases he) (fun _ _ _ _ he => by cases he) (by simp [hpc, reaps])
  cases he
  cases hy.symm.trans hy'
  exact htid

theorem TreeInv.downChildSema {c : Nat} {y : Thread} {tid : Int} (hpc : x.pc = .downChildSema c tid)
    (hy : s.page c = some y) (hsema : 0 < y.childSema) :
    TreeInv G ((s.goto t x (.readStatus c tid)).put c { y with childSema := y.childSema - 1 }) := by
  have hold := h.pc hx
  simp only [PcOk, hpc] at hold
  have htid := (h.link hx hold.2 hy).down tid hpc
  have hct := h.child_ne hx hold.2
  have h₁ : TreeInv G (s.goto t x (.readStatus c tid)) := by
    refine h.waits hx (by rw [hpc]; rfl) rfl ⟨hold.1.of_eq rfl rfl, hold.2⟩
      (fun _ _ _ _ he => by cases he) (fun c' y' tid' hy' he => ?_) (fun _ _ _ _ he => by cases he)
      (by simp [hpc, reaps])
    cases he
    cases hy.symm.trans hy'
    exact ⟨htid, (h.pc hy).mayRead hsema⟩
  have hy₁ : (s.goto t x (.readStatus c tid)).page c = some y :=
    (update_of_ne hct ..).trans hy
  have hx₁ : (s.goto t x (.readStatus c tid)).page t = some { x with pc := .readStatus c tid } :=
    update_self ..
  refine h₁.move (x := y) hy₁ rfl rfl (.refl _ _) (fun _ => rfl) h₁.reports
    (h₁.initial_inActions (x := y) hy₁) (h₁.home (y := y) hy₁)
    ((h.pc hy).of_le rfl rfl rfl rfl (Nat.sub_le _ _) (.inl rfl)) (h₁.calm (x := y) hy₁)
    (fun c' y' hc' hy' => ?_) fun p w hw hc => ?_
  · have hl := h₁.link hy₁ hc' hy'
    exact ⟨hl.parent, hl.reporting, hl.reported, hl.failed, hl.down, hl.read, hl.remove, hl.posted⟩
  · have hl := h₁.link hw hc hy₁
    -- The caller is past its `sema_down`.
    cases h₁.owner hw hx₁ hc hold.2
    cases hw.symm.trans hx₁
    exact ⟨hl.parent, hl.reporting, hl.reported, hl.failed, hl.down, hl.read, hl.remove,
      fun _ => .inr (by simp [reaps])⟩

theorem TreeInv.readStatus {c : Nat} {y : Thread} {tid : Int} (hpc : x.pc = .readStatus c tid)
    (hy : s.page c = some y) (hset : G → y.pc.destructed = true) :
    TreeInv G (s.goto t x (.removeChild tid y.returnStatus)) := by
  have hold := h.pc hx
  simp only [PcOk, hpc] at hold
  obtain ⟨htid, hread⟩ := (h.link hx hold.2 hy).read tid hpc
  refine h.waits hx (by rw [hpc]; rfl) rfl ⟨hold.1.of_eq rfl rfl, ?_⟩
    (fun _ _ _ _ he => by cases he) (fun _ _ _ _ he => by cases he)
    (fun c' y' v hy' he => ?_) fun c' y' hy' hr => ?_
  · exact (h.listed hx tid).mpr ⟨c, hold.2, y, hy, htid⟩
  · injection he with hk hv
    cases h.tidInj hy hy' (htid.trans hk)
    cases hy.symm.trans hy'
    exact ⟨hread, fun hG => ⟨hset hG, hv⟩⟩
  · simp only [hpc, reaps, decide_eq_true_eq] at hr
    subst hr
    cases hy.symm.trans hy'
    simp [reaps, htid]

theorem TreeInv.removeChild {v : Int} (hpc : x.pc = .removeChild tid v)
    (hfind : childelemFromTid s.page tid x.children = some (some c)) :
    TreeInv G (((s.put t { x with children := x.children.erase c, pc := .running }).note
      (.waited x.tid tid v)).free c) := by
  obtain ⟨hc, y, hy, rfl⟩ := childelemFromTid_found hfind
  have hold := h.pc hx
  simp only [PcOk, hpc] at hold
  obtain ⟨hread, hset⟩ := (h.link hx hc hy).remove v hpc
  have hct := h.child_ne hx hc
  have hended : y.pc.destructed = true → Ended s.log y := by
    intro hdes
    have := h.pc hy
    unfold PcOk at this
    cases he : y.pc <;> simp_all [destructed]
  have h₁ : TreeInv G ((s.put t { x with children := x.children.erase c, pc := .running }).note
      (.waited x.tid y.tid v)) := by
    refine h.removes hx hold.1 (fun ht => h.loadSema_eq (x := x) hx ht (by simp [hpc])) hc hy rfl ?_
      (.inl ⟨v, rfl⟩) ?_
      (fun c' y' hc' _ hy' => (h.link hx hc' hy').settled (by rw [hpc]; rfl))
      (fun c' y' _ hne hy' => ?_) ?_ (by rw [hpc]; rfl)
    · cases he : y.pc <;> simp_all [mayRead, destructed, destructs, reporting]
    · intro hG
      obtain ⟨hdes, rfl⟩ := hset hG
      rw [if_pos hold.2]
      exact ⟨(hended hdes).status, (hended hdes).failed⟩
    · simp only [hpc, reaps, decide_eq_false_iff_not]
      exact fun hk => hne (h.tidInj hy' hy hk.symm)
    · simp [mayRead, hpc, destructed, destructs]
  have hread' : y.mayRead (.waited x.tid y.tid v :: s.log) := by simpa [mayRead] using hread
  refine h₁.free (y := y) ((update_of_ne hct ..).trans hy) hread' fun p w hw hcw => ?_
  by_cases hp : p = t
  · subst hp
    cases (update_self ..).symm.trans hw
    exact ((h.nodup hx).mem_erase_iff.mp hcw).1 rfl
  · exact hp (h.owner ((update_of_ne hp ..).symm.trans hw) hx hcw hc)

end

/-! ### `thread_create` -/

section

variable (h : TreeInv G s)
include h

theorem TreeInv.unborn (a : Nat) :
    Alive s.log (initThread s.nextTid a) ∧ .loaded s.nextTid true ∉ s.log := by
  have hnot : ∀ n : Note, n.about = s.nextTid → n ∉ s.log := by
    intro n hn hmem
    have := h.fresh n hmem
    omega
  exact ⟨⟨hnot _ rfl, hnot _ rfl, fun v => hnot (.destructed s.nextTid v) rfl, rfl⟩, hnot _ rfl⟩

theorem TreeInv.allocates (hfree : s.page a = none) (hpos : 0 < s.nextTid) (p : Nat) :
    TreeInv G { s with
      page := Function.update s.page a (some { initThread s.nextTid p with pc := .idle })
      nextTid := s.nextTid + 1 } := by
  have hnot : ∀ {b z}, s.page b = some z → b ≠ a := by
    rintro b z hz rfl
    cases hz.symm.trans hfree
  have hnew : ∀ {b z}, Function.update s.page a (some { initThread s.nextTid p with pc := .idle }) b =
      some z → (b = a ∧ z = { initThread s.nextTid p with pc := .idle }) ∨ s.page b = some z := by
    intro b z hz
    exact (update_eq_some hz).imp_right And.right
  have hput : ∀ {b z}, s.page b = some z →
      Function.update s.page a (some { initThread s.nextTid p with pc := .idle }) b = some z :=
    fun hz => (update_of_ne (hnot hz) ..).trans hz
  have hborn := h.unborn p
  constructor
  case reports => exact h.reports
  case fresh =>
    intro n hn
    have := h.fresh n hn
    show n.about < s.nextTid + 1
    omega
  case tid =>
    intro b z hz
    show 0 < z.tid ∧ z.tid < s.nextTid + 1
    rcases hnew hz with ⟨-, rfl⟩ | hz
    · exact ⟨hpos, Int.lt_succ _⟩
    · have := h.tid hz
      omega
  case tidInj =>
    intro b c z w hz hw hk
    rcases hnew hz with ⟨rfl, rfl⟩ | hz₀
    · rcases hnew hw with ⟨rfl, -⟩ | hw₀
      · rfl
      · exact absurd hk.symm (Int.ne_of_lt (h.tid hw₀).2)
    · rcases hnew hw with ⟨rfl, rfl⟩ | hw₀
      · exact absurd hk (Int.ne_of_lt (h.tid hz₀).2)
      · exact h.tidInj hz₀ hw₀ hk
  case child =>
    intro q z c hz hc
    rcases hnew hz with ⟨-, rfl⟩ | hz
    · cases hc
    · obtain ⟨hi, y, hy, hlt⟩ := h.child hz hc
      exact ⟨hi, y, hput hy, hlt⟩
  case owner =>
    intro q q' z z' c hz hz' hc hc'
    rcases hnew hz with ⟨-, rfl⟩ | hz
    · cases hc
    · rcases hnew hz' with ⟨-, rfl⟩ | hz'
      · cases hc'
      · exact h.owner hz hz' hc hc'
  case nodup =>
    intro q z hz
    rcases hnew hz with ⟨-, rfl⟩ | hz
    · exact nodup_nil
    · exact h.nodup hz
  case listed =>
    intro q z hz tid
    rcases hnew hz with ⟨-, rfl⟩ | hz
    · refine ⟨fun hu => ?_, fun ⟨c, hc, _⟩ => by cases hc⟩
      exact absurd (h.fresh _ (created_of_unwaited hu)) (Int.lt_irrefl _)
    · refine (h.listed hz tid).trans ⟨fun ⟨c, hc, y, hy, hk⟩ => ⟨c, hc, y, hput hy, hk⟩, ?_⟩
      rintro ⟨c, hc, y, hy, hk⟩
      obtain ⟨-, y', hy', -⟩ := h.child hz hc
      exact ⟨c, hc, y', hy', by cases (hput hy').symm.trans hy; exact hk⟩
  case initial =>
    obtain ⟨i, hi, hin⟩ := h.initial
    exact ⟨i, hput hi, hin⟩
  case home =>
    intro c y hy hrep
    rcases hnew hy with ⟨-, rfl⟩ | hy
    · cases hrep
    · obtain ⟨q, z, hz, hc⟩ := h.home hy hrep
      exact ⟨q, z, hput hz, hc⟩
  case pc =>
    intro b z hz
    rcases hnew hz with ⟨-, rfl⟩ | hz
    · exact ⟨hborn.1.of_eq rfl rfl, hborn.2⟩
    · exact h.pc hz
  case calm =>
    intro b z hz hb
    rcases hnew hz with ⟨-, rfl⟩ | hz
    · exact .inl rfl
    · exact h.calm hz hb
  case link =>
    intro q z c y hz hc hy
    rcases hnew hz with ⟨-, rfl⟩ | hz
    · cases hc
    · obtain ⟨-, y', hy', -⟩ := h.child hz hc
      cases (hput hy').symm.trans hy
      exact h.link hz hc hy'

section

variable (hx : s.page t = some x)
include hx

theorem TreeInv.adopts (hrun : x.pc = .running) (hy : s.page a = some y) (hidle : y.pc = .idle)
    (hlt : x.tid < y.tid) (hinit : a ≠ s.initialThread)
    (hnone : ∀ p z, s.page p = some z → a ∉ z.children) :
    TreeInv G ((s.put t { x with children := x.children ++ [a] }).note (.created x.tid y.tid)) := by
  have halive : Alive s.log x := by
    have := h.pc hx
    rwa [PcOk, hrun] at this
  have hloaded : .loaded y.tid false ∉ s.log := by
    have := h.pc hy
    rw [PcOk, hidle] at this
    exact this.1.loaded
  have hadds : Adds x.tid s.log (.created x.tid y.tid :: s.log) := .cons (.created _ _) _
  refine h.update (x := x) hx rfl (fun c hc => ?_) ?_ hadds
    (fun c z hc _ _ => mem_append_left _ hc) (fun tid => ?_) ⟨trivial, h.reports⟩
    (h.initial_inActions (x := x) hx) (h.home (y := x) hx) ?_ (h.calm (x := x) hx)
    (fun c z hc hz => ?_) fun p w hw hc => ?_
  · rcases mem_append.mp hc with hc | hc
    · exact .inl hc
    · rw [mem_singleton.mp hc]
      exact .inr ⟨hinit, ⟨y, hy, hlt⟩, hnone⟩
  · refine nodup_append.mpr ⟨h.nodup hx, by simp, fun c hc b hb => ?_⟩
    rw [mem_singleton.mp hb]
    rintro rfl
    exact hnone t x hx hc
  · change ((decide (x.tid = x.tid ∧ y.tid = tid)) || unwaited x.tid tid s.log) = true ↔ _
    simp only [true_and, Bool.or_eq_true, decide_eq_true_eq, mem_append, mem_singleton,
      or_and_right, exists_or, exists_eq_left]
    rw [h.listed hx tid, hy]
    simp [or_comm]
  · have halive' := halive.add (n := .created x.tid y.tid) (by simp) (by simp) (by simp)
    show PcOk (.created x.tid y.tid :: s.log) _
    rw [PcOk]
    simp only [hrun]
    exact halive'.of_eq rfl rfl
  · rcases mem_append.mp hc with hc | hc
    · have hl := (h.link hx hc hz).adds hadds (h.tid_ne hz hx (h.child_ne hx hc))
      exact ⟨hl.parent, hl.reporting, hl.reported, hl.failed, hl.down, hl.read, hl.remove, hl.posted⟩
    · cases mem_singleton.mp hc
      cases hy.symm.trans hz
      constructor <;> simp_all [reporting, execTid, posted]
  · exact (h.link hw hc hx).child_moves rfl (by simp) (by simp [hrun, reporting])
      (by simp [mayRead, hrun, destructed, destructs])
      (by simp [hrun, destructed]) (by simp [hrun, posted])

theorem TreeInv.execStarts (hrun : x.pc = .running) (ht : t ≠ s.initialThread)
    (hunw : unwaited x.tid tid s.log = true) : TreeInv G (s.goto t x (.downLoadSema tid)) := by
  have halive : Alive s.log x := by
    have := h.pc hx
    rwa [PcOk, hrun] at this
  have hzero : x.loadSema = 0 := h.loadSema_eq (x := x) hx ht (by simp [hrun])
  refine h.move (x := x) hx rfl rfl (.refl _ _) (fun _ => rfl) h.reports (fun he => absurd he ht)
    (by rintro ⟨⟩) ⟨halive.of_eq rfl rfl, hunw⟩ (fun _ => .inl hzero) (fun c y hc hy => ?_)
    fun p w hw hc => ?_
  · have hl := h.link hx hc hy
    have hset := hl.settled (by rw [hrun]; rfl) ht
    have hreaps : x.pc.reaps c y.tid = false := by rw [hrun]; rfl
    have hposted := hl.posted
    constructor <;> simp_all [execTid]
  · exact (h.link hw hc hx).child_moves rfl (fun _ => Iff.rfl) rfl
      (by simp [mayRead, hrun, destructed, destructs])
      (by simp [hrun, destructed]) (by rintro ⟨⟩)

theorem TreeInv.calls {pc : ThreadPc} (hrun : x.pc = .running)
    (hunw : unwaited x.tid tid s.log = true) (hpc : t = s.initialThread ∧ pc = .processWait tid ∨
      t ≠ s.initialThread ∧ pc = .downLoadSema tid) :
    TreeInv G (s.goto t x pc) := by
  rcases hpc with ⟨-, rfl⟩ | ⟨ht, rfl⟩
  · exact h.waitStarts hx hrun
  · exact h.execStarts hx hrun ht hunw

theorem TreeInv.starts (hmem : a ∈ x.children) (hy : s.page a = some y) (hidle : y.pc = .idle)
    (hpar : y.parent = some t)
    (hwait : t ≠ s.initialThread → x.pc = .downLoadSema y.tid ∧ x.loadSema = 0) :
    TreeInv G (s.goto a y .load) := by
  have halive : Alive s.log y ∧ .loaded y.tid true ∉ s.log := by
    have := h.pc hy
    rwa [PcOk, hidle] at this
  have hne := (h.child hx hmem).1
  refine h.move (x := y) hy rfl rfl (.refl _ _) (fun _ => rfl) h.reports (fun he => absurd he hne)
    (fun _ => ⟨t, x, hx, hmem⟩) ⟨halive.1.of_eq rfl rfl, halive.2⟩ (fun ha => ?_) (fun c z hc hz => ?_)
    fun p w hw hc => ?_
  · exact .inl (h.loadSema_eq (x := y) hy ha (by simp [hidle]))
  · have hl := h.link hy hc hz
    refine hl.parent_moves (hl.settled (by rw [hidle]; rfl)) rfl nofun nofun nofun ?_
    rw [hidle]
    nofun
  · cases h.owner hw hx hc hmem
    cases hw.symm.trans hx
    have hl := h.link hx hmem hy
    refine ⟨fun _ => hpar, fun _ ht => ⟨(hwait ht).1, (hwait ht).2, nofun⟩, hl.reported, hl.failed,
      hl.down, fun tid he => ⟨(hl.read tid he).1, ?_⟩, fun v he => ?_, nofun⟩
    · have := (hl.read tid he).2
      simp [mayRead, hidle, destructed, destructs] at this
    · have := (hl.remove v he).1
      simp [mayRead, hidle, destructed, destructs] at this

theorem TreeInv.threadCreate {pc : Int → ThreadPc} (hrun : x.pc = .running)
    (hpc : t = s.initialThread ∧ pc = .processWait ∨ t ≠ s.initialThread ∧ pc = .downLoadSema)
    (hstep : s.threadCreate t x a pc = some s') : TreeInv G s' := by
  unfold Tree.threadCreate at hstep
  split at hstep
  · next hfree =>
    obtain ⟨hfree, -⟩ := hfree
    cases hstep
    have hat : a ≠ t := by
      rintro rfl
      cases hx.symm.trans hfree
    have hlt := h.tid hx
    have hfresh : ∀ p z, s.page p = some z → a ∉ z.children := by
      intro p z hz hc
      obtain ⟨-, y, hy, -⟩ := h.child hz hc
      cases hy.symm.trans hfree
    obtain ⟨i, hi, -⟩ := h.initial
    have hinit : a ≠ s.initialThread := by
      rintro rfl
      cases hi.symm.trans hfree
    have hpc' : t = s.initialThread ∧ pc s.nextTid = .processWait s.nextTid ∨
        t ≠ s.initialThread ∧ pc s.nextTid = .downLoadSema s.nextTid :=
      hpc.imp (And.imp_right fun he => by rw [he]) (And.imp_right fun he => by rw [he])
    -- The page is allocated, the thread put into the list, the parent goes on, the child starts.
    have h₁ := h.allocates hfree (Int.lt_trans hlt.1 hlt.2) t
    have h₂ := h₁.adopts (x := x) ((update_of_ne hat.symm ..).trans hx) hrun
      (update_self ..) rfl hlt.2 hinit (fun p z hz hc => by
        by_cases hp : p = a
        · subst hp
          cases (update_self ..).symm.trans hz
          cases hc
        · exact hfresh p z ((update_of_ne hp ..).symm.trans hz) hc)
    have h₃ := h₂.calls (x := { x with children := x.children ++ [a] }) (update_self ..)
      hrun (by simp [Tree.note, initThread, unwaited]) hpc'
    have h₄ := h₃.starts (y := { initThread s.nextTid t with pc := .idle }) (update_self ..)
      (mem_append_right _ (mem_singleton_self a))
      ((update_of_ne hat ..).trans
        ((update_of_ne hat ..).trans (update_self ..))) rfl rfl
      fun ht => ⟨(hpc'.resolve_left fun he => ht he.1).2, h.loadSema_eq (x := x) hx ht (by simp [hrun])⟩
    simpa only [Tree.goto, Tree.put, Tree.note, update_idem, update_comm hat.symm,
      initThread] using h₄
  · cases hstep

/-! ### `self_destruct` and `process_exit` -/

theorem TreeInv.selfDestruct {status : Int} (hpc : x.pc = .selfDestruct status) :
    TreeInv G ((s.put t { x with returnStatus := status, pc := .orphan x.children }).note
      (.destructed x.tid status)) := by
  have hold := h.pc hx
  simp only [PcOk, hpc] at hold
  obtain ⟨hfail, hdes, -⟩ := hold
  refine h.goes hx (.destructed x.tid status s.log) ⟨trivial, h.reports⟩ rfl rfl rfl
    (fun ht => absurd ht (h.ne_initial hx (by rw [hpc]; rfl))) rfl (by rw [hpc]; rfl) rfl
    (by simp [hpc, reaps]) (by simp) (fun _ => rfl) (by simp [hpc, destructed])
    nofun ⟨⟨fun v => ?_, ?_⟩, fun _ hc => hc⟩
  · simp [hdes]
  · simpa using hfail

theorem TreeInv.orphan {todo : List Nat} (hpc : x.pc = .orphan (c :: todo)) (hy : s.page c = some y) :
    TreeInv G ((s.put c { y with parent := none }).goto t x (.orphan todo)) := by
  have hold := h.pc hx
  simp only [PcOk, hpc] at hold
  obtain ⟨hended, hsub⟩ := hold
  have hc : c ∈ x.children := hsub (mem_cons_self ..)
  have hne : t ≠ s.initialThread := h.ne_initial hx (by rw [hpc]; rfl)
  have hct := h.child_ne hx hc
  have h₁ : TreeInv G (s.put c { y with parent := none }) := by
    refine h.move (x := y) hy rfl rfl (.refl _ _) (fun _ => rfl) h.reports
      (h.initial_inActions (x := y) hy) (h.home (y := y) hy)
      ((h.pc hy).of_le rfl rfl rfl rfl (Nat.le_refl _) (.inl rfl)) (h.calm (x := y) hy)
      (fun c' y' hc' hy' => ?_) fun p w hw hcw => ?_
    · have hl := h.link hy hc' hy'
      exact ⟨hl.parent, hl.reporting, hl.reported, hl.failed, hl.down, hl.read, hl.remove, hl.posted⟩
    · have hl := h.link hw hcw hy
      -- The child has left `start_process`: its parent is not in `sys_exec`.
      cases h.owner hw hx hcw hc
      cases hw.symm.trans hx
      have hrep := (hl.settled (by rw [hpc]; rfl) hne).1
      exact hl.child_moves rfl (fun _ => Iff.rfl) hrep id (fun hd => ⟨hd, rfl⟩) hl.posted
  have hx₁ : (s.put c { y with parent := none }).page t = some x :=
    (update_of_ne hct.symm ..).trans hx
  refine h₁.goes hx₁ (.refl _ _) h₁.reports rfl rfl rfl (fun ht => absurd ht hne) rfl
    (by rw [hpc]; rfl) rfl (by simp [hpc, reaps]) (by simp)
    (by simp [hpc, destructs]) (fun _ => ⟨rfl, rfl⟩) nofun ?_
  exact ⟨⟨hended.status, hended.failed⟩, fun a ha => hsub (mem_cons_of_mem _ ha)⟩

theorem TreeInv.exits (hdes : x.pc.destructed = true) (htid : x'.tid = x.tid)
    (hchildren : x'.children = x.children) (hsema : x'.loadSema = x.loadSema)
    (hstatus : x'.returnStatus = x.returnStatus) (hdes' : x'.pc.destructed = true)
    (horphan : ∀ todo, x'.pc ≠ .orphan todo)
    (hpost : x'.pc.posted = true → 0 < x'.childSema ∨ x.pc.posted = true ∧ x'.childSema = x.childSema) :
    TreeInv G { s with page := Function.update s.page t (some x') } := by
  have hne : t ≠ s.initialThread := by
    refine h.ne_initial hx ?_
    cases he : x.pc <;> simp_all [destructed, inActions]
  have hended : Ended s.log x' := by
    have hold := h.pc hx
    have hx' : Ended s.log x := by
      unfold PcOk at hold
      cases he : x.pc <;> simp_all [destructed]
    exact ⟨by rw [htid, hstatus]; exact hx'.status, by rw [htid, hstatus]; exact hx'.failed⟩
  refine h.goes hx (.refl _ _) h.reports htid hchildren hsema (fun ht => absurd ht hne) ?_ ?_ ?_ ?_ ?_
    (fun _ => hdes') (fun _ => ⟨hdes', hstatus⟩) hpost ?_
  · cases he : x'.pc <;> simp_all [destructed, reporting]
  · cases he : x.pc <;> simp_all [destructed, execTid]
  · cases he : x'.pc <;> simp_all [destructed, execTid]
  · cases he : x.pc <;> simp_all [destructed, reaps]
  · cases he : x'.pc <;> simp_all [destructed]
  · unfold PcOk
    cases he : x'.pc <;> simp_all [destructed]

theorem TreeInv.dies {status : Int} {log : List Note} (hne : t ≠ s.initialThread)
    (hpc : x.pc = .running ∨ x.pc = .load)
    (hlog : log = s.log ∨ log = .killed x.tid :: s.log ∧ status = -1) :
    TreeInv G { s with
      page := Function.update s.page t (some { x with pc := .selfDestruct status }), log := log } := by
  have halive : Alive s.log x := by
    have hold := h.pc hx
    rcases hpc with hpc | hpc
    · rwa [PcOk, hpc] at hold
    · rw [PcOk, hpc] at hold
      exact hold.1
  have hquiet : Quiet x.tid s.log log := by
    rcases hlog with rfl | ⟨rfl, -⟩
    · exact .refl _ _
    · exact .killed _ _
  have hreports : Always (Reports G) log := by
    rcases hlog with rfl | ⟨rfl, -⟩
    · exact h.reports
    · exact ⟨trivial, h.reports⟩
  refine h.goes hx hquiet hreports rfl rfl rfl (fun ht => absurd ht hne) rfl ?_ rfl ?_ (by simp) ?_ ?_
    nofun ⟨?_, ?_, ?_⟩
  · rcases hpc with hpc | hpc <;> rw [hpc] <;> rfl
  · rcases hpc with hpc | hpc <;> rw [hpc] <;> exact fun _ _ => rfl
  · rcases hpc with hpc | hpc <;> rw [hpc] <;> nofun
  · rcases hpc with hpc | hpc <;> rw [hpc] <;> nofun
  · rcases hlog with rfl | ⟨-, hst⟩
    · exact fun hf => hf.elim (absurd · halive.loaded) (absurd · halive.spared)
    · exact fun _ => hst
  · rcases hlog with rfl | ⟨rfl, -⟩
    · exact halive.status
    · simpa using halive.status
  · exact fun hpos => absurd halive.sema (Nat.ne_of_gt hpos)

end

end

end Steps

/-! ## Every run -/

section Runs

variable {G : Prop} {s s' : Tree} {t : Nat} {x : Thread}

theorem TreeInv.readable {c : Nat} {y : Thread} {tid : Int} (h : TreeInv G s)
    (hok : s.statusSet (.run t) = true) (hx : s.page t = some x) (hpc : x.pc = .readStatus c tid)
    (hy : s.page c = some y) : y.pc.destructed = true := by
  have hold := h.pc hx
  simp only [PcOk, hpc] at hold
  have hlink := h.link hx hold.2 hy
  rcases (hlink.read tid hpc).2 with hdes | ⟨hdes, hload⟩
  · exact hdes
  · by_cases ht : t = s.initialThread
    · simp [statusSet, hx, hpc, ht.symm, hy, hdes] at hok
    · -- `sys_exec` has removed the children that failed to load.
      exact absurd hload (hlink.settled (by rw [hpc]; rfl) ht).2

theorem TreeInv.step {e : Event} (h : TreeInv G s) (hok : G → s.statusSet e = true)
    (hstep : Tree.Step s e s') : TreeInv G s' := by
  cases trans_of_step hstep with
  | setSuccess hx hpc hpar hw => exact h.setSuccess hx hpc hpar hw
  | upLoadSema hx hpc hpar hw => exact h.upLoadSema hx hpc hpar hw
  | upChildSema hx hpc => exact h.upChildSema hx hpc
  | downLoadSema hx hpc hpos => exact h.downLoadSema hx hpc hpos
  | setEax hx hpc => exact h.setEax hx hpc
  | execDone hx hpc hsuccess => exact h.execSucceeds hx hpc hsuccess
  | execFail hx hpc hsuccess hfind => exact h.execFails hx hpc hsuccess hfind
  | waitOther hx hpc hfind => exact h.waitOther hx hpc hfind
  | waitChild hx hpc hfind => exact h.waitChild hx hpc hfind
  | downChildSema hx hpc hy hpos => exact h.downChildSema hx hpc hy hpos
  | readStatus hx hpc hy => exact h.readStatus hx hpc hy fun hG => h.readable (hok hG) hx hpc hy
  | @removeNone t x tid status hx hpc hfind =>
    have hold := h.pc hx
    simp only [PcOk, hpc] at hold
    exact absurd ((h.listed hx tid).mp hold.2) (childelemFromTid_missing hfind)
  | removeChild hx hpc hfind => exact h.removeChild hx hpc hfind
  | selfDestruct hx hpc => exact h.selfDestruct hx hpc
  | orphan hx hpc hy => exact h.orphan hx hpc hy
  | orphanDone hx hpc | exitDone hx hpc | exitChild hx hpc _ _ | testParent hx hpc _ =>
    exact h.exits hx (by rw [hpc]; rfl) rfl rfl rfl rfl rfl nofun nofun
  | signalParent hx hpc =>
    exact h.exits hx (by rw [hpc]; rfl) rfl rfl rfl rfl rfl nofun fun _ => .inl (Nat.succ_pos _)
  | switchOut hx hpc =>
    exact h.exits hx (by rw [hpc]; rfl) rfl rfl rfl rfl rfl nofun
      fun _ => .inr ⟨by rw [hpc]; rfl, rfl⟩
  | load hx hpc => exact h.loadReturns hx hpc
  | noTask hx hpc => exact h.waitStarts hx hpc
  | task hx hpc hcreate => exact h.threadCreate hx hpc (.inl ⟨rfl, rfl⟩) hcreate
  | noExec => exact h
  | exec hx hpc ht hcreate => exact h.threadCreate hx hpc (.inr ⟨ht, rfl⟩) hcreate
  | wait hx hpc ht => exact h.waitStarts hx hpc
  | @exit t x status hx hpc ht => exact h.dies (x := x) hx ht (.inl hpc) (.inl rfl)
  | @kill t x hx hpc ht => exact h.dies (x := x) hx ht hpc (.inr ⟨rfl, rfl⟩)

theorem threadInit_page (initial a : Nat) :
    (Tree.threadInit initial).page a = if a = initial then some Tree.firstThread else none := by
  simp [threadInit, update_apply]

theorem threadInit_inv (G : Prop) (initial : Nat) : TreeInv G (Tree.threadInit initial) := by
  have hold : ∀ {a x}, (threadInit initial).page a = some x →
      a = initial ∧ x = firstThread := by
    intro a x hx
    rw [threadInit_page] at hx
    split at hx
    · next ha => exact ⟨ha, (Option.some.inj hx).symm⟩
    · cases hx
  have hchildren : ∀ {a x c}, (threadInit initial).page a = some x → c ∉ x.children := by
    intro a x c hx
    rw [(hold hx).2]
    exact not_mem_nil
  constructor
  case reports => trivial
  case fresh => exact fun n hn => absurd hn not_mem_nil
  case tid =>
    intro a x hx
    rw [(hold hx).2]
    exact ⟨Int.one_pos, Int.lt_succ 1⟩
  case tidInj => exact fun hx hy _ => (hold hx).1.trans (hold hy).1.symm
  case child => exact fun hx hc => absurd hc (hchildren hx)
  case owner => exact fun hx _ hc _ => absurd hc (hchildren hx)
  case nodup =>
    intro p x hx
    rw [(hold hx).2]
    exact nodup_nil
  case listed =>
    intro p x hx tid
    refine ⟨fun hu => ?_, fun ⟨c, hc, _⟩ => absurd hc (hchildren hx)⟩
    cases hu
  case initial => exact ⟨firstThread, by rw [threadInit_page]; exact if_pos rfl, rfl⟩
  case home =>
    intro c y hy hrep
    rw [(hold hy).2] at hrep
    cases hrep
  case pc =>
    intro a x hx
    rw [(hold hx).2]
    exact ⟨not_mem_nil, not_mem_nil, fun _ => not_mem_nil, rfl⟩
  case calm => exact fun hx ha => absurd (hold hx).1 ha
  case link => exact fun hx hc _ => absurd hc (hchildren hx)

theorem boot_inv (G : Prop) {initial idle : Nat} (hne : initial ≠ idle) :
    TreeInv G (Tree.boot initial idle) := by
  have h₁ := (threadInit_inv G initial).allocates (a := idle)
    (by rw [threadInit_page, if_neg hne.symm]) (show (0 : Int) < 2 by decide) initial
  refine h₁.adopts (a := idle) (t := initial) (x := firstThread)
    ((update_of_ne hne ..).trans (by rw [threadInit_page, if_pos rfl])) rfl
    (update_self ..) rfl (Int.lt_succ 1) hne.symm fun p z hz hc => ?_
  by_cases hp : p = idle
  · subst hp
    cases (update_self ..).symm.trans hz
    cases hc
  · have hz' := (update_of_ne hp ..).symm.trans hz
    rw [threadInit_page] at hz'
    split at hz'
    · cases hz'
      cases hc
    · cases hz'

end Runs

end Pintos.Process
