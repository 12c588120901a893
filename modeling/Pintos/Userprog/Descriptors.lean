import Pintos.Filesys.Denial
import Pintos.Lib.Tables
import Pintos.Userprog.Executable

/-!
# Descriptors (`sys_open`, `sys_close` and `close_all_files` in `userprog/syscall.c`)

A process opens and closes files, and exits, where each allocation may fail. A handle that `filesys_open`
returns goes into the first free place of the table, but if there is none it is forgotten.
-/

namespace Pintos

open Lib Function List Option DirEntry

namespace Filesys

variable {fs fs' : Filesys} {h : Nat}

section

variable (hclose : fs.fileClose h = some fs')
include hclose

theorem fileClose_files : fs'.files = fs.files.set h none := by
  unfold Filesys.fileClose Filesys.fileAllowWrite at hclose
  simp only [bind_eq_bind, bind_eq_some_iff] at hclose
  obtain ⟨file, hfile, fs₁, ⟨file', hfile', hallow⟩, fs₂, hclose, heq⟩ := hclose
  cases heq
  obtain ⟨ip, -, -, hfiles⟩ := inodeClose_memory hclose
  show fs₂.files.set h none = _
  rw [hfiles]
  split at hallow
  · simp only [bind_eq_some_iff, inodeAllowWrite, bind_eq_bind] at hallow
    obtain ⟨fs₃, ⟨ip', -, hdeny⟩, heq⟩ := hallow
    cases heq
    split at hdeny
    · cases hdeny
      exact set_set ..
    · cases hdeny
  · cases hallow
    rfl

theorem fileClose_self : fs'.file h = none := by
  unfold Filesys.file
  rw [fileClose_files hclose, getD_eq_getElem?_getD, List.getElem?_set_self']
  cases fs.files[h]? <;> rfl

theorem fileClose_other {j : Nat} (hj : j ≠ h) : fs'.file j = fs.file j := by
  unfold Filesys.file
  rw [fileClose_files hclose, getD_eq_getElem?_getD, getD_eq_getElem?_getD,
    List.getElem?_set_ne hj.symm]

end

end Filesys

open Filesys

/-! ## The calls -/

/-- The file system and `t->files` of a process. `opened` are the handles that `filesys_open` has given
to the process and that it has not closed, and `lost` those among them that `sys_open` has put
nowhere. -/
structure Descriptors where
  fs : Filesys
  files : Nat → Option Nat
  opened : List Nat
  lost : List Nat

open Descriptors

/-- The places of the table that `sys_open` looks at. -/
def tableSlots : List Nat := List.range' 2 1022

namespace Descriptors

/-- The first free place. -/
def freeFd (s : Descriptors) : Option Nat := tableSlots.find? fun i => (s.files i).isNone

/-- `sys_open`. -/
def sysOpen (s : Descriptors) (mem : OpenMemory) (fileName : Name) : Option (Int × Descriptors) := do
  let (file, fs) ← s.fs.openFileWith mem fileName
  match file, s.freeFd with
  | some h, some fd =>
    return (fd, { s with
      fs, files := update s.files fd (some h), opened := h :: s.opened })
  | some h, none => return (-1, { s with fs, opened := h :: s.opened, lost := h :: s.lost })
  | none, _ => return (-1, { s with fs })

/-- It is the `sys_open` of the file calls, which do not keep account of the handles. -/
theorem fileCall_open (s : Descriptors) (m : Mem) (mem : OpenMemory) (fileName : Name) :
    fileCall ⟨s.fs, s.files, m⟩ (.openFile mem fileName) =
      (s.sysOpen mem fileName).map fun r => (some r.1, ⟨r.2.fs, r.2.files, m⟩) := by
  have hfd : (FileState.mk s.fs s.files m).freeFd = s.freeFd := rfl
  simp only [fileCall, sysOpen, hfd]
  cases s.fs.openFileWith mem fileName with
  | none => rfl
  | some r =>
    obtain ⟨_ | file, fs⟩ := r
    · rfl
    · cases s.freeFd <;> rfl

/-- `sys_close` of a place of the table. -/
def closeSlot (s : Descriptors) (fd : Nat) : Option Descriptors :=
  match s.files fd with
  | some h => do
      let fs ← s.fs.fileClose h
      return { s with fs, files := update s.files fd none, opened := s.opened.erase h }
  | none => some s

/-- `sys_close`. -/
def sysClose (s : Descriptors) (fd : Int32) : Option Descriptors :=
  if fd.toInt < 1024 ∧ 2 ≤ fd.toInt then s.closeSlot fd.toInt.toNat else some s

/-- The loop of `close_all_files` over these places. -/
def closeLoop (s : Descriptors) : List Nat → Option Descriptors
  | [] => some s
  | fd :: fds => do
      let s ← s.closeSlot fd
      s.closeLoop fds

/-- `close_all_files`. -/
def closeAllFiles (s : Descriptors) : Option Descriptors := s.closeLoop tableSlots

/-- The handles in the table. -/
def held (s : Descriptors) : List Nat := tableSlots.filterMap s.files

/-- How many of the references to inode `k` are due to the process. -/
def due (s : Descriptors) (k : Nat) : Nat := s.opened.countP fun h => File.on k (s.fs.file h)

/-- What can happen next: a call of the process, or something else in the file system. -/
inductive Call
  | open (mem : OpenMemory) (fileName : Name)
  | close (fd : Int32)
  | other (fs : Filesys)

def step (s : Descriptors) : Call → Option Descriptors
  | .open mem fileName => (s.sysOpen mem fileName).map Prod.snd
  | .close fd => s.sysClose fd
  | .other fs => some { s with fs }

/-- What else happens leaves the handles of the process open on their inodes. -/
def Leaves (s : Descriptors) : Call → Prop
  | .other fs => fs.Consistent ∧ ∀ h ∈ s.opened, ∀ file, s.fs.file h = some file →
      ∃ file', fs.file h = some file' ∧ file'.inode = file.inode
  | _ => True

/-- There is a place for the file, if it is found. -/
def Fits (s : Descriptors) : Call → Prop
  | .open mem fileName => s.freeFd = none → ∀ k, ¬ s.fs.FoundAs mem fileName k
  | _ => True

/-! ## Where the handles are -/

structure Sound (s : Descriptors) : Prop where
  fs : s.fs.Consistent
  isOpen : ∀ h ∈ s.opened, (s.fs.file h).isSome = true
  nodup : s.opened.Nodup
  perm : s.opened.Perm (s.held ++ s.lost)

variable {s s' : Descriptors} {fd : Nat}

theorem nodup_tableSlots : tableSlots.Nodup := nodup_range'

theorem freeFd_some (h : s.freeFd = some fd) :
    fd ∈ tableSlots ∧ s.files fd = none ∧ ∀ i, 2 ≤ i → i < fd → s.files i ≠ none := by
  unfold freeFd tableSlots at h
  rw [List.find?_range'_eq_some] at h
  obtain ⟨hfree, hmem, hbefore⟩ := h
  refine ⟨hmem, isNone_iff_eq_none.mp hfree, fun i hi hlt hnone => ?_⟩
  have hused := hbefore i hi hlt
  rw [hnone] at hused
  cases hused

theorem Sound.lt_length (hs : s.Sound) {h : Nat} (hh : h ∈ s.opened) : h < s.fs.files.length := by
  obtain ⟨file, hfile⟩ := isSome_iff_exists.mp (hs.isOpen h hh)
  exact (List.getElem?_eq_some_iff.mp (file_eq_some.mp hfile)).choose

theorem Sound.sum_due (hs : s.Sound) :
    ∑ k ∈ Finset.range s.fs.device.size, s.due k = s.held.length + s.lost.length := by
  have hon : ∀ k h, h ∈ s.opened →
      File.on k (s.fs.file h) = decide ((s.fs.file h).elim 0 File.inode = k) := by
    intro k h hh
    obtain ⟨file, hfile⟩ := isSome_iff_exists.mp (hs.isOpen h hh)
    rw [hfile]
    rfl
  have hlt : ∀ h ∈ s.opened, (s.fs.file h).elim 0 File.inode < s.fs.device.size := by
    intro h hh
    obtain ⟨file, hfile⟩ := isSome_iff_exists.mp (hs.isOpen h hh)
    obtain ⟨ip, hip, -⟩ := hs.fs.inode (file_eq_some.mp hfile)
    rw [hfile]
    exact hs.fs.mounted.laid.header_lt (hs.fs.mounted.cached hip).1
  have hdue : ∀ k, s.due k = s.opened.countP fun h => (s.fs.file h).elim 0 File.inode = k := by
    intro k
    refine countP_congr fun h hh => ?_
    rw [hon k h hh]
  simp only [hdue]
  rw [sum_countP _ hlt, hs.perm.length_eq, length_append]

theorem Sound.due_le (hs : s.Sound) {k : Nat} {ip : OpenInode} (hip : s.fs.openInodes k = some ip)
    (hk : Filesys.IsFile k) : s.due k ≤ ip.openCnt := by
  rw [(hs.fs.openCnt hip hk).1]
  exact countP_getD_le rfl hs.nodup

/-! ## Opening -/

/-- What `sys_open` may have done. -/
inductive Opened (s : Descriptors) (mem : OpenMemory) (fileName : Name) : Int → Descriptors → Prop
  | notFound : (∀ k, ¬ s.fs.FoundAs mem fileName k) → Opened s mem fileName (-1) s
  | stored {fd k : Nat} : 2 ≤ fd → fd < 1024 → s.files fd = none →
      (∀ i, 2 ≤ i → i < fd → s.files i ≠ none) → s.fs.FoundAs mem fileName k →
      Opened s mem fileName fd ⟨s.fs.opened k, update s.files fd (some s.fs.files.length),
        s.fs.files.length :: s.opened, s.lost⟩
  | lost {k : Nat} : (∀ i, 2 ≤ i → i < 1024 → s.files i ≠ none) → s.fs.FoundAs mem fileName k →
      Opened s mem fileName (-1) ⟨s.fs.opened k, s.files, s.fs.files.length :: s.opened,
        s.fs.files.length :: s.lost⟩

theorem mem_tableSlots {i : Nat} : i ∈ tableSlots ↔ 2 ≤ i ∧ i < 1024 := mem_range'_1

theorem freeFd_none : s.freeFd = none ↔ ∀ i, 2 ≤ i → i < 1024 → s.files i ≠ none := by
  unfold freeFd
  rw [List.find?_eq_none]
  simp only [mem_tableSlots, and_imp, isNone_iff_eq_none, ne_eq]

theorem Sound.open_new (hs : s.Sound) {k : Nat} (hnamed : s.fs.Named k) {files : Nat → Option Nat}
    {lost : List Nat}
    (hperm : (s.fs.files.length :: s.opened).Perm (tableSlots.filterMap files ++ lost)) :
    Sound ⟨s.fs.opened k, files, s.fs.files.length :: s.opened, lost⟩ where
  fs := (hs.fs.opened hnamed).1
  isOpen h hh := by
    rcases mem_cons.mp hh with rfl | hh
    · exact isSome_iff_exists.mpr ⟨_, s.fs.opened_file⟩
    · obtain ⟨file, hfile⟩ := isSome_iff_exists.mp (hs.isOpen h hh)
      have hkept : s.fs.SameFiles (s.fs.opened k) fun _ => False := s.fs.opened_files
      obtain ⟨file', hfile', -⟩ := hkept h file hfile id
      exact isSome_iff_exists.mpr ⟨file', hfile'⟩
  nodup := nodup_cons.mpr ⟨fun hh => Nat.lt_irrefl _ (hs.lt_length hh), hs.nodup⟩
  perm := hperm

theorem Sound.sysOpen (hs : s.Sound) (mem : OpenMemory) (fileName : Name) (hdir : mem.dir = true) :
    ∃ r s', s.sysOpen mem fileName = some (r, s') ∧ s.Opened mem fileName r s' ∧ s'.Sound := by
  rcases hs.fs.openFileWith mem fileName hdir with ⟨hnone, hopen⟩ | ⟨k, has, hnamed, hopen⟩
  · exact ⟨-1, s, by simp [Descriptors.sysOpen, hopen], .notFound hnone, hs⟩
  · cases hfree : s.freeFd with
    | some fd =>
      obtain ⟨hmem, hnone, hbefore⟩ := freeFd_some hfree
      obtain ⟨hge, hlt⟩ := mem_tableSlots.mp hmem
      refine ⟨fd, _, by simp [Descriptors.sysOpen, hopen, hfree],
        .stored hge hlt hnone hbefore has, hs.open_new hnamed ?_⟩
      exact (hs.perm.cons _).trans
        ((filterMap_update nodup_tableSlots hmem hnone).symm.append_right _)
    | none =>
      refine ⟨-1, _, by simp [Descriptors.sysOpen, hopen, hfree],
        .lost (freeFd_none.mp hfree) has, hs.open_new hnamed ?_⟩
      exact (hs.perm.cons _).trans perm_middle.symm

theorem Sound.lost_iff (hs : s.Sound) {mem : OpenMemory} {fileName : Name} {r : Int}
    (hopen : s.sysOpen mem fileName = some (r, s')) :
    s'.lost = s.lost ∧ s.Fits (.open mem fileName) ∨
      (∃ h, s'.lost = h :: s.lost) ∧ ¬ s.Fits (.open mem fileName) := by
  have hdir : mem.dir = true := by
    by_contra hno
    simp [Descriptors.sysOpen, Filesys.openFileWith, hno] at hopen
  obtain ⟨r', s₁, hopen', hopened, -⟩ := hs.sysOpen mem fileName hdir
  cases hopen'.symm.trans hopen
  cases hopened with
  | notFound hnone => exact .inl ⟨rfl, fun _ => hnone⟩
  | stored hge hlt hfree _ _ =>
    exact .inl ⟨rfl, fun hfull => absurd hfree (freeFd_none.mp hfull _ hge hlt)⟩
  | lost hfull has => exact .inr ⟨⟨_, rfl⟩, fun hfits => hfits (freeFd_none.mpr hfull) _ has⟩

/-! ## Closing -/

theorem Sound.closeSlot (hs : s.Sound) (hfd : fd ∈ tableSlots) :
    ∃ s', s.closeSlot fd = some s' ∧ s'.Sound ∧ s'.lost = s.lost ∧
      s'.files = update s.files fd none ∧
      (∀ h ∈ s.opened, h ∈ s'.opened ∨ s'.fs.file h = none) ∧
      ∀ h, s.fs.file h = none → s'.fs.file h = none := by
  cases hfile : s.files fd with
  | none =>
    refine ⟨s, by simp [Descriptors.closeSlot, hfile], hs, rfl, ?_, fun h hh => .inl hh,
      fun h hh => hh⟩
    rw [← hfile, update_eq_self]
  | some h =>
    have hclear := filterMap_clear nodup_tableSlots hfd hfile
    have hperm : s.opened.Perm
        (h :: (tableSlots.filterMap (update s.files fd none) ++ s.lost)) :=
      hs.perm.trans (hclear.append_right _)
    have hh : h ∈ s.opened := hperm.symm.subset mem_cons_self
    obtain ⟨file, hf⟩ := isSome_iff_exists.mp (hs.isOpen h hh)
    obtain ⟨fs', hclose, heffect, -⟩ := hs.fs.fileClose hf
    have hself := fileClose_self hclose
    refine ⟨⟨fs', update s.files fd none, s.opened.erase h, s.lost⟩,
      by simp [Descriptors.closeSlot, hfile, hclose], ⟨heffect.consistent, fun j hj => ?_,
        hs.nodup.erase h, ?_⟩, rfl, rfl, fun j hj => ?_, fun j hj => ?_⟩
    · obtain ⟨hne, hj⟩ := hs.nodup.mem_erase_iff.mp hj
      show (fs'.file j).isSome = true
      rw [fileClose_other hclose hne]
      exact hs.isOpen j hj
    · have herase := hperm.erase h
      rw [erase_cons_head] at herase
      exact herase
    · by_cases hne : j = h
      · exact .inr (hne ▸ hself)
      · exact .inl (hs.nodup.mem_erase_iff.mpr ⟨hne, hj⟩)
    · by_cases hne : j = h
      · exact hne ▸ hself
      · exact (fileClose_other hclose hne).trans hj

theorem Sound.closeLoop (hs : s.Sound) {fds : List Nat} (hfds : ∀ fd ∈ fds, fd ∈ tableSlots) :
    ∃ s', s.closeLoop fds = some s' ∧ s'.Sound ∧ s'.lost = s.lost ∧
      (∀ fd, s.files fd = none ∨ fd ∈ fds → s'.files fd = none) ∧
      (∀ h ∈ s.opened, h ∈ s'.opened ∨ s'.fs.file h = none) ∧
      ∀ h, s.fs.file h = none → s'.fs.file h = none := by
  induction fds generalizing s with
  | nil =>
    refine ⟨s, rfl, hs, rfl, fun fd hfd => ?_, fun h hh => .inl hh, fun h hh => hh⟩
    rcases hfd with hnone | hmem
    · exact hnone
    · cases hmem
  | cons fd fds ih =>
    obtain ⟨s₁, hclose, hs₁, hlost₁, hfiles₁, hopen₁, hgone₁⟩ :=
      hs.closeSlot (hfds fd mem_cons_self)
    obtain ⟨s', hloop, hs', hlost', hfiles', hopen', hgone'⟩ :=
      ih hs₁ fun fd hfd => hfds fd (mem_cons_of_mem _ hfd)
    refine ⟨s', by simp [closeLoop, hclose, hloop], hs', hlost'.trans hlost₁,
      fun i hi => hfiles' i ?_, fun h hh => ?_, fun h hh => hgone' h (hgone₁ h hh)⟩
    · rw [hfiles₁]
      by_cases hne : i = fd
      · rw [hne, update_self]
        exact .inl rfl
      · rw [update_of_ne hne]
        exact hi.imp_right fun hmem => (mem_cons.mp hmem).resolve_left hne
    · rcases hopen₁ h hh with hmem | hnone
      · exact hopen' h hmem
      · exact .inr (hgone' h hnone)

theorem Sound.closeAllFiles (hs : s.Sound) :
    ∃ s', s.closeAllFiles = some s' ∧ ∀ h ∈ s.opened, s'.fs.file h = none ↔ h ∉ s.lost := by
  obtain ⟨s', hclose, hs', hlost, hfiles, hopen, -⟩ := hs.closeLoop fun fd hfd => hfd
  have hheld : s'.held = [] := filterMap_eq_nil_iff.mpr fun fd hfd => hfiles fd (.inr hfd)
  have hperm : s'.opened.Perm s.lost := by
    have hp := hs'.perm
    rw [hheld, hlost, nil_append] at hp
    exact hp
  refine ⟨s', hclose, fun h hh => ⟨fun hnone hmem => ?_, fun hmem => ?_⟩⟩
  · have hsome := hs'.isOpen h (hperm.symm.subset hmem)
    rw [hnone] at hsome
    cases hsome
  · exact (hopen h hh).resolve_left fun hin => hmem (hperm.subset hin)

/-! ## Runs -/

theorem Sound.step (hs : s.Sound) {c : Call} (hok : s.Leaves c) (hstep : s.step c = some s') :
    s'.Sound := by
  cases c with
  | «open» mem fileName =>
    simp only [Descriptors.step, map_eq_some_iff] at hstep
    obtain ⟨⟨r, s₁⟩, hopen, rfl⟩ := hstep
    cases hdir : mem.dir with
    | false => simp [Descriptors.sysOpen, openFileWith, hdir] at hopen
    | true =>
      obtain ⟨r', s₂, hopen', -, hs'⟩ := hs.sysOpen mem fileName hdir
      rw [hopen] at hopen'
      cases hopen'
      exact hs'
  | close fd =>
    simp only [Descriptors.step, Descriptors.sysClose] at hstep
    split at hstep
    · next hin =>
      have hmem : fd.toInt.toNat ∈ tableSlots := mem_tableSlots.mpr ⟨by omega, by omega⟩
      obtain ⟨s₁, hclose, hs', -⟩ := hs.closeSlot hmem
      rw [hclose] at hstep
      cases hstep
      exact hs'
    · cases hstep
      exact hs
  | other fs =>
    cases hstep
    refine ⟨hok.1, fun h hh => ?_, hs.nodup, hs.perm⟩
    obtain ⟨file, hfile⟩ := isSome_iff_exists.mp (hs.isOpen h hh)
    obtain ⟨file', hfile', -⟩ := hok.2 h hh file hfile
    exact isSome_iff_exists.mpr ⟨file', hfile'⟩

theorem closeSlot_lost (hclose : s.closeSlot fd = some s') : s'.lost = s.lost := by
  unfold closeSlot at hclose
  split at hclose
  · simp only [bind_eq_bind, bind_eq_some_iff] at hclose
    obtain ⟨fs, -, heq⟩ := hclose
    cases heq
    rfl
  · cases hclose
    rfl

theorem Sound.step_lost (hs : s.Sound) {c : Call} (hstep : s.step c = some s') :
    s'.lost = s.lost ∧ s.Fits c ∨ (∃ h, s'.lost = h :: s.lost) ∧ ¬ s.Fits c := by
  cases c with
  | «open» mem fileName =>
    simp only [Descriptors.step, map_eq_some_iff] at hstep
    obtain ⟨⟨r, s₁⟩, hopen, rfl⟩ := hstep
    exact hs.lost_iff hopen
  | close fd =>
    refine .inl ⟨?_, trivial⟩
    simp only [Descriptors.step, sysClose] at hstep
    split at hstep
    · exact closeSlot_lost hstep
    · cases hstep
      rfl
  | other fs =>
    cases hstep
    exact .inl ⟨rfl, trivial⟩

/-- The runs of the calls. -/
abbrev Calls : Descriptors → List Call → Descriptors → Prop :=
  Runs (fun s c s' => s.step c = some s') Leaves

/-- Those in which each file that is found has a place. -/
abbrev RoomyCalls : Descriptors → List Call → Descriptors → Prop :=
  Runs (fun s c s' => s.step c = some s') fun s c => s.Leaves c ∧ s.Fits c

variable {calls : List Call}

theorem Calls.sound (hcalls : s.Calls calls s') (hs : s.Sound) : s'.Sound := by
  refine Runs.invariant ?_ hcalls hs
  intro s c s' hs hok hstep
  exact hs.step hok hstep

theorem Calls.lost_ne_nil (hcalls : s.Calls calls s') (hs : s.Sound) (hlost : s.lost ≠ []) :
    s'.lost ≠ [] := by
  refine (Runs.invariant (I := fun s => s.Sound ∧ s.lost ≠ []) ?_ hcalls ⟨hs, hlost⟩).2
  rintro s c s' ⟨hs, hne⟩ hok hstep
  refine ⟨hs.step hok hstep, ?_⟩
  rcases hs.step_lost hstep with ⟨heq, -⟩ | ⟨⟨h, heq⟩, -⟩
  · rw [heq]
    exact hne
  · rw [heq]
    exact cons_ne_nil h _

theorem Calls.lost_eq_nil_iff (hcalls : s.Calls calls s') (hs : s.Sound) (hlost : s.lost = []) :
    s'.lost = [] ↔ s.RoomyCalls calls s' := by
  induction hcalls with
  | nil s => exact iff_of_true hlost (.nil s)
  | @cons s s₁ s' c calls hok hstep hrest ih =>
    have hs₁ := hs.step hok hstep
    rcases hs.step_lost hstep with ⟨heq, hfits⟩ | ⟨⟨h, heq⟩, hfull⟩
    · refine (ih hs₁ (heq.trans hlost)).trans
        ⟨fun hroomy => .cons ⟨hok, hfits⟩ hstep hroomy, fun hroomy => ?_⟩
      cases hroomy with
      | cons _ hstep' hroomy' =>
        rw [hstep] at hstep'
        cases hstep'
        exact hroomy'
    · have hne : s₁.lost ≠ [] := by
        rw [heq]
        exact cons_ne_nil h _
      refine iff_of_false (Calls.lost_ne_nil hrest hs₁ hne) fun hroomy => ?_
      cases hroomy with
      | cons hok' _ _ => exact hfull hok'.2

end Descriptors

/-- **When no handle is lost.** After any calls of a process the references to inodes that are due to it
are as many as the places of its table that are taken, and `close_all_files` closes all its handles,
exactly if no `sys_open` has found a file while the table was full. `sys_open` puts a handle for the
inode of that name into the first free place, or returns -1 (`Opened`). -/
theorem descriptors_lose_none_iff {s₀ s : Descriptors} {calls : List Descriptors.Call}
    (hs₀ : s₀.Sound) (hlost : s₀.lost = []) (hcalls : s₀.Calls calls s) :
    (∑ k ∈ Finset.range s.fs.device.size, s.due k = s.held.length ↔ s₀.RoomyCalls calls s) ∧
    (∀ k ip, s.fs.openInodes k = some ip → Filesys.IsFile k → s.due k ≤ ip.openCnt) ∧
    (∀ mem fileName, mem.dir = true → ∃ r s', s.sysOpen mem fileName = some (r, s') ∧
      s.Opened mem fileName r s') ∧
    ∃ s', s.closeAllFiles = some s' ∧
      ((∀ h ∈ s.opened, s'.fs.file h = none) ↔ s₀.RoomyCalls calls s) := by
  have hs := Descriptors.Calls.sound hcalls hs₀
  have hiff := Descriptors.Calls.lost_eq_nil_iff hcalls hs₀ hlost
  refine ⟨?_, fun k ip hip hk => hs.due_le hip hk, fun mem fileName hdir => ?_, ?_⟩
  · rw [hs.sum_due, ← hiff, ← length_eq_zero_iff]
    omega
  · obtain ⟨r, s', hopen, hopened, -⟩ := hs.sysOpen mem fileName hdir
    exact ⟨r, s', hopen, hopened⟩
  · obtain ⟨s', hclose, hgone⟩ := hs.closeAllFiles
    refine ⟨s', hclose, ?_⟩
    rw [← hiff, eq_nil_iff_forall_not_mem]
    constructor
    · intro hall h hmem
      have hh : h ∈ s.opened := hs.perm.symm.subset (mem_append_right _ hmem)
      exact (hgone h hh).mp (hall h hh) hmem
    · exact fun hnone h hh => (hgone h hh).mpr (hnone h)

/-! ## Opening one file again and again -/

namespace Descriptors

theorem Sound.opens {s : Descriptors} (hs : s.Sound) {fileName : Name} {k : Nat}
    (hname : s.fs.FoundAs .all fileName k) (n : Nat) :
    ∃ s', s.Calls (List.replicate n (.open .all fileName)) s' ∧
      s'.opened.length = s.opened.length + n := by
  induction n generalizing s k with
  | zero => exact ⟨s, .nil s, rfl⟩
  | succ n ih =>
    obtain ⟨r, s₁, hopen, hopened, hs₁⟩ := hs.sysOpen .all fileName rfl
    have hstep : s.step (.open .all fileName) = some s₁ := by
      simp [Descriptors.step, hopen]
    have hlater : ∀ {k'}, s₁.fs.FoundAs .all fileName k' → s₁.opened.length = s.opened.length + 1 →
        ∃ s', s.Calls (List.replicate (n + 1) (.open .all fileName)) s' ∧
          s'.opened.length = s.opened.length + (n + 1) := by
      intro k' hname₁ hlen
      obtain ⟨s', hcalls, hlen'⟩ := ih hs₁ hname₁
      refine ⟨s', .cons trivial hstep hcalls, ?_⟩
      omega
    cases hopened with
    | notFound hnone => exact absurd hname (hnone k)
    | stored _ _ _ _ has => exact hlater ⟨has.1, Bool.or_true _, rfl⟩ rfl
    | lost _ has => exact hlater ⟨has.1, Bool.or_true _, rfl⟩ rfl

/-- A process that has no file open yet. The file `a` is on the disk. -/
def atStart : Descriptors := ⟨Running.State.startA.fs, fun _ => none, [], []⟩

theorem atStart_sound : atStart.Sound where
  fs := Running.State.startA_consistent
  isOpen := nofun
  nodup := List.nodup_nil
  perm := by
    have hheld : atStart.held = [] := filterMap_eq_nil_iff.mpr fun _ _ => rfl
    rw [hheld]
    exact .refl _

theorem atStart_named : ∃ k, atStart.fs.FoundAs .all Filesys.nameA k := by
  have hfound : (atStart.fs.openFileWith .all nameA).map (fun r => r.1.isSome) = some true := by
    decide +kernel
  rcases atStart_sound.fs.openFileWith .all nameA rfl with ⟨-, hnone⟩ | ⟨k, has, -⟩
  · rw [hnone] at hfound
    cases hfound
  · exact ⟨k, has⟩

end Descriptors

/-- The first file gets a place. -/
theorem descriptors_lose_none_first :
    ∃ s, Descriptors.atStart.Calls [.open .all Filesys.nameA] s ∧
      ∑ k ∈ Finset.range s.fs.device.size, s.due k = s.held.length := by
  obtain ⟨k, hname⟩ := atStart_named
  obtain ⟨s, hcalls, -⟩ := atStart_sound.opens hname 1
  have hcalls : atStart.Calls [.open .all nameA] s := hcalls
  refine ⟨s, hcalls, (descriptors_lose_none_iff atStart_sound rfl hcalls).1.mpr ?_⟩
  cases hcalls with
  | cons hok hstep hrest =>
    have hfits : atStart.Fits (.open .all nameA) := fun hnone => by
      have hfirst : atStart.freeFd = some 2 := by decide +kernel
      rw [hfirst] at hnone
      cases hnone
    cases hrest
    exact .cons ⟨hok, hfits⟩ hstep (.nil s)

/-- A process opens the file `a` 1023 times. Then more references are due to it than there are places
taken in its table, and one handle stays open when it exits. -/
theorem descriptor_lost :
    ∃ s, Descriptors.atStart.Calls (List.replicate 1023 (.open .all Filesys.nameA)) s ∧
      s.held.length < ∑ k ∈ Finset.range s.fs.device.size, s.due k ∧
      ∃ s', s.closeAllFiles = some s' ∧ ∃ h ∈ s.opened, (s'.fs.file h).isSome = true := by
  obtain ⟨k, hname⟩ := atStart_named
  obtain ⟨s, hcalls, hlen⟩ := atStart_sound.opens hname 1023
  have hs := Descriptors.Calls.sound hcalls atStart_sound
  have hopened : s.opened.length = 1023 := by
    rw [hlen]
    rfl
  have hheld : s.held.length ≤ 1022 := by
    have hle := length_filterMap_le s.files tableSlots
    unfold tableSlots at hle
    rw [length_range'] at hle
    exact hle
  have hperm := hs.perm.length_eq
  rw [length_append, hopened] at hperm
  refine ⟨s, hcalls, by rw [hs.sum_due]; omega, ?_⟩
  obtain ⟨s', hclose, hgone⟩ := hs.closeAllFiles
  obtain ⟨h, hmem⟩ := exists_mem_of_length_pos (show 0 < s.lost.length by omega)
  have hh : h ∈ s.opened := hs.perm.symm.subset (mem_append_right _ hmem)
  refine ⟨s', hclose, h, hh, ?_⟩
  rw [← ne_none_iff_isSome]
  exact fun hnone => (hgone h hh).mp hnone hmem

end Pintos
