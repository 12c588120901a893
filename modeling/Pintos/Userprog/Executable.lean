import Pintos.Userprog.FileCalls
import Pintos.Userprog.Segments

/-!
# The files of running programs

`load` closes the executable when it has registered its pages, which are read from the disk later.
What keeps the file as it is meanwhile is a second handle: `process_execute` opens the file again,
after `thread_create`, denies writes to it and puts the handle into the table of the new process.

A step of the model is one section under `file_sema`, or a step between two of them. So `load` may
run before the parent's section, and a process may close the handle in its own table, which is
descriptor 2.
-/

namespace Pintos.Running

open Lib List Filesys

/-- What `load` leaves of an executable: its inode, the supplemental table, and the device then. -/
structure Image where
  inode : Nat
  supdir : Supdir
  device : Block

/-- Where a process is. -/
inductive Phase
  /-- The initial thread, which runs no program. -/
  | kernel
  /-- Before `load`. -/
  | starting
  | running (im : Image)
  /-- In the loop of `close_all_files`, at `fd`. -/
  | exiting (fd : Nat)
  /-- The table is freed. -/
  | gone

/-- A process. `pending` is the child whose protection is still to come in `process_execute`. -/
structure Task where
  program : Name
  phase : Phase
  files : Nat → Option Nat
  pending : Option Nat

structure State where
  fs : Filesys
  tasks : List Task

/-- What can happen next. -/
inductive Event
  /-- `t` calls `process_execute`, up to the end of `thread_create`. -/
  | exec (t : Nat) (program : Name)
  /-- The section of `process_execute` of `t`. -/
  | protect (t : Nat)
  /-- `load` of `t`, with these program headers in the file. -/
  | load (t : Nat) (phs : List Phdr)
  /-- A system call of `t` other than `close`. -/
  | call (t : Nat) (mem : Mem) (call : FileCall)
  | close (t : Nat) (fd : Int32)
  /-- `t` exits. -/
  | exit (t : Nat)
  /-- The next round of the loop in `close_all_files` of `t`, or its end. -/
  | closeNext (t : Nat)

/-- The image of a running process. -/
def Task.image (task : Task) : Option Image :=
  match task.phase with
  | .running im => some im
  | _ => none

/-- The process runs and is not in `process_execute`. -/
def Task.free (task : Task) : Bool := task.image.isSome && task.pending.isNone

/-- The slots of the loop over the child's `files`. -/
def slots : List Nat := List.range' 2 1022

/-- The supplemental table that `load` makes. -/
def imageTable (inode : Inode) (phs : List Phdr) : Supdir :=
  (loadPhdrs inode phs supdirCreate).2.register stackEntry

namespace State

def setTask (s : State) (t : Nat) (fs : Filesys) (task : Task) : State := ⟨fs, s.tasks.set t task⟩

/-- The loop in `process_execute` over the table of the child. -/
def give (child : Task) (h : Nat) : Task :=
  match child.phase, slots.find? fun i => (child.files i).isNone with
  | .gone, _ => child
  | _, some i => { child with files := Function.update child.files i (some h) }
  | _, none => child

/-- The section of `process_execute`: the file system and the child after it. -/
def protectChild (fs : Filesys) (child : Task) : Option (Filesys × Task) := do
  let (file, fs) ← fs.openFile child.program
  match file with
  | some h =>
    let fs ← fs.fileDenyWrite h
    return (fs, give child h)
  | none => return (fs, child)

/-- `load`: the file system and what it leaves of the executable, if it succeeds. -/
def loadImage (fs : Filesys) (program : Name) (phs : List Phdr) :
    Option (Filesys × Option Image) := do
  let (file, fs) ← fs.openFile program
  match file with
  | some h =>
    let k := (← fs.file h).inode
    let inode := fs.device.inodeAt k
    let success := (loadPhdrs inode phs supdirCreate).1
    let fs' ← fs.fileClose h
    return (fs', if success then some ⟨k, imageTable inode phs, fs.device⟩ else none)
  | none => return (fs, none)

/-- `sys_close` of an open descriptor. -/
def closeFd (s : State) (t : Nat) (task : Task) (fd h : Nat) : Option State := do
  let fs ← s.fs.fileClose h
  return s.setTask t fs { task with files := Function.update task.files fd none }

/-- The state after an event. `none` is an event that cannot happen, or a panic. -/
def step (s : State) : Event → Option State
  | .exec t program => do
      let task ← s.tasks[t]?
      match task.phase, task.pending with
      | .kernel, none | .running _, none =>
        return ⟨s.fs, s.tasks.set t { task with pending := some s.tasks.length } ++
          [⟨program, .starting, fun _ => none, none⟩]⟩
      | _, _ => none
  | .protect t => do
      let task ← s.tasks[t]?
      let c ← task.pending
      let child ← s.tasks[c]?
      let (fs, child) ← protectChild s.fs child
      return ⟨fs, (s.tasks.set t { task with pending := none }).set c child⟩
  | .load t phs => do
      let task ← s.tasks[t]?
      match task.phase with
      | .starting =>
        let (fs, im) ← loadImage s.fs task.program phs
        match im with
        | some im => return s.setTask t fs { task with phase := .running im }
        | none => return s.setTask t fs { task with phase := .exiting 2 }
      | _ => none
  | .call t mem call => do
      let task ← s.tasks[t]?
      if task.free then
        let (_, r) ← fileCall ⟨s.fs, task.files, mem⟩ call
        return s.setTask t r.fs { task with files := r.files }
      else none
  | .close t fd => do
      let task ← s.tasks[t]?
      if task.free then
        match FileState.fileOf ⟨s.fs, task.files, fun _ => 0⟩ fd with
        | some h => s.closeFd t task fd.toInt.toNat h
        | none => return s
      else none
  | .exit t => do
      let task ← s.tasks[t]?
      if task.free then return s.setTask t s.fs { task with phase := .exiting 2 } else none
  | .closeNext t => do
      let task ← s.tasks[t]?
      match task.phase with
      | .exiting fd =>
        if fd < 1024 then
          match task.files fd with
          | some h => s.closeFd t { task with phase := .exiting (fd + 1) } fd h
          | none => return s.setTask t s.fs { task with phase := .exiting (fd + 1) }
        else return s.setTask t s.fs { task with phase := .gone }
      | _ => none

/-! ## What is promised -/

/-- The file of a running program may not be written, and is as it was. -/
structure Guarded (fs : Filesys) (im : Image) : Prop where
  denied : ∃ ip, fs.openInodes im.inode = some ip ∧ 0 < ip.denyWriteCnt
  kept : ∀ va e, lookupSupPage im.supdir va = some e → e.location = .file →
    ∀ i, e.sector ≤ i → i < e.sector + (e.readBytes + 511) / 512 →
      fs.dataOf im.inode i ∧ ∀ o < 512, fs.device.data i o = im.device.data i o

/-- The executables of all running processes are guarded. -/
def Protected (s : State) : Prop :=
  ∀ task ∈ s.tasks, ∀ im, task.image = some im → Guarded s.fs im

/-- Closing handle `h` leaves every running program a handle that protects it. -/
def mayClose (s : State) (h : Nat) : Bool :=
  match s.fs.file h with
  | some file =>
    !file.denyWrite || 2 ≤ s.fs.denials file.inode ||
      s.tasks.all fun task => task.image.all fun im => im.inode ≠ file.inode
  | none => true

/-- The file is protected when it is loaded, and the segments lie in its sectors. -/
def mayLoad (s : State) (program : Name) (phs : List Phdr) : Bool :=
  match s.fs.openFile program with
  | some (some h, fs) =>
    match fs.file h with
    | some file =>
      0 < s.fs.denials file.inode &&
        (loadable phs).all fun ph => ph.filesz = 0 ∨
          ph.offset.toNat + ph.filesz.toNat ≤ 512 * (fs.device.inodeAt file.inode).sectors
    | none => true
  | _ => true

/-- Programs are loaded when they are protected, and stay so. -/
def orderly (s : State) : Event → Bool
  | .load t phs => (s.tasks[t]?).all fun task => s.mayLoad task.program phs
  | .close t fd => (s.tasks[t]?).all fun task =>
    (FileState.fileOf ⟨s.fs, task.files, fun _ => 0⟩ fd).all s.mayClose
  | .closeNext t => (s.tasks[t]?).all fun task =>
    match task.phase with
    | .exiting fd => (task.files fd).all s.mayClose
    | _ => true
  | _ => true

/-! ## Handles that deny writes -/

section Denied

variable {fs fs' : Filesys} {k h₀ : Nat} {writes closes : Nat → Prop} {im : Image}

/-- An open file denies writes to inode `k`. -/
def Denied (fs : Filesys) (k : Nat) : Prop :=
  ∃ h file, fs.file h = some file ∧ file.inode = k ∧ file.denyWrite = true

theorem denies_eq_true {file : Option File} :
    File.denies k file = true ↔ ∃ f, file = some f ∧ f.inode = k ∧ f.denyWrite = true := by
  cases file with
  | none => exact ⟨nofun, nofun⟩
  | some f => simp [File.denies]

theorem denials_pos_iff : 0 < fs.denials k ↔ Denied fs k := by
  unfold denials Denied
  rw [countP_pos_iff]
  constructor
  · rintro ⟨file, hmem, hdenies⟩
    obtain ⟨f, rfl, hinode, hdeny⟩ := denies_eq_true.mp hdenies
    obtain ⟨h, hlt, hget⟩ := mem_iff_getElem.mp hmem
    exact ⟨h, f, file_eq_some.mpr (by rw [List.getElem?_eq_getElem hlt, hget]), hinode, hdeny⟩
  · rintro ⟨h, f, hfile, hinode, hdeny⟩
    exact ⟨some f, mem_of_getElem? (file_eq_some.mp hfile),
      denies_eq_true.mpr ⟨f, rfl, hinode, hdeny⟩⟩

/-- Of two handles that deny writes one stays when the other is closed. -/
theorem exists_other_denial (h2 : 2 ≤ fs.denials k) (h : Nat) :
    ∃ h' file, h' ≠ h ∧ fs.file h' = some file ∧ file.inode = k ∧ file.denyWrite = true := by
  by_contra hnone
  have hone : ∀ h' f, fs.file h' = some f → f.inode = k → f.denyWrite = true → h' = h := by
    intro h' f hfile hinode hdeny
    by_contra hne
    exact hnone ⟨h', f, hne, hfile, hinode, hdeny⟩
  -- without the handle nothing is left to count
  have hrest : (fs.files.set h none).countP (File.denies k) = 0 := by
    rw [countP_eq_zero]
    intro file hmem hdenies
    obtain ⟨f, rfl, hinode, hdeny⟩ := denies_eq_true.mp hdenies
    obtain ⟨j, hj, hget⟩ := mem_iff_getElem.mp hmem
    rw [getElem_set] at hget
    split at hget
    · cases hget
    · next hne =>
      rw [length_set] at hj
      refine hne (hone j f (file_eq_some.mpr ?_) hinode hdeny).symm
      rw [List.getElem?_eq_getElem hj, hget]
  unfold denials at h2
  by_cases hlt : h < fs.files.length
  · have hset := countP_set (p := File.denies k) (a := none) hlt
    rw [hrest] at hset
    split at hset <;> simp [File.denies] at hset <;> omega
  · rw [set_eq_of_length_le (Nat.not_lt.mp hlt)] at hrest
    omega

theorem Denied.inode (hc : fs.Consistent) (hd : Denied fs k) :
    Filesys.IsFile k ∧ fs.Live k ∧ ∃ ip, fs.openInodes k = some ip ∧ 0 < ip.denyWriteCnt := by
  obtain ⟨h, file, hfile, rfl, -⟩ := id hd
  obtain ⟨ip, hip, hk⟩ := hc.inode (file_eq_some.mp hfile)
  refine ⟨hk, (hc.mounted.cached hip).1, ip, hip, ?_⟩
  rw [hc.denyCnt hip hk]
  exact denials_pos_iff.mpr hd

theorem denied_of_denyWriteCnt (hc : fs.Consistent) (hk : Filesys.IsFile k) {ip : OpenInode}
    (hip : fs.openInodes k = some ip) (hpos : 0 < ip.denyWriteCnt) : Denied fs k := by
  rw [hc.denyCnt hip hk] at hpos
  exact denials_pos_iff.mp hpos

/-! ## What operations keep -/

section

variable (hc : fs.Consistent)
include hc

theorem Guarded.isDenied (hg : Guarded fs im) : Denied fs im.inode := by
  obtain ⟨ip, hip, hpos⟩ := hg.denied
  refine denied_of_denyWriteCnt hc ⟨?_, ?_⟩ hip hpos
  · -- nobody denies writes to the free map
    intro hmap
    obtain ⟨ip', hip', hzero⟩ := hc.mounted.mapOpen
    rw [hmap, hip'] at hip
    cases hip
    omega
  · intro hroot
    rw [hroot, hc.rootClosed] at hip
    cases hip

theorem Guarded.effect (he : fs.Effect fs' writes closes) (hg : Guarded fs im)
    (hw : ¬ writes im.inode)
    (hh : ∃ h file, ¬ closes h ∧ fs.file h = some file ∧ file.inode = im.inode ∧
      file.denyWrite = true) :
    Guarded fs' im := by
  obtain ⟨hk, hl, -⟩ := (hg.isDenied hc).inode hc
  obtain ⟨h, file, hopen, hfile, hinode, hdeny⟩ := hh
  obtain ⟨file', hfile', hinode', hdeny'⟩ := he.files h file hfile hopen
  have hd' : Denied fs' im.inode := ⟨h, file', hfile', hinode'.trans hinode, hdeny' hdeny⟩
  refine ⟨(hd'.inode he.consistent).2.2, ?_⟩
  intro va e hva hloc i hlo hhi
  obtain ⟨hof, hdata⟩ := hg.kept va e hva hloc i hlo hhi
  refine ⟨?_, fun o ho => (he.data hk hl hw hof ho).trans (hdata o ho)⟩
  unfold dataOf
  rw [he.inode hk hl]
  exact hof

theorem Guarded.effect_open (he : fs.Effect fs' writes fun _ => False) (hg : Guarded fs im)
    (hw : ¬ writes im.inode) : Guarded fs' im := by
  obtain ⟨h, file, hfile, hinode, hdeny⟩ := hg.isDenied hc
  exact hg.effect hc he hw ⟨h, file, id, hfile, hinode, hdeny⟩

theorem fileClose_effect (h : fs.fileClose h₀ = some fs') :
    fs.Effect fs' (fun _ => False) (· = h₀) := by
  cases hfile : fs.file h₀ with
  | none => simp [fileClose, hfile] at h
  | some file =>
    obtain ⟨fs₁, hclose, heffect, -⟩ := hc.fileClose hfile
    cases hclose.symm.trans h
    exact heffect

theorem Guarded.close_fresh (hg : Guarded fs im) {file : File} (hfile : fs.file h₀ = some file)
    (hallow : file.denyWrite = false) (hclose : fs.fileClose h₀ = some fs') : Guarded fs' im := by
  obtain ⟨h, f, hf, hinode, hdeny⟩ := hg.isDenied hc
  refine hg.effect hc (fileClose_effect hc hclose) id ⟨h, f, ?_, hf, hinode, hdeny⟩
  rintro rfl
  rw [hfile] at hf
  cases hf
  rw [hallow] at hdeny
  cases hdeny

theorem create_keeps {name : Name} {size : UInt32} {r : Bool}
    (h : fs.create name (offT size.toNat) = some (r, fs')) : fs.Keeps fs' := by
  by_cases hsize : size.toNat < 2147483648
  · rw [offT_eq hsize] at h
    rcases hc.create name hsize with ⟨fs₁, leaked, hcreate, hundone, -⟩ |
      ⟨fs₁, -, hcreate, -, -, heffect, -⟩
    · cases hcreate.symm.trans h
      exact hundone.effect hc
    · cases hcreate.symm.trans h
      exact heffect
  · have hneg : ¬ 0 ≤ offT size.toNat := fun hpos => hsize (offT_nonneg.mp hpos)
    cases hc.create_negative hneg h
    exact .refl hc

theorem openFileWith_keeps {mem : OpenMemory} {name : Name} {r : Option Nat}
    (h : fs.openFileWith mem name = some (r, fs')) : fs.Keeps fs' := by
  by_cases hdir : mem.dir = true
  · rcases hc.openFileWith mem name hdir with ⟨-, hopen⟩ | ⟨k, -, hnamed, hopen⟩
    · cases hopen.symm.trans h
      exact .refl hc
    · cases hopen.symm.trans h
      obtain ⟨hc', hlive⟩ := hc.opened hnamed
      exact .of_memory hc' rfl rfl fs.opened_files hlive
  · exact absurd ((if_neg hdir).symm.trans h) nofun

theorem openFile_keeps {name : Name} {r : Option Nat} (h : fs.openFile name = some (r, fs')) :
    fs.Keeps fs' := openFileWith_keeps hc h

theorem fileWrite_effect {m : Mem} {buffer n : Nat} {size : Int}
    (h : fs.fileWrite h₀ m buffer size = some (n, fs')) :
    ∃ writes, fs.Effect fs' writes (fun _ => False) ∧ ∀ k, Denied fs k → ¬ writes k := by
  cases hfile : fs.file h₀ with
  | none => simp [fileWrite, hfile] at h
  | some file =>
    by_cases hd : Denied fs file.inode
    · obtain ⟨-, -, ip, hip, hpos⟩ := hd.inode hc
      obtain ⟨fs₁, hwrite, hkeeps⟩ :=
        hc.fileWrite_denied hfile hip (Nat.pos_iff_ne_zero.mp hpos) m buffer size
      cases hwrite.symm.trans h
      exact ⟨_, hkeeps, fun _ _ => id⟩
    · obtain ⟨n₁, fs₁, hwrite, heffect⟩ := hc.fileWrite hfile m buffer size
      cases hwrite.symm.trans h
      refine ⟨_, heffect, ?_⟩
      rintro k hk rfl
      exact hd hk

/-- A system call other than `close` closes no file, and writes none that somebody denies. -/
theorem fileCall_effect {files : Nat → Option Nat} {mem : Mem} {call : FileCall} {r : Option Int}
    {s' : FileState} (h : fileCall ⟨fs, files, mem⟩ call = some (r, s')) :
    ∃ writes, fs.Effect s'.fs writes (fun _ => False) ∧ ∀ k, Denied fs k → ¬ writes k := by
  have hkeep : ∀ {fs₁}, fs.Keeps fs₁ → ∃ writes, fs.Effect fs₁ writes (fun _ => False) ∧
      ∀ k, Denied fs k → ¬ writes k := fun hkeeps => ⟨_, hkeeps, fun _ _ => id⟩
  cases call with
  | create name size =>
    obtain ⟨⟨ok, fs₁⟩, hcreate, hr⟩ := Option.bind_eq_some_iff.mp h
    cases hr
    exact hkeep (create_keeps hc hcreate)
  | remove name =>
    obtain ⟨⟨ok, fs₁⟩, hremove, hr⟩ := Option.bind_eq_some_iff.mp h
    obtain ⟨ok', fs₂, hremove', hkeeps⟩ := hc.remove name
    cases hremove'.symm.trans hremove
    cases hr
    exact hkeep hkeeps
  | openFile mem name =>
    obtain ⟨⟨file, fs₁⟩, hopen, hr⟩ := Option.bind_eq_some_iff.mp h
    have hkeeps := openFileWith_keeps hc hopen
    simp only at hr
    split at hr
    · cases hr
      exact hkeep hkeeps
    · cases hr
      exact hkeep hkeeps
  | filesize fd =>
    simp only [fileCall] at h
    split at h
    · obtain ⟨length, -, hr⟩ := Option.bind_eq_some_iff.mp h
      cases hr
      exact hkeep (.refl hc)
    · cases h
      exact hkeep (.refl hc)
  | read fd buffer size =>
    simp only [fileCall] at h
    split at h
    · cases h
      exact hkeep (.refl hc)
    · split at h
      · next h₀ hfd =>
        obtain ⟨⟨n, mem', fs₁⟩, hread, hr⟩ := Option.bind_eq_some_iff.mp h
        cases hr
        cases hfile : fs.file h₀ with
        | none => simp [fileRead, hfile] at hread
        | some file =>
          obtain ⟨n₂, m₂, fs₂, hread', hkeeps⟩ :=
            hc.fileRead hfile mem buffer (offT size.toNat)
          cases hread'.symm.trans hread
          exact hkeep hkeeps
      · cases h
        exact hkeep (.refl hc)
  | write fd buffer size =>
    simp only [fileCall] at h
    split at h
    · cases h
      exact hkeep (.refl hc)
    · split at h
      · obtain ⟨⟨n, fs₁⟩, hwrite, hr⟩ := Option.bind_eq_some_iff.mp h
        cases hr
        exact fileWrite_effect hc hwrite
      · cases h
        exact hkeep (.refl hc)
  | seek fd position =>
    simp only [fileCall] at h
    split at h
    · next h₀ hfd =>
      obtain ⟨fs₁, hseek, hr⟩ := Option.bind_eq_some_iff.mp h
      cases hr
      cases hfile : fs.file h₀ with
      | none => simp [fileSeek, hfile] at hseek
      | some file =>
        by_cases hpos : 0 ≤ offT position.toNat
        · obtain ⟨fs₂, hseek', hkeeps⟩ := hc.fileSeek hfile hpos
          cases hseek'.symm.trans hseek
          exact hkeep hkeeps
        · simp [fileSeek, hfile, hpos] at hseek
    · cases h
      exact hkeep (.refl hc)
  | tell fd =>
    simp only [fileCall] at h
    split at h
    · obtain ⟨pos, -, hr⟩ := Option.bind_eq_some_iff.mp h
      cases hr
      exact hkeep (.refl hc)
    · cases h
      exact hkeep (.refl hc)

end

/-! ## Loading -/

theorem opened_handle (hc : fs.Consistent) {name : Name}
    (h : fs.openFile name = some (some h₀, fs')) : ∃ k, fs'.file h₀ = some ⟨k, 0, false⟩ := by
  rcases hc.lookupRoot name with ⟨i, e, hfound, -, -, -, hnamed⟩ | hnone
  · cases (hc.openFile_some hfound hnamed).symm.trans h
    exact ⟨_, fs.opened_file⟩
  · cases (hc.openFile_none hnone).symm.trans h

theorem imageTable_holds {inode : Inode} {phs : List Phdr} (hlen : inode.length < 2147483648)
    (hext : inode.start + inode.sectors ≤ 4294967295)
    (hload : (loadPhdrs inode phs supdirCreate).1 = true)
    (hfits : ∀ ph ∈ loadable phs,
      ph.filesz = 0 ∨ ph.offset.toNat + ph.filesz.toNat ≤ 512 * inode.sectors)
    {va : Nat} {e : Spte} (he : lookupSupPage (imageTable inode phs) va = some e)
    (hloc : e.location = .file) : inode.holds e := by
  have hpair : loadPhdrs inode phs supdirCreate = (true, (loadPhdrs inode phs supdirCreate).2) :=
    Prod.ext hload rfl
  obtain ⟨hvalid, htable⟩ := loadPhdrs_eq hpair
  unfold imageTable at he
  rw [lookup_register] at he
  split at he
  · cases he
    cases hloc
  · rw [htable] at he
    rcases lookup_foldl_some he with hmem | hold
    · obtain ⟨ph, hph, hentry⟩ := mem_flatMap.mp hmem
      exact holds_segmentEntry hlen hext (hvalid ph hph) (hfits ph hph) hentry hloc
    · rw [lookup_create] at hold
      cases hold

theorem guarded_of_load (hc : fs.Consistent) {program : Name} {phs : List Phdr}
    {fs₁ : Filesys} (hopen : fs.openFile program = some (some h₀, fs₁)) {file : File}
    (hd : Denied fs file.inode)
    (hload : (loadPhdrs (fs₁.device.inodeAt file.inode) phs supdirCreate).1 = true)
    (hfits : ∀ ph ∈ loadable phs, ph.filesz = 0 ∨ ph.offset.toNat + ph.filesz.toNat ≤
      512 * (fs₁.device.inodeAt file.inode).sectors)
    (hclose : fs₁.fileClose h₀ = some fs') :
    Guarded fs' ⟨file.inode, imageTable (fs₁.device.inodeAt file.inode) phs, fs₁.device⟩ := by
  have hkeeps := openFile_keeps hc hopen
  have hc₁ := hkeeps.consistent
  obtain ⟨k, hfresh⟩ := opened_handle hc hopen
  obtain ⟨h, f, hf, hinode, hdeny⟩ := hd
  obtain ⟨f', hf', hinode', hdeny'⟩ := hkeeps.files h f hf id
  have hd₁ : Denied fs₁ file.inode := ⟨h, f', hf', hinode'.trans hinode, hdeny' hdeny⟩
  obtain ⟨-, hl, hdenied⟩ := hd₁.inode hc₁
  have hlen := hc₁.mounted.laid.length hl
  have hsize := hc₁.mounted.laid.bound
  have hextent := hc₁.mounted.laid.extent hl
  have hsectors := sectors_le_bytesToSectors hlen
  -- the handle that `load` closes does not deny writes
  refine Guarded.close_fresh hc₁ ⟨hdenied, ?_⟩ hfresh rfl hclose
  intro va e hva hloc i hlo hhi
  obtain ⟨hfirst, hlast⟩ := imageTable_holds hlen (by omega) hload hfits hva hloc
  have hend := le_trans hlast (Nat.add_le_add_left hsectors _)
  exact ⟨⟨le_trans hfirst hlo, lt_of_lt_of_le hhi hend⟩, fun _ _ => rfl⟩

end Denied

/-! ## Steps -/

section Steps

variable {s s' : State} {t : Nat} {fs : Filesys} {task : Task}

/-- The programs that run are guarded in the file system `fs`. -/
def GuardedIn (s : State) (fs : Filesys) : Prop :=
  ∀ task ∈ s.tasks, ∀ im, task.image = some im → Guarded fs im

theorem GuardedIn.setTask (h : s.GuardedIn fs) (ht : ∀ im, task.image = some im → Guarded fs im) :
    (s.setTask t fs task).Protected := by
  intro task' hmem im him
  rcases mem_or_eq_of_mem_set hmem with hmem | rfl
  · exact h task' hmem im him
  · exact ht im him

section

variable (hc : s.fs.Consistent) (hp : s.Protected)
include hc hp

theorem mayClose_guarded {h : Nat} (hmay : s.mayClose h = true)
    (hclose : s.fs.fileClose h = some fs) : fs.Consistent ∧ s.GuardedIn fs := by
  have heffect := fileClose_effect hc hclose
  refine ⟨heffect.consistent, fun task hmem im him => ?_⟩
  have hg := hp task hmem im him
  obtain ⟨h', f, hf, hinode, hdeny⟩ := hg.isDenied hc
  refine hg.effect hc heffect id ?_
  -- the handle is the one that is closed, or another
  by_cases hne : h' = h
  · subst hne
    simp only [mayClose, hf, Bool.or_eq_true, Bool.not_eq_true', decide_eq_true_eq,
      all_eq_true] at hmay
    rcases hmay with (hallow | htwo) | hother
    · rw [hdeny] at hallow
      cases hallow
    · rw [hinode] at htwo
      exact exists_other_denial htwo h'
    · have hall := hother task hmem
      rw [him] at hall
      exact absurd hinode.symm (of_decide_eq_true hall)
  · exact ⟨h', f, hne, hf, hinode, hdeny⟩

theorem closeFd_protected {fd h : Nat}
    (himage : ∀ im, task.image = some im → ∃ task' ∈ s.tasks, task'.image = some im)
    (hmay : s.mayClose h = true) (h' : s.closeFd t task fd h = some s') :
    s'.fs.Consistent ∧ s'.Protected := by
  obtain ⟨fs, hclose, hs'⟩ := Option.bind_eq_some_iff.mp h'
  cases hs'
  obtain ⟨hc', hg⟩ := mayClose_guarded hc hp hmay hclose
  refine ⟨hc', hg.setTask fun im him => ?_⟩
  obtain ⟨task', hmem, him'⟩ := himage im him
  exact hg task' hmem im him'

theorem openFile_guarded {name : Name} {r : Option Nat} (h : s.fs.openFile name = some (r, fs)) :
    fs.Consistent ∧ s.GuardedIn fs := by
  have hkeeps := openFile_keeps hc h
  exact ⟨hkeeps.consistent, fun task hmem im him =>
    (hp task hmem im him).effect_open hc hkeeps id⟩

theorem protectChild_guarded {child child' : Task} (h : protectChild s.fs child = some (fs, child')) :
    fs.Consistent ∧ s.GuardedIn fs ∧ child'.image = child.image := by
  obtain ⟨⟨file, fs₁⟩, hopen, hr⟩ := Option.bind_eq_some_iff.mp h
  obtain ⟨hc₁, hg₁⟩ := openFile_guarded hc hp hopen
  cases file with
  | none =>
    cases hr
    exact ⟨hc₁, hg₁, rfl⟩
  | some h₀ =>
    obtain ⟨fs₂, hdeny, hr⟩ := Option.bind_eq_some_iff.mp hr
    cases hr
    obtain ⟨k, hfile⟩ := opened_handle hc hopen
    obtain ⟨fs₃, hdeny', hkeeps', -⟩ := hc₁.fileDenyWrite hfile
    cases hdeny'.symm.trans hdeny
    refine ⟨hkeeps'.consistent, fun task hmem im him => ?_, ?_⟩
    · exact (hg₁ task hmem im him).effect_open hc₁ hkeeps' id
    · unfold give
      split
      · rfl
      · rfl
      · rfl

theorem loadImage_guarded {program : Name} {phs : List Phdr} (hmay : s.mayLoad program phs = true)
    {im? : Option Image} (h : loadImage s.fs program phs = some (fs, im?)) :
    fs.Consistent ∧ s.GuardedIn fs ∧ ∀ im, im? = some im → Guarded fs im := by
  obtain ⟨⟨file, fs₁⟩, hopen, hr⟩ := Option.bind_eq_some_iff.mp h
  obtain ⟨hc₁, hg₁⟩ := openFile_guarded hc hp hopen
  cases file with
  | none =>
    cases hr
    exact ⟨hc₁, hg₁, nofun⟩
  | some h₀ =>
    obtain ⟨f, hf, hr⟩ := Option.bind_eq_some_iff.mp hr
    obtain ⟨fs₂, hclose, hr⟩ := Option.bind_eq_some_iff.mp hr
    cases hr
    obtain ⟨k, hfresh⟩ := opened_handle hc hopen
    refine ⟨(fileClose_effect hc₁ hclose).consistent, fun task hmem im him => ?_,
      fun im him => ?_⟩
    · exact (hg₁ task hmem im him).close_fresh hc₁ hfresh rfl hclose
    · simp only [mayLoad, hopen, hf, Bool.and_eq_true, decide_eq_true_eq, all_eq_true] at hmay
      split at him
      · next hload =>
        cases him
        exact guarded_of_load hc hopen (denials_pos_iff.mp hmay.1) hload hmay.2 hclose
      · cases him

theorem step_protected {e : Event} (ho : s.orderly e = true) (h : s.step e = some s') :
    s'.fs.Consistent ∧ s'.Protected := by
  cases e with
  | exec t program =>
    obtain ⟨task, htask, hr⟩ := Option.bind_eq_some_iff.mp h
    have hmem := mem_of_getElem? htask
    have hnew : s' = ⟨s.fs, s.tasks.set t { task with pending := some s.tasks.length } ++
        [⟨program, .starting, fun _ => none, none⟩]⟩ := by
      split at hr
      · exact (Option.some.inj hr).symm
      · exact (Option.some.inj hr).symm
      · cases hr
    subst hnew
    refine ⟨hc, fun task' hmem' im him => ?_⟩
    rcases mem_append.mp hmem' with hmem' | hmem'
    · rcases mem_or_eq_of_mem_set hmem' with hmem' | rfl
      · exact hp task' hmem' im him
      · exact hp task hmem im him
    · cases mem_singleton.mp hmem'
      cases him
  | protect t =>
    obtain ⟨task, htask, hr⟩ := Option.bind_eq_some_iff.mp h
    obtain ⟨c, hpending, hr⟩ := Option.bind_eq_some_iff.mp hr
    obtain ⟨child, hchild, hr⟩ := Option.bind_eq_some_iff.mp hr
    obtain ⟨⟨fs, child'⟩, hprotect, hr⟩ := Option.bind_eq_some_iff.mp hr
    cases hr
    obtain ⟨hc', hg, himage⟩ := protectChild_guarded hc hp hprotect
    refine ⟨hc', fun task' hmem' im him => ?_⟩
    rcases mem_or_eq_of_mem_set hmem' with hmem' | rfl
    · rcases mem_or_eq_of_mem_set hmem' with hmem' | rfl
      · exact hg task' hmem' im him
      · exact hg task (mem_of_getElem? htask) im him
    · rw [himage] at him
      exact hg child (mem_of_getElem? hchild) im him
  | load t phs =>
    obtain ⟨task, htask, hr⟩ := Option.bind_eq_some_iff.mp h
    simp only [orderly, htask, Option.all_some] at ho
    split at hr
    · obtain ⟨⟨fs, im?⟩, hload, hr⟩ := Option.bind_eq_some_iff.mp hr
      obtain ⟨hc', hg, him⟩ := loadImage_guarded hc hp ho hload
      cases im? with
      | none =>
        cases hr
        exact ⟨hc', hg.setTask nofun⟩
      | some im =>
        cases hr
        refine ⟨hc', hg.setTask fun im' him' => ?_⟩
        cases him'
        exact him im rfl
    · cases hr
  | call t mem call =>
    obtain ⟨task, htask, hr⟩ := Option.bind_eq_some_iff.mp h
    split at hr
    · obtain ⟨⟨r, st⟩, hcall, hr⟩ := Option.bind_eq_some_iff.mp hr
      cases hr
      obtain ⟨writes, heffect, hdenied⟩ := fileCall_effect hc hcall
      have hg : s.GuardedIn st.fs := fun task hmem im him =>
        (hp task hmem im him).effect_open hc heffect
          (hdenied _ ((hp task hmem im him).isDenied hc))
      exact ⟨heffect.consistent, hg.setTask fun im him =>
        hg task (mem_of_getElem? htask) im him⟩
    · cases hr
  | close t fd =>
    obtain ⟨task, htask, hr⟩ := Option.bind_eq_some_iff.mp h
    simp only [orderly, htask, Option.all_some] at ho
    split at hr
    · split at hr
      · next h₀ hfd =>
        rw [hfd] at ho
        exact closeFd_protected hc hp
          (fun im him => ⟨task, mem_of_getElem? htask, him⟩) ho hr
      · cases hr
        exact ⟨hc, hp⟩
    · cases hr
  | exit t =>
    obtain ⟨task, htask, hr⟩ := Option.bind_eq_some_iff.mp h
    split at hr
    · cases hr
      exact ⟨hc, GuardedIn.setTask hp nofun⟩
    · cases hr
  | closeNext t =>
    obtain ⟨task, htask, hr⟩ := Option.bind_eq_some_iff.mp h
    simp only [orderly, htask, Option.all_some] at ho
    split at hr
    · next fd hphase =>
      simp only [hphase] at ho
      split at hr
      · split at hr
        · next h₀ hfile =>
          rw [hfile] at ho
          exact closeFd_protected hc hp (fun im him => by cases him) ho hr
        · cases hr
          exact ⟨hc, GuardedIn.setTask hp nofun⟩
      · cases hr
        exact ⟨hc, GuardedIn.setTask hp nofun⟩
    · cases hr

end

end Steps

/-- **Running executables.** In every run from a consistent file system and running programs that
are guarded: if every `load` finds its file protected and its segments in the file, and no process
closes the last handle that protects a running program, then in the state reached the executable of
every running process is open, may not be written, and has the sectors of the supplemental table
with the bytes that they had when it was loaded. -/
theorem executable_protected {s₀ s : State} {es : List Event} (hc : s₀.fs.Consistent)
    (hp : s₀.Protected)
    (hrun : Runs (fun s e s' => s.step e = some s') (fun s e => s.orderly e = true) s₀ es s) :
    s.Protected := by
  have hinv : s.fs.Consistent ∧ s.Protected := by
    refine @Runs.invariant _ _ _ _ _ _ _ (fun s => s.fs.Consistent ∧ s.Protected) ?_ hrun ⟨hc, hp⟩
    rintro s e s' ⟨hc, hp⟩ ho hstep
    exact step_protected hc hp ho hstep
  exact hinv.2

/-! ## Runs of one program -/

/-- The initial thread alone. -/
def booted (fs : Filesys) : State := ⟨fs, [⟨Filesys.nameA, .kernel, fun _ => none, none⟩]⟩

theorem booted_protected (fs : Filesys) : (booted fs).Protected := by
  intro task hmem im him
  cases mem_singleton.mp hmem
  cases him

theorem booted_consistent {fs : Filesys} (h : fs.Consistent) : (booted fs).fs.Consistent := h

/-- The file `a` is created. -/
def createdA : List FsOp := [.create Filesys.nameA 600]

theorem history_createdA : Filesys.History Filesys.smallDisk createdA
    (createdA.foldl (after Filesys.step) Filesys.formatted) :=
  ⟨formatted, formatted_eq,
    runs_of_allows (fun _ _ => true) (fun _ _ _ => trivial) (by decide +kernel)⟩

def startA : State := booted (createdA.foldl (after Filesys.step) Filesys.formatted)

theorem startA_consistent : startA.fs.Consistent :=
  booted_consistent (history_createdA.consistent (by decide))

/-- One sector of code. -/
def codeOfA : List Phdr := [⟨.load, 0, 0x8048000, 512, 512, false⟩]

/-- `a` is started, its file protected, and then loaded. -/
def protectThenLoad : List Event := [.exec 0 Filesys.nameA, .protect 0, .load 1 codeOfA]

theorem executable_protected_afterLoad :
    (protectThenLoad.foldl (after step) startA).Protected ∧
      ((protectThenLoad.foldl (after step) startA).tasks.any fun task => task.image.isSome) =
        true := by
  refine ⟨?_, by decide +kernel⟩
  have hrun : Runs (fun s e s' => step s e = some s') (fun s e => orderly s e = true) startA
      protectThenLoad (protectThenLoad.foldl (after step) startA) :=
    runs_of_allows orderly (fun _ _ h => h) (by decide +kernel)
  exact executable_protected startA_consistent (booted_protected _) hrun

/-- A running program whose file may be written. -/
def exposed (s : State) : Bool :=
  s.tasks.any fun task => task.image.any fun im =>
    (s.fs.openInodes im.inode).all fun ip => ip.denyWriteCnt = 0

theorem not_protected_of_exposed {s : State} (h : s.exposed = true) : ¬ s.Protected := by
  intro hp
  obtain ⟨task, hmem, hany⟩ := any_eq_true.mp h
  obtain ⟨im, him, hall⟩ := (Option.any_eq_true _ _).mp hany
  obtain ⟨ip, hip, hpos⟩ := (hp task hmem im him).denied
  rw [hip] at hall
  have hzero : ip.denyWriteCnt = 0 := of_decide_eq_true hall
  omega

/-- A running program one of whose sectors does not hold the byte it had. -/
def overwritten (s : State) : Bool :=
  s.tasks.any fun task => task.image.any fun im =>
    (lookupSupPage im.supdir 0x8048000).any fun e =>
      e.location = .file && s.fs.device.data e.sector 0 ≠ im.device.data e.sector 0

/-- The child loads before its parent protects the file. -/
def loadFirst : List Event := [.exec 0 Filesys.nameA, .load 1 codeOfA]

/-- The program closes descriptor 2, opens its own file and writes a byte. -/
def closeAndWrite : List Event :=
  protectThenLoad ++ [.close 1 2, .call 1 (fun _ => 1) (.openFile .all Filesys.nameA),
    .call 1 (fun _ => 1) (.write 2 0 1)]

theorem executable_exposed :
    Runs (fun s e s' => step s e = some s') (fun _ _ => True) startA loadFirst
        (loadFirst.foldl (after step) startA) ∧
      ¬ (loadFirst.foldl (after step) startA).Protected ∧
    Runs (fun s e s' => step s e = some s') (fun _ _ => True) startA closeAndWrite
        (closeAndWrite.foldl (after step) startA) ∧
      ¬ (closeAndWrite.foldl (after step) startA).Protected ∧
      (closeAndWrite.foldl (after step) startA).overwritten = true :=
  ⟨runs_of_allows (fun _ _ => true) (fun _ _ _ => trivial) (by decide +kernel),
    not_protected_of_exposed (by decide +kernel),
    runs_of_allows (fun _ _ => true) (fun _ _ _ => trivial) (by decide +kernel),
    not_protected_of_exposed (by decide +kernel), by decide +kernel⟩

end State

end Pintos.Running
