import Pintos.Filesys.FileOps
import Pintos.Lib.Runs

/-!
# Denying writes

The calls of `file.c` on any number of handles, and those of `inode.c` that give references to inodes
and take them back, where each allocation may fail. A reference to an inode that is not part of an open
file belongs to the caller: `file_open` takes it over, also when it fails, and `inode_close` gives it
back.
-/

namespace Pintos

open Lib Function List Option

namespace Filesys

/-! ## Calls that may lack memory -/

/-- `file_reopen`. -/
def fileReopenWith (fs : Filesys) (alloc : Bool) (h : Nat) : Option (Option Nat × Filesys) := do
  let file ← fs.file h
  let fs ← fs.inodeReopen file.inode
  fs.fileOpenWith alloc file.inode

/-- `file_write`; `malloc` tells whether there is memory for a bounce buffer. -/
def fileWriteWith (fs : Filesys) (malloc : Bool) (h : Nat) (m : Mem) (buffer : Nat) (size : Int) :
    Option (Nat × Filesys) := do
  let file ← fs.file h
  let (n, fs) ← fs.inodeWriteAt malloc file.inode m buffer size file.pos
  return (n, { fs with files := fs.files.set h (some { file with pos := file.pos + n }) })

end Filesys

/-- The file system with the number of references to each inode that are not those of open files. -/
structure RefState where
  fs : Filesys
  refs : Nat → Nat

/-- The calls. -/
inductive RefOp
  | inodeOpen (alloc : Bool) (sector : Nat)
  | inodeClose (inode : Nat)
  | inodeRemove (inode : Nat)
  | fileOpen (alloc : Bool) (inode : Nat)
  | fileReopen (alloc : Bool) (h : Nat)
  | fileDenyWrite (h : Nat)
  | fileAllowWrite (h : Nat)
  | fileClose (h : Nat)
  | fileWrite (malloc : Bool) (h : Nat) (m : Mem) (buffer : Nat) (size : Int)

namespace RefState

/-- A call is on a reference of the caller or on an open file. -/
def Allows (s : RefState) : RefOp → Prop
  | .inodeOpen .. => True
  | .inodeClose inode | .fileOpen _ inode => 0 < s.refs inode
  | .inodeRemove inode => (s.fs.openInodes inode).isSome = true
  | .fileReopen _ h | .fileDenyWrite h | .fileAllowWrite h | .fileClose h | .fileWrite _ h _ _ _ =>
    (s.fs.file h).isSome = true

instance (s : RefState) : DecidablePred s.Allows
  | .inodeOpen .. => .isTrue trivial
  | .inodeClose inode | .fileOpen _ inode => Nat.decLt 0 (s.refs inode)
  | .inodeRemove inode => instDecidableEqBool (s.fs.openInodes inode).isSome true
  | .fileReopen _ h | .fileDenyWrite h | .fileAllowWrite h | .fileClose h | .fileWrite _ h _ _ _ =>
    instDecidableEqBool (s.fs.file h).isSome true

/-- One call. -/
def call (s : RefState) : RefOp → Option RefState
  | .inodeOpen alloc sector => do
      let (opened, fs) ← s.fs.inodeOpenWith alloc sector
      return ⟨fs, if opened then update s.refs sector (s.refs sector + 1) else s.refs⟩
  | .inodeClose inode => do
      let fs ← s.fs.inodeClose inode
      return ⟨fs, update s.refs inode (s.refs inode - 1)⟩
  | .inodeRemove inode => do
      let fs ← s.fs.inodeRemove inode
      return { s with fs }
  | .fileOpen alloc inode => do
      let (_, fs) ← s.fs.fileOpenWith alloc inode
      return ⟨fs, update s.refs inode (s.refs inode - 1)⟩
  | .fileReopen alloc h => do
      let (_, fs) ← s.fs.fileReopenWith alloc h
      return { s with fs }
  | .fileDenyWrite h => do
      let fs ← s.fs.fileDenyWrite h
      return { s with fs }
  | .fileAllowWrite h => do
      let fs ← s.fs.fileAllowWrite h
      return { s with fs }
  | .fileClose h => do
      let fs ← s.fs.fileClose h
      return { s with fs }
  | .fileWrite malloc h m buffer size => do
      let (_, fs) ← s.fs.fileWriteWith malloc h m buffer size
      return { s with fs }

end RefState

namespace Filesys

/-! ## The counts -/

/-- The counts of an inode, which is closed if nobody has a reference to it. -/
def Agrees (handles denials refs : Nat) : Option OpenInode → Prop
  | some ip => ip.openCnt = handles + refs ∧ 0 < ip.openCnt ∧ ip.denyWriteCnt = denials
  | none => handles + refs = 0

def Counted (fs : Filesys) (refs : Nat → Nat) : Prop :=
  ∀ k, Agrees (fs.handles k) (fs.denials k) (refs k) (fs.openInodes k)

variable {fs fs' fs₁ : Filesys} {refs : Nat → Nat} {k h n : Nat} {file : File} {ip : OpenInode}

theorem Counted.change (hc : fs.Counted refs) {ip? : Option OpenInode}
    (hopen : fs'.openInodes = update fs.openInodes k ip?)
    (hother : fs.SameElsewhere fs'.files k) (hk : Agrees (fs'.handles k) (fs'.denials k) n ip?) :
    fs'.Counted (update refs k n) := by
  intro j
  rw [hopen]
  by_cases hj : j = k
  · subst hj
    rw [update_self, update_self]
    exact hk
  · rw [update_of_ne hj, update_of_ne hj]
    obtain ⟨hon, hden⟩ := hother j hj
    have hcount := hc j
    unfold handles denials at hcount ⊢
    rw [hon, hden]
    exact hcount

theorem Counted.change_open (hc : fs.Counted refs) {ip? : Option OpenInode}
    (hopen : fs'.openInodes = update fs.openInodes k ip?)
    (hother : fs.SameElsewhere fs'.files k)
    (hk : Agrees (fs'.handles k) (fs'.denials k) (refs k) ip?) : fs'.Counted refs := by
  have hchange := hc.change hopen hother hk
  rw [update_eq_self] at hchange
  exact hchange

theorem Counted.congr (hc : fs.Counted refs) (hopen : fs'.openInodes = fs.openInodes)
    (hfiles : fs'.files = fs.files) : fs'.Counted refs := by
  intro j
  have hcount := hc j
  unfold handles denials at hcount ⊢
  rw [hopen, hfiles]
  exact hcount

theorem sameElsewhere_refl (fs : Filesys) (k : Nat) : fs.SameElsewhere fs.files k :=
  fun _ _ => ⟨rfl, rfl⟩

theorem Counted.inode (hc : fs.Counted refs) (hfile : fs.file h = some file) :
    ∃ ip, fs.openInodes file.inode = some ip := by
  have hpos : 0 < fs.handles file.inode :=
    countP_pos_iff.mpr
      ⟨_, mem_of_getElem? (file_eq_some.mp hfile), decide_eq_true rfl⟩
  have hcount := hc file.inode
  cases hip : fs.openInodes file.inode with
  | some ip => exact ⟨ip, rfl⟩
  | none =>
    rw [hip] at hcount
    have hcount : fs.handles file.inode + refs file.inode = 0 := hcount
    omega

theorem Counted.inode_of_ref (hc : fs.Counted refs) (href : 0 < refs k) :
    ∃ ip, fs.openInodes k = some ip := by
  have hcount := hc k
  cases hip : fs.openInodes k with
  | some ip => exact ⟨ip, rfl⟩
  | none =>
    rw [hip] at hcount
    have hcount : fs.handles k + refs k = 0 := hcount
    omega

theorem Counted.agrees (hc : fs.Counted refs) (hip : fs.openInodes k = some ip) :
    ip.openCnt = fs.handles k + refs k ∧ 0 < ip.openCnt ∧ ip.denyWriteCnt = fs.denials k := by
  have hcount := hc k
  rw [hip] at hcount
  exact hcount

/-! ## What the calls do to inodes and files -/

theorem inodeWriteAt_memory {malloc : Bool} {m : Mem} {buffer offset : Nat} {size : Int}
    (h : fs.inodeWriteAt malloc k m buffer size offset = some (n, fs')) :
    fs'.openInodes = fs.openInodes ∧ fs'.files = fs.files := by
  unfold inodeWriteAt at h
  simp only [bind_eq_bind, bind_eq_some_iff] at h
  obtain ⟨ip, -, h⟩ := h
  split at h
  · cases h
    exact ⟨rfl, rfl⟩
  · simp only [bind_eq_some_iff] at h
    obtain ⟨⟨n', d⟩, -, h⟩ := h
    cases h
    exact ⟨rfl, rfl⟩

theorem freeMapRelease_memory {sector cnt : Nat} (h : fs.freeMapRelease sector cnt = some fs') :
    fs'.openInodes = fs.openInodes ∧ fs'.files = fs.files := by
  unfold freeMapRelease freeMapReleaseWith at h
  split at h
  · simp only [bind_eq_bind, bind_eq_some_iff] at h
    obtain ⟨file, -, ⟨written, fs₁⟩, hwrite, h⟩ := h
    cases h
    unfold bitmapWriteWith at hwrite
    simp only [bind_eq_bind, bind_eq_some_iff] at hwrite
    obtain ⟨⟨n, fs₂⟩, hwrite, heq⟩ := hwrite
    cases heq
    obtain ⟨hopen, hfiles⟩ := inodeWriteAt_memory hwrite
    exact ⟨hopen, hfiles⟩
  · cases h

/-- An inode with one reference less. -/
def lessOpen (ip : OpenInode) : Option OpenInode :=
  if ip.openCnt = 1 then none else some { ip with openCnt := ip.openCnt - 1 }

theorem inodeClose_memory (h : fs.inodeClose k = some fs') :
    ∃ ip, fs.openInodes k = some ip ∧
      fs'.openInodes = update fs.openInodes k (lessOpen ip) ∧ fs'.files = fs.files := by
  unfold inodeClose inodeCloseWith at h
  simp only [bind_eq_bind, bind_eq_some_iff] at h
  obtain ⟨ip, hip, h⟩ := h
  refine ⟨ip, hip, ?_⟩
  unfold lessOpen
  split at h
  · rename_i hlast
    rw [if_pos hlast]
    split at h
    · simp only [bind_eq_some_iff] at h
      obtain ⟨fs₁, h₁, h₂⟩ := h
      obtain ⟨hopen₁, hfiles₁⟩ := freeMapRelease_memory h₁
      obtain ⟨hopen₂, hfiles₂⟩ := freeMapRelease_memory h₂
      exact ⟨hopen₂.trans hopen₁, hfiles₂.trans hfiles₁⟩
    · cases h
      exact ⟨rfl, rfl⟩
  · rename_i hmore
    rw [if_neg hmore]
    cases h
    exact ⟨rfl, rfl⟩

theorem Agrees.lessOpen {handles handles' denials refs refs' : Nat}
    (hip : Agrees handles denials refs (some ip)) (hless : handles' + refs' + 1 = handles + refs) :
    Agrees handles' denials refs' (Filesys.lessOpen ip) := by
  obtain ⟨hcnt, hpos, hden⟩ := hip
  unfold Filesys.lessOpen
  split
  · show handles' + refs' = 0
    omega
  · refine ⟨?_, ?_, hden⟩
    · show ip.openCnt - 1 = _
      omega
    · show 0 < ip.openCnt - 1
      omega

theorem Agrees.moreOpen {handles denials refs : Nat} (hip : Agrees handles denials refs (some ip)) :
    Agrees handles denials (refs + 1) (some { ip with openCnt := ip.openCnt + 1 }) := by
  obtain ⟨hcnt, -, hden⟩ := hip
  refine ⟨?_, Nat.succ_pos _, hden⟩
  show ip.openCnt + 1 = _
  omega

/-! ## The calls keep the counts -/

theorem denials_eq_zero (h : fs.handles k = 0) : fs.denials k = 0 :=
  Nat.le_zero.mp (h ▸ fs.denials_le_handles k)

section

variable (hc : fs.Counted refs)
include hc

theorem Counted.inodeOpen (hopen : fs.inodeOpen k = some fs') :
    fs'.Counted (update refs k (refs k + 1)) := by
  have hcount := hc k
  unfold Filesys.inodeOpen at hopen
  split at hopen
  · rename_i ip hip
    rw [hip] at hcount
    cases hopen
    exact hc.change rfl (fs.sameElsewhere_refl k) hcount.moreOpen
  · rename_i hip
    rw [hip] at hcount
    have hzero : fs.handles k + refs k = 0 := hcount
    simp only [bind_eq_bind, bind_eq_some_iff] at hopen
    obtain ⟨m, -, hopen⟩ := hopen
    cases hopen
    refine hc.change rfl (fs.sameElsewhere_refl k) ⟨?_, Nat.one_pos, ?_⟩
    · show 1 = fs.handles k + (refs k + 1)
      omega
    · exact (denials_eq_zero (by omega : fs.handles k = 0)).symm

theorem Counted.inodeReopen (hopen : fs.inodeReopen k = some fs') :
    fs'.Counted (update refs k (refs k + 1)) := by
  unfold Filesys.inodeReopen at hopen
  simp only [bind_eq_bind, bind_eq_some_iff] at hopen
  obtain ⟨ip, hip, hopen⟩ := hopen
  cases hopen
  have hcount := hc k
  rw [hip] at hcount
  exact hc.change rfl (fs.sameElsewhere_refl k) hcount.moreOpen

theorem Counted.inodeClose (href : 0 < refs k) (hclose : fs.inodeClose k = some fs') :
    fs'.Counted (update refs k (refs k - 1)) := by
  obtain ⟨ip, hip, hopen, hfiles⟩ := inodeClose_memory hclose
  have hcount := hc k
  rw [hip] at hcount
  refine hc.change hopen (hfiles ▸ fs.sameElsewhere_refl k) ?_
  unfold handles denials at hcount ⊢
  rw [hfiles]
  exact hcount.lessOpen (by omega)

theorem Counted.fileOpen (href : 0 < refs k) :
    (fs.fileOpen k).2.Counted (update refs k (refs k - 1)) := by
  obtain ⟨ip, hip⟩ := hc.inode_of_ref href
  obtain ⟨hcnt, hpos, hden⟩ := hc.agrees hip
  have hother : fs.SameElsewhere (fs.files ++ [some ⟨k, 0, false⟩]) k := by
    intro j hj
    simp [handles, denials, countP_append, File.on, File.denies, hj.symm]
  have hopen : (fs.fileOpen k).2.openInodes = update fs.openInodes k (some ip) := by
    rw [← hip, update_eq_self]
    rfl
  refine hc.change hopen hother ⟨?_, hpos, ?_⟩
  · have hmore : (fs.fileOpen k).2.handles k = fs.handles k + 1 := by
      simp [Filesys.fileOpen, handles, countP_append, File.on]
    omega
  · rw [hden]
    simp [Filesys.fileOpen, denials, countP_append, File.denies]

theorem Counted.fileOpenWith {alloc : Bool} {h? : Option Nat} (href : 0 < refs k)
    (hopen : fs.fileOpenWith alloc k = some (h?, fs')) :
    fs'.Counted (update refs k (refs k - 1)) := by
  cases alloc with
  | true =>
    cases hopen
    exact hc.fileOpen href
  | false =>
    simp only [Filesys.fileOpenWith, Bool.false_eq_true, if_false, bind_eq_bind,
      bind_eq_some_iff] at hopen
    obtain ⟨fs₁, hclose, heq⟩ := hopen
    cases heq
    exact hc.inodeClose href hclose

theorem Counted.fileReopenWith {alloc : Bool} {h? : Option Nat}
    (hopen : fs.fileReopenWith alloc h = some (h?, fs')) : fs'.Counted refs := by
  simp only [Filesys.fileReopenWith, bind_eq_bind, bind_eq_some_iff] at hopen
  obtain ⟨file, -, fs₁, hreopen, hopen⟩ := hopen
  have hcount := (hc.inodeReopen hreopen).fileOpenWith (by rw [update_self]; omega) hopen
  rw [update_self, update_idem, Nat.add_sub_cancel, update_eq_self]
    at hcount
  exact hcount

theorem Counted.changeFile (hfile : fs.file h = some file)
    (hip : fs.openInodes file.inode = some ip) (file' : File) (hinode : file'.inode = file.inode)
    (hn : n + (if file.denyWrite then 1 else 0) =
      ip.denyWriteCnt + if file'.denyWrite then 1 else 0) :
    Counted { fs.setInode file.inode (some { ip with denyWriteCnt := n }) with
      files := fs.files.set h (some file') } refs := by
  have hf := file_eq_some.mp hfile
  obtain ⟨hcnt, hpos, hden⟩ := hc.agrees hip
  have hdenials := denials_set hf file' hinode
  have hhandles := handles_set hf file' hinode
  refine hc.change_open rfl (sameElsewhere_set hf fun g hg => by cases hg; exact hinode) ⟨?_, hpos, ?_⟩
  · rw [hcnt, ← hhandles]
    rfl
  · show n = (fs.files.set h (some file')).countP (File.denies file.inode)
    omega

theorem Counted.denyWriteCnt_pos (hfile : fs.file h = some file)
    (hip : fs.openInodes file.inode = some ip) (hdeny : file.denyWrite = true) :
    0 < ip.denyWriteCnt := by
  rw [(hc.agrees hip).2.2]
  refine countP_pos_iff.mpr ⟨_, mem_of_getElem? (file_eq_some.mp hfile), ?_⟩
  show (decide (file.inode = file.inode) && file.denyWrite) = true
  rw [hdeny, decide_eq_true rfl, Bool.true_and]

theorem Counted.denyWriteCnt_le (hip : fs.openInodes k = some ip) :
    ip.denyWriteCnt ≤ ip.openCnt := by
  obtain ⟨hcnt, -, hden⟩ := hc.agrees hip
  have hle := fs.denials_le_handles k
  omega

section

variable (hfile : fs.file h = some file)
include hfile

theorem Counted.denyWriteCnt_lt (hip : fs.openInodes file.inode = some ip)
    (hdeny : file.denyWrite = false) : ip.denyWriteCnt + 1 ≤ ip.openCnt := by
  obtain ⟨hcnt, -, hden⟩ := hc.agrees hip
  obtain ⟨hon, hdenials⟩ := handles_close (file_eq_some.mp hfile) hdeny
  have hle := denials_le_handles { fs with files := fs.files.set h none } file.inode
  unfold denials handles at hle
  unfold denials handles at *
  simp only at hle
  omega

theorem Counted.fileDenyWrite : ∃ fs', fs.fileDenyWrite h = some fs' ∧ fs'.Counted refs := by
  obtain ⟨ip, hip⟩ := hc.inode hfile
  cases hdeny : file.denyWrite with
  | true => exact ⟨fs, by simp [Filesys.fileDenyWrite, hfile, hdeny], hc⟩
  | false =>
    have hle := hc.denyWriteCnt_lt hfile hip hdeny
    have hcall : fs.inodeDenyWrite file.inode =
        some (fs.setInode file.inode (some { ip with denyWriteCnt := ip.denyWriteCnt + 1 })) := by
      unfold Filesys.inodeDenyWrite
      rw [hip]
      exact if_pos hle
    refine ⟨_, ?_, hc.changeFile hfile hip { file with denyWrite := true } rfl
      (by simp [hdeny] : ip.denyWriteCnt + 1 + _ = _)⟩
    simp [Filesys.fileDenyWrite, hfile, hdeny, hcall]

theorem Counted.fileAllowWrite :
    ∃ fs', fs.fileAllowWrite h = some fs' ∧ fs'.Counted refs ∧
      fs'.file h = some { file with denyWrite := false } := by
  obtain ⟨ip, hip⟩ := hc.inode hfile
  cases hdeny : file.denyWrite with
  | false =>
    refine ⟨fs, by simp [Filesys.fileAllowWrite, hfile, hdeny], hc, ?_⟩
    rw [hfile, ← hdeny]
  | true =>
    have hpos := hc.denyWriteCnt_pos hfile hip hdeny
    have hle := hc.denyWriteCnt_le hip
    have hn : ip.denyWriteCnt - 1 + (if file.denyWrite then 1 else 0) =
        ip.denyWriteCnt + if false then 1 else 0 := by
      simp only [hdeny, Bool.false_eq_true, if_false, if_true]
      omega
    refine ⟨_, ?_, hc.changeFile hfile hip { file with denyWrite := false } rfl hn, ?_⟩
    · simp [Filesys.fileAllowWrite, hfile, hdeny, inodeAllowWrite, hip, hpos, hle]
    · exact file_eq_some.mpr (List.getElem?_set_self
        (List.getElem?_eq_some_iff.mp (file_eq_some.mp hfile)).choose)

theorem Counted.fileClose (hclose : fs.fileClose h = some fs') : fs'.Counted refs := by
  obtain ⟨fs₁, hallow, hc₁, hfile₁⟩ := hc.fileAllowWrite hfile
  simp only [Filesys.fileClose, hfile, hallow, bind_eq_bind, bind_some, bind_eq_some_iff] at hclose
  obtain ⟨fs₂, hclose, heq⟩ := hclose
  cases heq
  obtain ⟨ip, hip, hopen, hfiles⟩ := inodeClose_memory hclose
  have hf := file_eq_some.mp hfile₁
  obtain ⟨hon, hden⟩ := handles_close hf rfl
  have hcount := hc₁ file.inode
  rw [hip] at hcount
  refine hc₁.change_open hopen (hfiles ▸ sameElsewhere_set hf (by simp)) ?_
  unfold handles denials at *
  simp only [hfiles] at hon hden ⊢
  rw [hden]
  exact hcount.lessOpen (by omega)

theorem Counted.fileWriteWith {malloc : Bool} {m : Mem} {buffer : Nat} {size : Int}
    (hwrite : fs.fileWriteWith malloc h m buffer size = some (n, fs')) : fs'.Counted refs := by
  obtain ⟨ip, hip⟩ := hc.inode hfile
  simp only [Filesys.fileWriteWith, hfile, bind_eq_bind, bind_some, bind_eq_some_iff] at hwrite
  obtain ⟨⟨n', fs₁⟩, hwrite, heq⟩ := hwrite
  cases heq
  obtain ⟨hopen, hfiles⟩ := inodeWriteAt_memory hwrite
  refine (hc.changeFile hfile hip { file with pos := file.pos + n' } rfl
    (rfl : ip.denyWriteCnt + _ = _)).congr ?_ (by rw [hfiles])
  show fs₁.openInodes = update fs.openInodes file.inode (some ip)
  rw [hopen, ← hip, update_eq_self]

theorem Counted.fileWrite_denied {h' : Nat} {file' : File} (hfile' : fs.file h' = some file')
    (hsame : file'.inode = file.inode) (hdeny : file'.denyWrite = true) (malloc : Bool) (m : Mem)
    (buffer : Nat) (size : Int) :
    ∃ fs', fs.fileWriteWith malloc h m buffer size = some (0, fs') ∧ fs'.device = fs.device := by
  obtain ⟨ip, hip⟩ := hc.inode hfile'
  have hpos := hc.denyWriteCnt_pos hfile' hip hdeny
  rw [hsame] at hip
  refine ⟨{ fs with files := fs.files.set h (some { file with pos := file.pos + 0 }) }, ?_, rfl⟩
  simp [Filesys.fileWriteWith, inodeWriteAt, hfile, hip, Nat.ne_of_gt hpos]

end

end

end Filesys

namespace RefState

open Filesys

variable {s s' : RefState} {op : RefOp}

theorem call_keeps (hc : s.fs.Counted s.refs) (hok : s.Allows op) (hcall : s.call op = some s') :
    s'.fs.Counted s'.refs := by
  cases op with
  | inodeOpen alloc sector =>
    simp only [call, inodeOpenWith, bind_eq_bind, bind_eq_some_iff] at hcall
    obtain ⟨⟨opened, fs⟩, hopen, heq⟩ := hcall
    cases heq
    split at hopen
    · simp only [bind_eq_some_iff] at hopen
      obtain ⟨fs₁, hopen, heq⟩ := hopen
      cases heq
      exact hc.inodeOpen hopen
    · cases hopen
      exact hc
  | inodeClose inode =>
    simp only [call, bind_eq_bind, bind_eq_some_iff] at hcall
    obtain ⟨fs, hclose, heq⟩ := hcall
    cases heq
    exact hc.inodeClose hok hclose
  | inodeRemove inode =>
    simp only [call, inodeRemove, bind_eq_bind, bind_eq_some_iff] at hcall
    obtain ⟨fs, ⟨ip, hip, hfs⟩, heq⟩ := hcall
    cases hfs
    cases heq
    have hcount := hc.agrees hip
    exact hc.change_open rfl (sameElsewhere_refl s.fs inode) hcount
  | fileOpen alloc inode =>
    simp only [call, bind_eq_bind, bind_eq_some_iff] at hcall
    obtain ⟨⟨h?, fs⟩, hopen, heq⟩ := hcall
    cases heq
    exact hc.fileOpenWith hok hopen
  | fileReopen alloc h =>
    simp only [call, bind_eq_bind, bind_eq_some_iff] at hcall
    obtain ⟨⟨h?, fs⟩, hopen, heq⟩ := hcall
    cases heq
    exact hc.fileReopenWith hopen
  | fileDenyWrite h =>
    obtain ⟨file, hfile⟩ := isSome_iff_exists.mp hok
    obtain ⟨fs, hdeny, hc'⟩ := hc.fileDenyWrite hfile
    simp only [call, hdeny, bind_eq_bind, bind_some] at hcall
    cases hcall
    exact hc'
  | fileAllowWrite h =>
    obtain ⟨file, hfile⟩ := isSome_iff_exists.mp hok
    obtain ⟨fs, hallow, hc', -⟩ := hc.fileAllowWrite hfile
    simp only [call, hallow, bind_eq_bind, bind_some] at hcall
    cases hcall
    exact hc'
  | fileClose h =>
    obtain ⟨file, hfile⟩ := isSome_iff_exists.mp hok
    simp only [call, bind_eq_bind, bind_eq_some_iff] at hcall
    obtain ⟨fs, hclose, heq⟩ := hcall
    cases heq
    exact hc.fileClose hfile hclose
  | fileWrite malloc h m buffer size =>
    obtain ⟨file, hfile⟩ := isSome_iff_exists.mp hok
    simp only [call, bind_eq_bind, bind_eq_some_iff] at hcall
    obtain ⟨⟨n, fs⟩, hwrite, heq⟩ := hcall
    cases heq
    exact hc.fileWriteWith hfile hwrite

/-- The references before any file is open. -/
def start (fs : Filesys) : RefState := ⟨fs, fun k => (fs.openInodes k).elim 0 OpenInode.openCnt⟩

theorem start_counted {fs : Filesys} (hfiles : fs.files = [])
    (hopen : ∀ k ip, fs.openInodes k = some ip → 0 < ip.openCnt ∧ ip.denyWriteCnt = 0) :
    (start fs).fs.Counted (start fs).refs := by
  intro k
  show Agrees (fs.handles k) (fs.denials k) ((fs.openInodes k).elim 0 OpenInode.openCnt) _
  unfold handles denials
  rw [hfiles]
  cases hip : fs.openInodes k with
  | none =>
    show Agrees 0 0 0 (fs.openInodes k)
    rw [hip]
    rfl
  | some ip =>
    obtain ⟨hpos, hdeny⟩ := hopen k ip hip
    show Agrees 0 0 ip.openCnt (fs.openInodes k)
    rw [hip]
    exact ⟨(Nat.zero_add _).symm, hpos, hdeny⟩

/-- The runs of the calls. -/
abbrev Calls : RefState → List RefOp → RefState → Prop :=
  Runs (fun s op s' => s.call op = some s') Allows

end RefState

/-- **Denials are counted.** After any calls on any handles the count of denials of an inode is that of
its open files that deny writes, and not more than its references. The assertions on the counts hold, in
`file_close` too, and a write to an inode that an open file denies writes to returns 0 and leaves the
disk as it is. -/
theorem denial_counted {fs : Filesys} (hfiles : fs.files = [])
    (hopen : ∀ k ip, fs.openInodes k = some ip → 0 < ip.openCnt ∧ ip.denyWriteCnt = 0)
    {ops : List RefOp} {s : RefState} (hcalls : (RefState.start fs).Calls ops s) :
    (∀ k ip, s.fs.openInodes k = some ip →
      ip.denyWriteCnt = s.fs.denials k ∧ ip.denyWriteCnt ≤ ip.openCnt) ∧
    (∀ h file, s.fs.file h = some file → (s.fs.openInodes file.inode).isSome = true ∧
      (s.fs.fileDenyWrite h).isSome = true ∧ (s.fs.fileAllowWrite h).isSome = true) ∧
    ∀ h h' file file', s.fs.file h = some file → s.fs.file h' = some file' →
      file'.inode = file.inode → file'.denyWrite = true → ∀ malloc m buffer size,
        ∃ fs', s.fs.fileWriteWith malloc h m buffer size = some (0, fs') ∧
          fs'.device = s.fs.device := by
  have hc : s.fs.Counted s.refs := by
    refine Runs.invariant (I := fun s => s.fs.Counted s.refs) ?_ hcalls
      (RefState.start_counted hfiles hopen)
    intro s op s' hc hok hcall
    exact RefState.call_keeps hc hok hcall
  refine ⟨fun k ip hip => ⟨(hc.agrees hip).2.2, hc.denyWriteCnt_le hip⟩, fun h file hfile => ?_,
    fun h h' file file' hfile hfile' hsame hdeny => hc.fileWrite_denied hfile hfile' hsame hdeny⟩
  obtain ⟨ip, hip⟩ := hc.inode hfile
  obtain ⟨fs₁, hdeny, -⟩ := hc.fileDenyWrite hfile
  obtain ⟨fs₂, hallow, -⟩ := hc.fileAllowWrite hfile
  exact ⟨isSome_iff_exists.mpr ⟨ip, hip⟩, isSome_iff_exists.mpr ⟨fs₁, hdeny⟩,
    isSome_iff_exists.mpr ⟨fs₂, hallow⟩⟩

/-- The second of two handles denies writes, and the first cannot write any more. -/
theorem denial_counted_second : ∃ s, (RefState.start zeroDisk).Calls
      [.fileOpen true 2, .fileReopen true 0, .fileDenyWrite 1] s ∧ s.fs.denials 2 = 1 ∧
    ∃ fs', s.fs.fileWriteWith true 0 (fun _ => 7) 0 10 = some (0, fs') ∧
      fs'.device = s.fs.device := by
  have hcalls : (RefState.start zeroDisk).Calls
      [.fileOpen true 2, .fileReopen true 0, .fileDenyWrite 1] _ :=
    runs_of_allows (fun s op => decide (s.Allows op)) (fun _ _ h => of_decide_eq_true h) rfl
  have hopen : ∀ k ip, zeroDisk.openInodes k = some ip → 0 < ip.openCnt ∧ ip.denyWriteCnt = 0 := by
    intro k ip hip
    simp only [zeroDisk] at hip
    split at hip
    · cases hip
      decide
    · cases hip
  obtain ⟨-, -, hdenied⟩ := denial_counted rfl hopen hcalls
  exact ⟨_, hcalls, rfl, hdenied 0 1 ⟨2, 0, false⟩ ⟨2, 0, true⟩ rfl rfl rfl rfl true _ 0 10⟩

end Pintos
