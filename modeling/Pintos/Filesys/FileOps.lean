import Pintos.Filesys.Consistent

/-!
# The operations on open files

Each operation of `file.c` on an open file keeps the file system consistent and does not panic.
-/

namespace Pintos

open Lib File Permits

namespace Filesys

variable {fs fs' : Filesys} {h : Nat} {file : File} {ip : OpenInode}

variable {closes : Nat → Prop}

/-! ## Effects -/

theorem SameFiles.of_eq (h : fs'.files = fs.files) : fs.SameFiles fs' closes := by
  intro i f hf _
  rw [file_eq_some, ← h, ← file_eq_some] at hf
  exact ⟨f, hf, rfl, id⟩

theorem SameFiles.trans {fs₁ : Filesys} (h : fs.SameFiles fs₁ closes)
    (h' : fs₁.SameFiles fs' closes) : fs.SameFiles fs' closes := by
  intro i f hf hi
  obtain ⟨f₁, hf₁, hinode, hdeny⟩ := h i f hf hi
  obtain ⟨f', hf', hinode', hdeny'⟩ := h' i f₁ hf₁ hi
  exact ⟨f', hf', hinode'.trans hinode, fun hd => hdeny' (hdeny hd)⟩

theorem SameFiles.of_set {f : Option File} (hset : fs'.files = fs.files.set h f) :
    fs.SameFiles fs' (· = h) := by
  intro i g hg hi
  refine ⟨g, ?_, rfl, id⟩
  rw [file_eq_some] at hg ⊢
  rw [hset, List.getElem?_set_ne fun heq => hi heq.symm]
  exact hg

theorem SameFiles.of_change (hfile : fs.files[h]? = some (some file)) {file' : File}
    (hset : fs'.files = fs.files.set h (some file')) (hinode : file'.inode = file.inode)
    (hdeny : file.denyWrite = true → file'.denyWrite = true) : fs.SameFiles fs' closes := by
  intro i g hg _
  by_cases hi : i = h
  · subst hi
    rw [file_eq_some, hfile] at hg
    cases hg
    refine ⟨file', ?_, hinode, hdeny⟩
    rw [file_eq_some, hset]
    exact List.getElem?_set_self (List.getElem?_eq_some_iff.mp hfile).choose
  · exact SameFiles.of_set hset i g hg hi

theorem Effect.of_memory (hc : fs'.Consistent) (hdevice : fs'.device = fs.device)
    (hmap : fs'.freeMap = fs.freeMap) (hfiles : fs.SameFiles fs' closes)
    (hlive : ∀ j, fs.Live j → fs'.Live j) : fs.Effect fs' (fun _ => False) closes where
  consistent := hc
  inode _ _ := by rw [hdevice]
  data _ _ _ _ _ := by rw [hdevice]
  files := hfiles
  freed hset hclear := by
    rw [hmap, hset] at hclear
    cases hclear
  gone hk hgone := absurd (hlive _ hk) hgone

theorem Keeps.refl (hc : fs.Consistent) : fs.Keeps fs :=
  .of_memory hc rfl rfl (.of_eq rfl) fun _ hj => hj

section

variable {S : Nat → Prop} (hc : fs.Consistent) (hc' : fs'.Consistent)
  (hd : fs.device.SameBut fs'.device S) (hS : ∀ {s}, S s → fs.Scratch s ∨ fs.dataOf rootDirSector s)
  (hfiles : fs.SameFiles fs' closes)
include hc hc' hd hS hfiles

theorem Consistent.effect
    (hfreed : ∀ {s}, bitmapTest fs.freeMap s = true → bitmapTest fs'.freeMap s = false →
      ∃ k, fs.Live k ∧ ¬ fs'.Live k ∧ (s = k ∨ fs.dataOf k s))
    (hgone : ∀ {k s}, fs.Live k → ¬ fs'.Live k → s = k ∨ fs.dataOf k s →
      bitmapTest fs'.freeMap s = false) :
    fs.Effect fs' (fun _ => False) closes where
  consistent := hc'
  inode {k} _ hk := by
    refine hd.inodeAt fun hin => ?_
    rcases hS hin with hin | hin
    · exact hc.mounted.header_kept hk hin
    · exact hc.mounted.notHeader fs.live_root hk hin
  data {k s o} hf hk _ hs ho := by
    refine hd.data (fun hin => ?_) ho
    rcases hS hin with hin | hin
    · exact hc.mounted.data_kept hk hf.1 hs hin
    · exact hc.mounted.data_disjoint hk fs.live_root hf.2 hs hin
  files := hfiles
  freed := hfreed
  gone := hgone

theorem Consistent.effect_freed {k : Nat} (hk : fs.Live k)
    (hlive : ∀ j, fs'.Live j ↔ fs.Live j ∧ j ≠ k) (hbits : ∀ s, bitmapTest fs'.freeMap s = true ↔
      bitmapTest fs.freeMap s = true ∧ s ≠ k ∧ ¬ fs.dataOf k s) :
    fs.Effect fs' (fun _ => False) closes := by
  refine hc.effect hc' hd hS hfiles ?_ ?_
  · intro s hset hclear
    refine ⟨k, hk, fun hin => ((hlive k).mp hin).2 rfl, ?_⟩
    by_contra hout
    rw [not_or] at hout
    rw [(hbits s).mpr ⟨hset, hout⟩] at hclear
    cases hclear
  · intro j s hj hgone hs
    have heq : j = k := by
      by_contra hne
      exact hgone ((hlive j).mpr ⟨hj, hne⟩)
    subst heq
    rw [Bool.eq_false_iff]
    intro hset
    obtain ⟨-, hne, hout⟩ := (hbits s).mp hset
    exact hs.elim hne hout

end

theorem Effect.mono {writes writes' : Nat → Prop} (he : fs.Effect fs' writes closes)
    (hw : ∀ k, writes k → writes' k) : fs.Effect fs' writes' closes :=
  { he with data := fun hk hl hn hs ho => he.data hk hl (fun hin => hn (hw _ hin)) hs ho }

theorem Effect.bytes {writes : Nat → Prop} (hc : fs.Consistent) (he : fs.Effect fs' writes closes)
    {k o : Nat} (hk : IsFile k) (hl : fs.Live k) (hw : ¬ writes k)
    (ho : o < (fs.device.inodeAt k).length) :
    fs'.device.byteFrom (fs.device.inodeAt k).start o =
      fs.device.byteFrom (fs.device.inodeAt k).start o := by
  have hle := sectors_le_bytesToSectors (hc.mounted.laid.length hl)
  unfold Inode.sectors at hle
  exact he.data hk hl hw ⟨by omega, by omega⟩ (Nat.mod_lt o (by omega))

theorem Effect.before {fs₁ : Filesys} {writes : Nat → Prop} (he : fs₁.Effect fs' writes closes)
    (hlive : ∀ j, fs₁.Live j ↔ fs.Live j) (hdevice : fs₁.device = fs.device)
    (hmap : fs₁.freeMap = fs.freeMap) (hfiles : fs.SameFiles fs₁ closes) :
    fs.Effect fs' writes closes where
  consistent := he.consistent
  inode {k} hk hl := by
    rw [← hdevice]
    exact he.inode hk ((hlive k).mpr hl)
  data {k s o} hk hl hw hs ho := by
    unfold dataOf at hs
    rw [← hdevice] at hs ⊢
    exact he.data hk ((hlive k).mpr hl) hw hs ho
  files := hfiles.trans he.files
  freed {s} hset hclear := by
    rw [← hmap] at hset
    obtain ⟨k, hk, hgone, hs⟩ := he.freed hset hclear
    refine ⟨k, (hlive k).mp hk, hgone, ?_⟩
    unfold dataOf at hs ⊢
    rw [← hdevice]
    exact hs
  gone {k s} hk hgone hs := by
    refine he.gone ((hlive k).mpr hk) hgone ?_
    unfold dataOf at hs ⊢
    rw [hdevice]
    exact hs

/-! ## One file changes -/

section

variable (hfile : fs.files[h]? = some (some file))
include hfile

theorem sameElsewhere_set {f : Option File}
    (hf : ∀ file', f = some file' → file'.inode = file.inode) :
    fs.SameElsewhere (fs.files.set h f) file.inode := by
  intro j hj
  have hon : on j f = false := by
    cases f with
    | none => rfl
    | some file' => exact decide_eq_false fun h => hj (h.symm.trans (hf file' rfl))
  have hold : on j (some file) = false := decide_eq_false fun h => hj h.symm
  have hdenies : ∀ {g : Option File}, on j g = false → denies j g = false := by
    intro g hg
    cases g with
    | none => rfl
    | some file' =>
      have hg : decide (file'.inode = j) = false := hg
      show (decide (file'.inode = j) && file'.denyWrite) = false
      rw [hg, Bool.false_and]
  have hcount := countP_set_of_getElem? (on j) hfile f
  have hcount' := countP_set_of_getElem? (denies j) hfile f
  rw [hon, hold] at hcount
  rw [hdenies hon, hdenies hold] at hcount'
  exact ⟨by unfold handles; omega, by unfold denials; omega⟩

theorem handles_set (file' : File) (hinode : file'.inode = file.inode) :
    (fs.files.set h (some file')).countP (File.on file.inode) = fs.handles file.inode := by
  have hon : on file.inode (some file) = true := decide_eq_true rfl
  have hon' : on file.inode (some file') = true := decide_eq_true hinode
  have hcount := countP_set_of_getElem? (on file.inode) hfile (some file')
  rw [hon, hon'] at hcount
  unfold handles
  omega

theorem denials_set (file' : File) (hinode : file'.inode = file.inode) :
    (fs.files.set h (some file')).countP (File.denies file.inode) +
        (if file.denyWrite then 1 else 0) =
      fs.denials file.inode + if file'.denyWrite then 1 else 0 := by
  have hdeny : ∀ {g : File}, g.inode = file.inode →
      denies file.inode (some g) = g.denyWrite := by
    intro g hg
    show (decide (g.inode = file.inode) && g.denyWrite) = g.denyWrite
    rw [decide_eq_true hg, Bool.true_and]
  have hcount := countP_set_of_getElem? (denies file.inode) hfile (some file')
  rw [hdeny rfl, hdeny hinode] at hcount
  exact hcount

end

theorem denials_le_handles (fs : Filesys) (k : Nat) : fs.denials k ≤ fs.handles k := by
  refine List.countP_mono_left fun f _ hf => ?_
  cases f with
  | none => exact hf
  | some f => exact ((Bool.and_eq_true _ _).mp hf).1

section

variable (hc : fs.Consistent) (hfile : fs.files[h]? = some (some file))
include hc hfile

theorem Consistent.changeFile (hip : fs.openInodes file.inode = some ip) (file' : File)
    (hinode : file'.inode = file.inode) (n : Nat) (hn : n + (if file.denyWrite then 1 else 0) =
      ip.denyWriteCnt + if file'.denyWrite then 1 else 0) :
    Consistent { fs.setInode file.inode (some { ip with denyWriteCnt := n }) with
        files := fs.files.set h (some file') } ∧
      ∀ j, Live { fs.setInode file.inode (some { ip with denyWriteCnt := n }) with
        files := fs.files.set h (some file') } j ↔ fs.Live j := by
  obtain ⟨-, -, hk⟩ := hc.inode hfile
  obtain ⟨hcnt, hpos⟩ := hc.openCnt hip hk
  obtain ⟨hlive, hdata⟩ := hc.mounted.cached hip
  have hremoved := hc.removed hip hk
  have hfits : fs.Fits (fs.files.set h (some file')) file.inode
      (some { ip with denyWriteCnt := n }) := by
    have hden := denials_set hfile file' hinode
    have hon := handles_set hfile file' hinode
    rw [← hc.denyCnt hip hk] at hden
    refine ⟨hdata, hremoved, hcnt.trans hon.symm, hpos, ?_⟩
    show n = _
    omega
  obtain ⟨hc', hlive'⟩ := hc.setInode hk hlive hfits (sameElsewhere_set hfile fun g hg => by
    cases hg
    exact hinode)
  exact ⟨hc', fun j => (hlive' j).trans (and_iff_left fun _ => .inr rfl)⟩

theorem Consistent.movePos (pos : Nat) :
    Consistent { fs with files := fs.files.set h (some { file with pos }) } ∧
      ∀ j, Live { fs with files := fs.files.set h (some { file with pos }) } j ↔ fs.Live j := by
  obtain ⟨ip, hip, -⟩ := hc.inode hfile
  have hsame : fs.setInode file.inode (some { ip with denyWriteCnt := ip.denyWriteCnt }) = fs := by
    unfold Filesys.setInode
    rw [← hip, Function.update_eq_self]
  have hmoved := hc.changeFile hfile hip { file with pos } rfl ip.denyWriteCnt rfl
  rw [hsame] at hmoved
  exact hmoved

theorem Consistent.movePos_keeps (pos : Nat) :
    fs.Keeps { fs with files := fs.files.set h (some { file with pos }) } := by
  obtain ⟨hc', hlive⟩ := hc.movePos hfile pos
  exact .of_memory hc' rfl rfl (.of_change hfile rfl rfl id) fun j hj => (hlive j).mpr hj

end

/-! ## The operations -/

section

variable (hc : fs.Consistent) (hfile : fs.file h = some file)
include hc hfile

theorem Consistent.fileSeek {newPos : Int} (hpos : 0 ≤ newPos) :
    ∃ fs', fs.fileSeek h newPos = some fs' ∧ fs.Keeps fs' := by
  refine ⟨_, ?_, hc.movePos_keeps (file_eq_some.mp hfile) newPos.toNat⟩
  simp [Filesys.fileSeek, hfile, hpos]

theorem Consistent.fileRead (m : Mem) (buffer : Nat) (size : Int) :
    ∃ n m' fs', fs.fileRead h m buffer size = some (n, m', fs') ∧ fs.Keeps fs' := by
  have hf := file_eq_some.mp hfile
  obtain ⟨ip, hip, -⟩ := hc.inode hf
  have hread := hc.mounted.inodeReadAt hip m buffer size file.pos
  generalize sliceLength (fs.device.inodeAt file.inode).length size file.pos = n at hread
  generalize m.write buffer n _ = m' at hread
  refine ⟨n, m', _, ?_, hc.movePos_keeps hf (file.pos + n)⟩
  simp [Filesys.fileRead, hfile, hread]

theorem Consistent.fileWrite_denied (hip : fs.openInodes file.inode = some ip)
    (hdeny : ip.denyWriteCnt ≠ 0) (m : Mem) (buffer : Nat) (size : Int) :
    ∃ fs', fs.fileWrite h m buffer size = some (0, fs') ∧ fs.Keeps fs' := by
  refine ⟨_, ?_, hc.movePos_keeps (file_eq_some.mp hfile) (file.pos + 0)⟩
  simp [Filesys.fileWrite, Filesys.inodeWriteAt, hfile, hip, hdeny]

theorem Consistent.fileWrite_allowed (hip : fs.openInodes file.inode = some ip)
    (hdeny : ip.denyWriteCnt = 0) (m : Mem) (buffer : Nat) (size : Int) {n : Nat}
    (hn : sliceLength (fs.device.inodeAt file.inode).length size file.pos = n) :
    ∃ d, fs.fileWrite h m buffer size = some (n, { fs with
        device := d, files := fs.files.set h (some { file with pos := file.pos + n }) }) ∧
      fs.device.Wrote d (fs.device.inodeAt file.inode).start file.pos n (fun i => m (buffer + i)) ∧
      fs.SameRoot { fs with device := d } ∧
      fs.Effect { fs with
        device := d, files := fs.files.set h (some { file with pos := file.pos + n }) }
        (· = file.inode) fun _ => False := by
  have hf := file_eq_some.mp hfile
  obtain ⟨hlive, -⟩ := hc.mounted.cached hip
  obtain ⟨d, hd, hwrote, hsame, hmounted⟩ :=
    hc.mounted.inodeWriteAt hip hdeny m buffer size file.pos
  rw [hn] at hd hwrote
  -- no inode is in the sectors written, and no sector of another inode's data
  have hhead : ∀ {k}, fs.Live k → ¬ fs.dataOf file.inode k := fun hk => hc.mounted.notHeader hlive hk
  have hdata : ∀ {k s}, fs.Live k → k ≠ file.inode → fs.dataOf k s → ¬ fs.dataOf file.inode s :=
    fun hk hne hs => hc.mounted.data_disjoint hk hlive hne hs
  have hne : ∀ {j}, ¬ IsFile j → j ≠ file.inode := by
    rintro j hj rfl
    exact hj (hc.inode hf).choose_spec.2
  have hroot : fs.SameRoot { fs with device := d } :=
    sameRoot_of_sameBut hc.mounted fs.live_root hsame (hhead fs.live_root)
      (hdata fs.live_root (hne fun h => h.2 rfl))
  have hlive₁ : ∀ j, Live { fs with device := d } j ↔ fs.Live j := by
    intro j
    unfold Live
    rw [hroot.named]
  have hc₁ : Consistent { fs with device := d } :=
    hc.transfer (hmounted.congr hlive₁)
      (.frame hc.mounted hc.synced hsame (hhead fs.live_map)
        (hdata fs.live_map (hne fun h => h.1 rfl))) rfl rfl hroot
  obtain ⟨hc', hlive'⟩ := hc₁.movePos hf (file.pos + n)
  refine ⟨d, ?_, hwrote, hroot, hc', ?_, ?_, .of_change hf rfl rfl id, ?_, ?_⟩
  · simp [Filesys.fileWrite, hfile, hd]
  · exact fun _ hk => hsame.inodeAt (hhead hk)
  · exact fun _ hk hw hs ho => hsame.data (hdata hk hw hs) ho
  · intro s hset hclear
    have hclear : bitmapTest fs.freeMap s = false := hclear
    rw [hset] at hclear
    cases hclear
  · intro k s hk hgone
    exact absurd ((hlive' k).mpr ((hlive₁ k).mpr hk)) hgone

theorem Consistent.fileWrite (m : Mem) (buffer : Nat) (size : Int) :
    ∃ n fs', fs.fileWrite h m buffer size = some (n, fs') ∧
      fs.Effect fs' (· = file.inode) fun _ => False := by
  obtain ⟨ip, hip, -⟩ := hc.inode (file_eq_some.mp hfile)
  by_cases hdeny : ip.denyWriteCnt = 0
  · obtain ⟨d, hwrite, -, -, heffect⟩ := hc.fileWrite_allowed hfile hip hdeny m buffer size rfl
    exact ⟨_, _, hwrite, heffect⟩
  · obtain ⟨fs', hwrite, hkeeps⟩ := hc.fileWrite_denied hfile hip hdeny m buffer size
    exact ⟨0, fs', hwrite, hkeeps.mono fun _ => False.elim⟩

theorem Consistent.fileDenyWrite :
    ∃ fs', fs.fileDenyWrite h = some fs' ∧ fs.Keeps fs' ∧
      fs'.file h = some { file with denyWrite := true } := by
  have hf := file_eq_some.mp hfile
  obtain ⟨ip, hip, hk⟩ := hc.inode hf
  cases hdeny : file.denyWrite with
  | true =>
    refine ⟨fs, ?_, .refl hc, ?_⟩
    · simp [Filesys.fileDenyWrite, hfile, hdeny]
    · rw [hfile, ← hdeny]
  | false =>
    -- there is a file on the inode that does not deny writes yet
    have hle : ip.denyWriteCnt + 1 ≤ ip.openCnt := by
      have hden := denials_set hf { file with denyWrite := true } rfl
      have hon := handles_set hf { file with denyWrite := true } rfl
      have hmono := denials_le_handles
        { fs with files := fs.files.set h (some { file with denyWrite := true }) } file.inode
      unfold denials handles at hmono
      simp only at hmono
      rw [hdeny, ← hc.denyCnt hip hk] at hden
      rw [← (hc.openCnt hip hk).1] at hon
      simp only [Bool.false_eq_true, if_false, if_true] at hden
      omega
    obtain ⟨hc', hlive⟩ := hc.changeFile hf hip { file with denyWrite := true } rfl
      (ip.denyWriteCnt + 1) (by simp [hdeny])
    refine ⟨_, ?_, .of_memory hc' rfl rfl (.of_change hf rfl rfl fun _ => rfl)
      fun j hj => (hlive j).mpr hj, ?_⟩
    · have hinode : fs.inodeDenyWrite file.inode =
          some (fs.setInode file.inode (some { ip with denyWriteCnt := ip.denyWriteCnt + 1 })) := by
        simp only [Filesys.inodeDenyWrite, hip, Option.bind_eq_bind, Option.bind_some, if_pos hle]
        rfl
      simp [Filesys.fileDenyWrite, hfile, hdeny, hinode]
    · refine file_eq_some.mpr (List.getElem?_set_self ?_)
      exact (List.getElem?_eq_some_iff.mp hf).choose

end

/-! ## Closing -/

theorem Consistent.fileAllowWrite (hc : fs.Consistent) (hfile : fs.file h = some file) :
    ∃ fs', fs.fileAllowWrite h = some fs' ∧ fs'.Consistent ∧ (∀ j, fs'.Live j ↔ fs.Live j) ∧
      fs'.device = fs.device ∧ fs'.freeMap = fs.freeMap ∧ fs.SameFiles fs' (· = h) ∧
      fs'.files[h]? = some (some { file with denyWrite := false }) := by
  have hf := file_eq_some.mp hfile
  obtain ⟨ip, hip, hk⟩ := hc.inode hf
  cases hdeny : file.denyWrite with
  | false =>
    have hsame : { file with denyWrite := false } = file := by
      rw [← hdeny]
    refine ⟨fs, ?_, hc, fun _ => Iff.rfl, rfl, rfl, .of_eq rfl, ?_⟩
    · simp [Filesys.fileAllowWrite, hfile, hdeny]
    · rw [hsame]
      exact hf
  | true =>
    have hden := denials_set hf { file with denyWrite := false } rfl
    rw [hdeny, ← hc.denyCnt hip hk] at hden
    simp only [Bool.false_eq_true, if_false, if_true] at hden
    have hle : ip.denyWriteCnt ≤ ip.openCnt := by
      rw [hc.denyCnt hip hk, (hc.openCnt hip hk).1]
      exact denials_le_handles fs file.inode
    obtain ⟨hc', hlive⟩ := hc.changeFile hf hip { file with denyWrite := false } rfl
      (ip.denyWriteCnt - 1) (by simp only [hdeny, Bool.false_eq_true, if_false, if_true]; omega)
    refine ⟨_, ?_, hc', hlive, rfl, rfl, .of_set rfl, ?_⟩
    · have hpos : 0 < ip.denyWriteCnt := by omega
      simp [Filesys.fileAllowWrite, hfile, hdeny, Filesys.inodeAllowWrite, hip, hle, hpos]
    · have hlt : h < fs.files.length := (List.getElem?_eq_some_iff.mp hf).choose
      exact List.getElem?_set_self hlt

theorem handles_close (hfile : fs.files[h]? = some (some file)) (hdeny : file.denyWrite = false) :
    (fs.files.set h none).countP (File.on file.inode) + 1 = fs.handles file.inode ∧
      (fs.files.set h none).countP (File.denies file.inode) = fs.denials file.inode := by
  have hon : on file.inode (some file) = true := decide_eq_true rfl
  have hdenies : denies file.inode (some file) = false := by
    show (decide (file.inode = file.inode) && file.denyWrite) = false
    rw [hdeny, Bool.and_false]
  have hcount := countP_set_of_getElem? (on file.inode) hfile none
  have hcount' := countP_set_of_getElem? (denies file.inode) hfile none
  rw [hon] at hcount
  rw [hdenies] at hcount'
  exact ⟨hcount, hcount'⟩

theorem Consistent.closeFile (hc : fs.Consistent) (hfile : fs.files[h]? = some (some file))
    (hdeny : file.denyWrite = false) :
    ∃ fs₁, fs.inodeClose file.inode = some fs₁ ∧
      fs.Effect { fs₁ with files := fs₁.files.set h none } (fun _ => False) (· = h) ∧
      (fs.Named file.inode → fs₁.device = fs.device ∧ fs₁.freeMap = fs.freeMap) := by
  obtain ⟨ip, hip, hk⟩ := hc.inode hfile
  obtain ⟨hlive, hdata⟩ := hc.mounted.cached hip
  obtain ⟨hcnt, hpos⟩ := hc.openCnt hip hk
  obtain ⟨hon, hden⟩ := handles_close hfile hdeny
  have hremoved := hc.removed hip hk
  have hother : fs.SameElsewhere (fs.files.set h none) file.inode := sameElsewhere_set hfile nofun
  by_cases hlast : ip.openCnt = 1
  · have hclosed : fs.Fits (fs.files.set h none) file.inode none := by
      show (fs.files.set h none).countP (on file.inode) = 0
      omega
    obtain ⟨hc', hlive'⟩ := hc.setInode hk hlive hclosed hother
    cases hrem : ip.removed with
    | false =>
      have hnamed : fs.Named file.inode := by
        by_contra hnot
        rw [hremoved.mpr hnot] at hrem
        cases hrem
      refine ⟨_, inodeClose_last hip hlast hrem,
        .of_memory hc' rfl rfl (.of_set rfl) fun j hj => ?_, fun _ => ⟨rfl, rfl⟩⟩
      exact (hlive' j).mpr ⟨hj, fun _ => .inl hnamed⟩
    | true =>
      have hnot := hremoved.mp hrem
      obtain ⟨fs₁, hclose, hfreed⟩ := hc.mounted.inodeClose_removed hip hk.1 hlast hrem
      -- it is as if the inode had been forgotten first and its sectors released then
      have hlive₁ : ∀ j, Live { fs.setInode file.inode none with files := fs.files.set h none } j ↔
          fs.Live j ∧ j ≠ file.inode := by
        intro j
        rw [hlive' j]
        refine and_congr_right fun _ => ?_
        constructor
        · rintro hor rfl
          exact (hor rfl).elim hnot nofun
        · intro hne heq
          exact absurd heq hne
      have hmounted₁ : Mounted { fs₁ with files := fs₁.files.set h none }
          (Live { fs.setInode file.inode none with files := fs.files.set h none }) :=
        (hfreed.mounted.setFiles _).congr hlive₁
      obtain ⟨hc₁, hsame⟩ := hc'.remapped hmounted₁ hfreed.synced hfreed.openInodes
        (by rw [hfreed.files]) hfreed.device
      exact ⟨fs₁, hclose, hc.effect_freed hc₁ hfreed.device (fun hin => .inl (.inl hin))
        (.of_set (by rw [hfreed.files])) hlive (fun j => (hsame j).trans (hlive₁ j)) hfreed.bits,
        fun hnamed => absurd hnamed hnot⟩
  · have hopen : fs.Fits (fs.files.set h none) file.inode
        (some { ip with openCnt := ip.openCnt - 1 }) := by
      refine ⟨hdata, hremoved, ?_, ?_, (hc.denyCnt hip hk).trans hden.symm⟩
      · show ip.openCnt - 1 = _
        omega
      · show 0 < ip.openCnt - 1
        omega
    obtain ⟨hc', hlive'⟩ := hc.setInode hk hlive hopen hother
    refine ⟨_, inodeClose_more hip hlast,
      .of_memory hc' rfl rfl (.of_set rfl) fun j hj => ?_, fun _ => ⟨rfl, rfl⟩⟩
    exact (hlive' j).mpr ⟨hj, fun _ => .inr rfl⟩

theorem Consistent.fileClose (hc : fs.Consistent) (hfile : fs.file h = some file) :
    ∃ fs', fs.fileClose h = some fs' ∧ fs.Effect fs' (fun _ => False) (· = h) ∧
      (fs.Named file.inode → fs'.device = fs.device ∧ fs'.freeMap = fs.freeMap) := by
  obtain ⟨fs₁, hallow, hc₁, hlive, hdevice, hmap, hfiles, hfile₁⟩ := hc.fileAllowWrite hfile
  obtain ⟨fs₂, hclose, heffect, hsame⟩ := hc₁.closeFile hfile₁ rfl
  refine ⟨{ fs₂ with files := fs₂.files.set h none }, ?_, heffect.before hlive hdevice hmap hfiles, ?_⟩
  · have hclose : fs₁.inodeClose file.inode = some fs₂ := hclose
    simp [Filesys.fileClose, hfile, hallow, hclose]
  · intro hnamed
    have hnamed₁ : fs₁.Named file.inode := by
      unfold Named
      rw [hdevice]
      exact hnamed
    obtain ⟨hdevice₂, hmap₂⟩ := hsame hnamed₁
    exact ⟨hdevice₂.trans hdevice, hmap₂.trans hmap⟩

end Filesys

end Pintos
