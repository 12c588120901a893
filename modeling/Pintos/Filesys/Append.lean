import Pintos.Filesys.Extract

/-!
# The end of an archive (`filesys/fsutil.c`)

`fsutil_append` means to end the archive by two sectors of zeros. Its second `block_write` goes to
the same sector as its first and starts at `buffer + 1`, so that the last byte of the sector is the
byte behind the buffer, and the sector after it keeps what it had.
-/

namespace Pintos

open Lib Filesys Option

/-- The device holds the headers and the zero-padded data of the files, from sector 0 up to another. -/
inductive Tarred (d : Block) : List Archived → Nat → Prop
  | nil : Tarred d [] 0
  | snoc {files : List Archived} {f : Archived} {s : Nat} {header : Mem} (hfiles : Tarred d files s)
      (hmake : ustarMakeHeader f.name.1 .regular f.size (fun _ => 0) = some header)
      (hheader : ∀ o < 512, d.data s o = header o)
      (hdata : ∀ o < 512 * f.sectors,
        d.byteFrom (s + 1) o = if o < f.size then f.bytes o else 0) :
      Tarred d (files ++ [f]) (s + 1 + f.sectors)

theorem Tarred.congr {d d' : Block} {files : List Archived} {e : Nat} (h : Tarred d files e)
    (hsame : ∀ t < e, ∀ o, d'.data t o = d.data t o) : Tarred d' files e := by
  induction h with
  | nil => exact .nil
  | @snoc files f s header hfiles hmake hheader hdata ih =>
    refine .snoc (ih fun t ht => hsame t (by omega)) hmake (fun o ho => ?_) fun o ho => ?_
    · exact (hsame s (by omega) o).trans (hheader o ho)
    · exact (hsame _ (by omega) _).trans (hdata o ho)

/-! ## The header does not depend on what the buffer held -/

section

variable {name : List UInt8} {type : UstarType} {size i : Nat} {header header' h h' : Mem}

theorem storeField_congr {ofs : Nat} (s : List UInt8) (heq : h i = h' i) :
    storeField h ofs s i = storeField h' ofs s i := by
  unfold storeField Mem.write
  rw [heq]

theorem ustarFields_congr (header header' : Mem) (hi : i < 512) :
    ustarFields header name type size i = ustarFields header' name type size i := by
  have hzero : header.fill 0 512 0 i = header'.fill 0 512 0 i := by
    unfold Mem.fill
    rw [Mem.write_in (Nat.zero_le i) (by omega), Mem.write_in (Nat.zero_le i) (by omega)]
  have hfill : ∀ {h h' : Mem} (a n : Nat) (b : UInt8), h i = h' i → h.fill a n b i = h'.fill a n b i := by
    intro h h' a n b heq
    unfold Mem.fill Mem.write
    rw [heq]
  unfold ustarFields
  iterate 2 apply storeField_congr
  apply hfill
  apply storeField_congr
  apply hfill
  iterate 6 apply storeField_congr
  exact hzero

theorem ustarMakeHeader_congr (hmake : ustarMakeHeader name type size header = some h)
    (hmake' : ustarMakeHeader name type size header' = some h') : ∀ i < 512, h i = h' i := by
  unfold ustarMakeHeader at hmake hmake'
  split at hmake
  · cases hmake
  · next htype =>
    rw [if_neg htype] at hmake'
    dsimp only at hmake hmake'
    split at hmake
    · cases hmake
    · next hshort =>
      rw [if_neg hshort] at hmake'
      cases hmake
      cases hmake'
      intro i hi
      have hsum : calculateChksum (ustarFields header (stripAntisocialPrefixes name) type size) =
          calculateChksum (ustarFields header' (stripAntisocialPrefixes name) type size) :=
        calculateChksum_congr fun i hi _ => ustarFields_congr header header' hi
      rw [hsum]
      exact storeField_congr _ (ustarFields_congr header header' hi)

end

/-! ## Calls that do not panic -/

section

variable {fs fs' : Filesys} {scratch : Block} {s s' : Appender} {files : List Archived} {name : Name}
  {buffer : Mem}

theorem appendLoop_sector {h sector sector' size : Nat} {dst dst' : Block} {buffer' : Mem}
    (hloop : appendLoop h fs dst sector size buffer = some (fs', dst', sector', buffer')) :
    sector' = sector + (size + 511) / 512 ∧ dst'.size = dst.size := by
  induction hrounds : (size + 511) / 512 generalizing fs dst sector size buffer with
  | zero =>
    rw [appendLoop, if_neg (by omega)] at hloop
    cases hloop
    exact ⟨rfl, rfl⟩
  | succ rounds ih =>
    obtain ⟨chunk, hchunk⟩ : ∃ chunk, (if 512 < size then 512 else size) = chunk := ⟨_, rfl⟩
    obtain ⟨hsome, -, -, -, hrest⟩ := chunk_round hrounds hchunk
    rw [appendLoop, if_pos hsome] at hloop
    simp only [hchunk] at hloop
    split at hloop
    · cases hloop
    · obtain ⟨⟨n, b, fs₁⟩, -, hloop⟩ := bind_eq_some_iff.mp hloop
      dsimp only at hloop
      split at hloop
      · cases hloop
      · obtain ⟨d, hwrite, hloop⟩ := bind_eq_some_iff.mp hloop
        obtain ⟨hsector, hsize⟩ := ih hloop hrest
        exact ⟨by omega, hsize.trans (blockWrite_some hwrite).2.1⟩

/-- A call that does not panic has found a file whose name fits the header, and room for it. -/
theorem fsutilAppend_inv (hc : s.fs.Consistent) (h : fsutilAppend s name buffer = some s') :
    ∃ f : Archived, f.name = name ∧ s.fs.Has f ∧
      (stripAntisocialPrefixes name.1).length ≤ 99 ∧ s.sector + 1 + f.sectors < s.scratch.size := by
  rcases hc.lookupRoot name with ⟨i, e, hfound, -, -, -, hnamed⟩ | hnone
  · have hopen := hc.openFile_some hfound hnamed
    have hflen := hc.opened_length (DirEntry.inodeSector e)
    have hstat := hc.stat_eq hfound
    refine ⟨⟨name, _, _⟩, rfl, ⟨_, hstat⟩, ?_⟩
    simp only [fsutilAppend, hopen, hflen, bind_eq_bind, bind_some] at h
    obtain ⟨header, hmake, h⟩ := bind_eq_some_iff.mp h
    obtain ⟨d₁, hwrite₁, h⟩ := bind_eq_some_iff.mp h
    obtain ⟨⟨fs₂, d₂, sector, b₂⟩, hloop, h⟩ := bind_eq_some_iff.mp h
    obtain ⟨d₃, hwrite₃, -⟩ := bind_eq_some_iff.mp h
    obtain ⟨hsector, hsize₂⟩ := appendLoop_sector hloop
    have hsize₁ := (blockWrite_some hwrite₁).2.1
    have hlast : sector < d₂.size := (blockWrite_some hwrite₃).1
    refine ⟨?_, ?_⟩
    · by_contra hlong
      unfold ustarMakeHeader at hmake
      rw [if_neg (by simp), if_pos (Nat.lt_of_not_le hlong)] at hmake
      cases hmake
    · show s.sector + 1 + ((s.fs.device.inodeAt (DirEntry.inodeSector e)).length + 511) / 512 < _
      omega
  · simp [fsutilAppend, hc.openFile_none hnone] at h

/-- What has been appended to a device that held `scratch`. -/
structure AppendedTo (fs : Filesys) (scratch : Block) (s : Appender) (files : List Archived) :
    Prop where
  consistent : s.fs.Consistent
  device : s.fs.device = fs.device
  size : s.scratch.size = scratch.size
  has : ∀ f ∈ files, fs.Has f
  tarred : Tarred s.scratch files s.sector
  behind : ∀ t o, s.sector < t → s.scratch.data t o = scratch.data t o

/-- **The step lemma.** -/
theorem AppendedTo.append (hc : fs.Consistent) (h : AppendedTo fs scratch s files)
    (happend : fsutilAppend s name buffer = some s') :
    ∃ f : Archived, f.name = name ∧ AppendedTo fs scratch s' (files ++ [f]) ∧
      s'.scratch.EndsWith s'.sector (buffer 512) := by
  obtain ⟨f, rfl, hf, hshort, hroom⟩ := fsutilAppend_inv h.consistent happend
  obtain ⟨s₁, header, happend₁, hmake, h₁⟩ :=
    @fsutilAppend_appends s f buffer h.consistent hf hshort hroom
  obtain rfl := Option.some.inj (happend.symm.trans happend₁)
  obtain ⟨header', hmake', -⟩ :=
    ustarMakeHeader_made (show .regular ≠ UstarType.eof from nofun) hshort f.size fun _ => 0
  refine ⟨f, rfl, ⟨h₁.consistent, h₁.device.trans h.device, h₁.size.trans h.size, ?_, ?_, ?_⟩,
    h₁.marker⟩
  · intro g hg
    rcases List.mem_append.mp hg with hg | hg
    · exact h.has g hg
    · obtain rfl := List.mem_singleton.mp hg
      obtain ⟨k, hstat⟩ := hf
      exact ⟨k, ((hc.stat_congr h.consistent h.device g.name).2).symm.trans hstat⟩
  · have hold : Tarred s'.scratch files s.sector :=
      h.tarred.congr fun t ht o => h₁.others t o (.inl ht)
    rw [h₁.sector]
    refine hold.snoc hmake' (fun o ho => ?_) fun o ho => ?_
    · rw [h₁.header, ustarMakeHeader_congr hmake hmake' o ho]
    · split
      · next hin => exact h₁.bytes o hin
      · next hout => exact h₁.padding o (by omega) ho
  · intro t o ht
    have hsector := h₁.sector
    rw [h₁.others t o (.inr ht), h.behind t o (by omega)]

theorem appendAll_snoc (s : Appender) (calls : List (Name × Mem)) (name : Name) (buffer : Mem) :
    appendAll s (calls ++ [(name, buffer)]) =
      (appendAll s calls).bind fun s => fsutilAppend s name buffer := by
  induction calls generalizing s with
  | nil => simp [appendAll]
  | cons c rest ih =>
    rw [List.cons_append, appendAll, appendAll]
    cases fsutilAppend s c.1 c.2 with
    | none => rfl
    | some s₁ => exact ih s₁

/-- **The run lemma.** -/
theorem appendAll_appended (hc : fs.Consistent) (calls : List (Name × Mem))
    (hrun : appendAll ⟨fs, scratch, 0⟩ calls = some s) :
    ∃ files, files.map Archived.name = calls.map Prod.fst ∧ AppendedTo fs scratch s files := by
  induction calls using List.reverseRecOn generalizing s with
  | nil =>
    cases hrun
    exact ⟨[], rfl, ⟨hc, rfl, rfl, nofun, .nil, fun _ _ _ => rfl⟩⟩
  | append_singleton calls c ih =>
    rw [appendAll_snoc] at hrun
    obtain ⟨s₁, hrun₁, happend⟩ := bind_eq_some_iff.mp hrun
    obtain ⟨files, hnames, h⟩ := ih hrun₁
    obtain ⟨f, hname, h', -⟩ := h.append hc happend
    exact ⟨files ++ [f], by simp [hnames, hname], h'⟩

end

/-- A sector of zeros. -/
def Block.Blank (d : Block) (sector : Nat) : Prop :=
  sector < d.size ∧ ∀ o < 512, d.data sector o = 0

/-- Every sector that the call writes is filled from the 512 bytes of the buffer: what lies behind them
makes no difference. -/
def FilledFromBuffer (s : Appender) (name : Name) (buffer : Mem) : Prop :=
  ∀ buffer' : Mem, (∀ i < 512, buffer' i = buffer i) →
    ∀ s₁ s₂, fsutilAppend s name buffer = some s₁ → fsutilAppend s name buffer' = some s₂ →
      ∀ t, ∀ o < 512, s₁.scratch.data t o = s₂.scratch.data t o

theorem not_filledFromBuffer {s s' : Appender} {name : Name} {buffer : Mem} (hc : s.fs.Consistent)
    (happend : fsutilAppend s name buffer = some s') : ¬ FilledFromBuffer s name buffer := by
  obtain ⟨f, rfl, hf, hshort, hroom⟩ := fsutilAppend_inv hc happend
  -- another byte behind the buffer is on the device
  obtain ⟨s₁, header₁, happend₁, -, h₁⟩ := @fsutilAppend_appends s f buffer hc hf hshort hroom
  obtain ⟨s₂, header₂, happend₂, -, h₂⟩ := @fsutilAppend_appends s f
    (Function.update buffer 512 (buffer 512 + 1)) hc hf hshort hroom
  intro h
  have hsame := h _ (fun i hi => Function.update_of_ne (by omega) ..) s₁ s₂ happend₁ happend₂
    s₁.sector 511 (by omega)
  have hlast₂ := h₂.marker 511 (by omega)
  rw [h₂.sector, ← h₁.sector, if_pos rfl, Function.update_self] at hlast₂
  rw [h₁.marker 511 (by omega), if_pos rfl, hlast₂] at hsame
  simp at hsame

theorem Tarred.sectors {d : Block} {files : List Archived} {e : Nat} (h : Tarred d files e) :
    e = archiveSectors files := by
  induction h with
  | nil => rfl
  | snoc hfiles hmake hheader hdata ih => simp [ih, archiveSectors, Nat.add_assoc]

/-- **The end of the archive.** After every call that does not panic the device holds the files, but
the call has filled a sector from behind its buffer. The last byte of the sector behind the files is
the one behind the buffer, and two sectors of zeros follow exactly if that byte is zero and the next
sector was blank before. -/
theorem fsutil_append_terminated_iff {fs : Filesys} {scratch : Block} {calls : List (Name × Mem)}
    {name : Name} {buffer : Mem} {s₁ s : Appender} (hc : fs.Consistent)
    (hrun : appendAll ⟨fs, scratch, 0⟩ calls = some s₁)
    (happend : fsutilAppend s₁ name buffer = some s) :
    ¬ FilledFromBuffer s₁ name buffer ∧
    ∃ files : List Archived, files.map Archived.name = calls.map Prod.fst ++ [name] ∧
      (∀ f ∈ files, fs.Has f) ∧ Tarred s.scratch files (archiveSectors files) ∧
      s.scratch.data (archiveSectors files) 511 = buffer 512 ∧
      (s.scratch.Blank (archiveSectors files) ∧ s.scratch.Blank (archiveSectors files + 1) ↔
        buffer 512 = 0 ∧ scratch.Blank (archiveSectors files + 1)) := by
  obtain ⟨files, hnames, h⟩ := appendAll_appended hc calls hrun
  obtain ⟨f, hname, h', hmarker⟩ := h.append hc happend
  have hend := h'.tarred.sectors
  have hlast : s.scratch.data s.sector 511 = buffer 512 := by
    rw [hmarker 511 (by omega), if_pos rfl]
  refine ⟨not_filledFromBuffer h.consistent happend, files ++ [f], by simp [hnames, hname], h'.has, ?_⟩
  rw [← hend]
  refine ⟨h'.tarred, hlast, ?_⟩
  have hnext : s.scratch.Blank (s.sector + 1) ↔ scratch.Blank (s.sector + 1) := by
    unfold Block.Blank
    rw [h'.size]
    simp only [h'.behind (s.sector + 1) _ (Nat.lt_succ_self _)]
  rw [hnext]
  constructor
  · rintro ⟨hblank, hbehind⟩
    exact ⟨hlast.symm.trans (hblank.2 511 (by omega)), hbehind⟩
  · rintro ⟨hzero, hbehind⟩
    refine ⟨⟨?_, fun o ho => ?_⟩, hbehind⟩
    · have hsize := h'.size
      have hin := hbehind.1
      omega
    · rw [hmarker o ho, hzero, ite_self]

theorem oneFile_appends (old : UInt8) (buffer : Mem) :
    ∃ s, fsutilAppend ⟨oneFile, ⟨5, fun _ _ => old⟩, 0⟩ nameA buffer = some s ∧
      s.sector = 3 := by
  obtain ⟨f, hname, hsize, hf⟩ := oneFile_has
  have hc := oneFile_consistent
  generalize oneFile = fs at *
  have hsectors : f.sectors = 2 := by
    rw [Archived.sectors, hsize]
  have hroom : 0 + 1 + f.sectors < 5 := by
    rw [hsectors]
    decide
  obtain ⟨s, header, happend, -, h⟩ :=
    @fsutilAppend_appends ⟨fs, ⟨5, fun _ _ => old⟩, 0⟩ f buffer hc hf
      (by rw [hname]; decide) hroom
  exact ⟨s, hname ▸ happend, by rw [h.sector, hsectors]⟩

theorem fsutil_append_terminated_oneFile : ∃ s : Appender,
    appendAll ⟨oneFile, ⟨5, fun _ _ => 0⟩, 0⟩ [] = some ⟨oneFile, ⟨5, fun _ _ => 0⟩, 0⟩ ∧
      fsutilAppend ⟨oneFile, ⟨5, fun _ _ => 0⟩, 0⟩ nameA (fun _ => 0) = some s ∧
      ¬ FilledFromBuffer ⟨oneFile, ⟨5, fun _ _ => 0⟩, 0⟩ nameA (fun _ => 0) := by
  obtain ⟨s, happend, -⟩ := oneFile_appends 0 fun _ => 0
  have hrun : appendAll ⟨oneFile, ⟨5, fun _ _ => 0⟩, 0⟩ [] =
      some ⟨oneFile, ⟨5, fun _ _ => 0⟩, 0⟩ := rfl
  exact ⟨s, hrun, happend, (fsutil_append_terminated_iff oneFile_consistent hrun happend).1⟩

/-- A device that held ones, and a 7 behind the buffer: neither of the two sectors is blank. -/
theorem archive_not_terminated : ∃ s : Appender,
    fsutilAppend ⟨oneFile, ⟨5, fun _ _ => 255⟩, 0⟩ nameA (fun i => if i = 512 then 7 else 0) =
        some s ∧
      s.sector = 3 ∧ s.scratch.data 3 511 = 7 ∧ s.scratch.data 4 0 = 255 := by
  obtain ⟨s, happend, hsector⟩ := oneFile_appends 255 fun i => if i = 512 then 7 else 0
  obtain ⟨files, -, h⟩ := appendAll_appended (s := ⟨oneFile, ⟨5, fun _ _ => 255⟩, 0⟩)
    oneFile_consistent [] rfl
  obtain ⟨f, -, h', hmarker⟩ := h.append oneFile_consistent happend
  have hnext := h'.behind 4 0 (by omega)
  rw [hsector] at hmarker
  exact ⟨s, happend, hsector, hmarker 511 (by decide), hnext⟩

end Pintos
